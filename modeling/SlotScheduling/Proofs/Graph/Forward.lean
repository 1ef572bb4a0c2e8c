import SlotScheduling.Proofs.Graph.Entered

/-!
# Blocks that are created in order

Where every operation of a block waits, within one iteration, for what is live at its entry or was
created before it, every dependency of the graph of the block leads to a later unit.
-/

namespace SlotScheduling

namespace Graph

variable {g g' : Graph} {target source id : UnitId} {edge : DepEdge}

/-- Every dependency is one on an earlier unit, in the same iteration. -/
def Forward (g : Graph) : Prop :=
  ∀ ⦃user source bundle⦄, g.bundle? user source = some bundle →
    source < user ∧ bundle.edge.distance = 0

theorem Honours.dependsOn {latency : Nat} (h : g.Honours target source latency) :
    g.DependsOn target source := by
  obtain ⟨bundle, hbundle, -⟩ := h
  exact dependsOn_iff_bundle?.mpr ⟨bundle, hbundle⟩

theorem Forward.addDep (hg : g.Forward) (hlisted : g.Listed) (hlt : source < target)
    (hlocal : edge.distance = 0) (h : g.addDep target source edge = .ok g') : g'.Forward := by
  intro user other bundle hbundle
  obtain ⟨joined, hjoins, hbundles⟩ := bundle?_addDep hlisted h
  rw [hbundles] at hbundle
  split at hbundle
  next hpair =>
    obtain ⟨rfl, rfl⟩ := hpair
    cases hbundle
    exact ⟨hlt, hjoins.distance_eq_zero hlocal fun _ hold => (hg hold).2⟩
  next => exact hg hbundle

theorem Forward.of_outline_eq (hg : g.Forward) (hsame : g'.outline = g.outline) :
    g'.Forward := by
  intro user source bundle hbundle
  obtain ⟨bundle', hbundle', heq⟩ := exists_bundle_of_outline_eq hsame hbundle
  obtain ⟨hlt, hlocal⟩ := hg hbundle'
  have hdistance := congrArg (fun bundle => bundle.edge.distance) heq
  exact ⟨hlt, hdistance.trans hlocal⟩

theorem Closes.forward {block : BlockId} (h : Closes block g g') (hg : g.Forward) :
    g'.Forward := by
  intro user source bundle hbundle
  obtain ⟨unit, hunit, _⟩ := exists_of_bundle? hbundle
  rcases h.lt_or_eq (lt_size_of_getElem? hunit) with hlt | rfl
  · rw [h.agrees.edges hlt] at hbundle
    exact hg hbundle
  · obtain ⟨hcontrol, hlocal⟩ := h.waits hbundle
    exact ⟨hcontrol.lt_size, hlocal⟩

end Graph

namespace Lowering

open SlotScheduling.Graph

variable {σ : Type} {program : Program} {basic : BasicBlock} {g g' made : Graph} {block : BlockId}
  {entry id : UnitId} {created : List (OpId × UnitId)} {entrySlot : Nat} {now last : Journaled σ}

/-- In the same iteration, every operation of the block waits for what is live at the entry, or for
a unit that was created before its own. -/
def CreatedInOrder (program : Program) (basic : BasicBlock) (g : Graph) : Prop :=
  ∀ op ∈ basic.ops, ∀ dependences ∈ program.oracle.dependences op, ∀ dependence ∈ dependences,
    dependence.distance = 0 ∧
      ∀ source ∈ dependence.source.bind fun source => g.holder? (.op source),
        ∀ id < g.units.size, g.Leads (.op op) id → source < id

instance (program : Program) (basic : BasicBlock) (g : Graph) :
    Decidable (CreatedInOrder program basic g) :=
  inferInstanceAs (Decidable (∀ op ∈ basic.ops, ∀ dependences ∈ program.oracle.dependences op,
    ∀ dependence ∈ dependences, dependence.distance = 0 ∧
      ∀ source ∈ dependence.source.bind fun source => g.holder? (.op source),
        ∀ id < g.units.size, g.Leads (.op op) id → source < id))

theorem CreatedInOrder.of_same (h : CreatedInOrder program basic g)
    (hholders : ∀ op, g'.holder? (.op op) = g.holder? (.op op))
    (hleads : ∀ {op id}, g'.Leads (.op op) id → g.Leads (.op op) id) :
    CreatedInOrder program basic g' := by
  intro op hop dependences hall dependence hmem
  obtain ⟨hlocal, hbefore⟩ := h op hop dependences hall dependence hmem
  refine ⟨hlocal, fun source hsource id _ hid => ?_⟩
  simp only [hholders] at hsource
  exact hbefore source hsource id (hleads hid).lt_size (hleads hid)

/-- Attaching the units of the operations adds forward dependencies alone. -/
theorem forward_attachUnits (hlisted : made.Listed) (hmade : made.Forward)
    (hcreated : ∀ {op id}, (op, id) ∈ created →
      op ∈ basic.ops ∧ made.Leads (.op op) id ∧ entry < id)
    (horder : CreatedInOrder program basic made)
    (h : attachUnits program entry block created made = .ok g) : g.Forward := by
  obtain ⟨attached, hattach, hanchor⟩ := Checked.bind_eq_ok.mp h
  have haddEntry : ∀ {before after : Graph} {id : UnitId}, before.Listed ∧ before.Forward →
      entry < id → before.addDep id entry (.value 0) = .ok after →
      after.Listed ∧ after.Forward := fun hbefore hlt hadd =>
    ⟨hbefore.1.of_bare_eq (bare_addDep hadd), hbefore.2.addDep hbefore.1 hlt rfl hadd⟩
  have hattached : attached.bare = made.bare ∧ attached.Listed ∧ attached.Forward := by
    refine Checked.foldlM_induction
      (P := fun now : Graph => now.bare = made.bare ∧ now.Listed ∧ now.Forward)
      (fun pair hpair before after hbefore hround => ?_) ⟨rfl, hlisted, hmade⟩ hattach
    obtain ⟨hop, hleads, hlt⟩ := hcreated hpair
    unfold attachOperands at hround
    split at hround
    · cases hround
    next dependences hall =>
      refine Checked.foldlM_induction
        (P := fun now : Graph => now.bare = made.bare ∧ now.Listed ∧ now.Forward)
        (fun dependence hdependence before after hbefore hround => ?_) hbefore hround
      obtain ⟨hlocal, hbelow⟩ := horder _ hop _ hall _ hdependence
      obtain ⟨hbare, hbefore⟩ := hbefore
      unfold attachOperand at hround
      split at hround
      next source hsource =>
        rw [holder?_of_bare_eq hbare] at hsource
        have hlt := hbelow source hsource _ hleads.lt_size hleads
        refine ⟨(bare_addDep hround).trans hbare, hbefore.1.of_bare_eq (bare_addDep hround),
          hbefore.2.addDep hbefore.1 hlt ?_ hround⟩
        rw [edgeOf_distance, hlocal]
      next => exact ⟨(bare_addDep hround).trans hbare, haddEntry hbefore hlt hround⟩
  refine (Checked.foldlM_induction (P := fun now : Graph => now.Listed ∧ now.Forward)
    (fun id hid before after hbefore hround => ?_) hattached.2 hanchor).2
  obtain ⟨⟨op, _⟩, hmem, rfl⟩ := List.mem_map.mp hid
  obtain ⟨_, _, hround⟩ := Checked.bind_eq_ok.mp hround
  obtain ⟨anchored, _, hround⟩ := Checked.bind_eq_ok.mp hround
  split at hround
  · cases hround
    exact hbefore
  · exact haddEntry hbefore (hcreated hmem).2.2 hround

theorem forward_start (block : BlockId) (entrySlot : Nat) :
    (Graph.start block entrySlot).Forward := by
  intro user source bundle hbundle
  rw [bundle?, getElem?_start] at hbundle
  split at hbundle <;> cases hbundle

/-- Units are created without dependencies. -/
theorem forward_createOps {ops : List OpId} (hwell : g.WellFormed) (hg : g.Forward)
    (h : createOps program block ops g now = .ok (made, created) last) : made.Forward := by
  refine (Step.foldlM_induction (P := fun (result : Graph × List (OpId × UnitId)) _ =>
    result.1.WellFormed ∧ result.1.Forward)
    (fun op _ before after now last hbefore hround => ?_) ⟨hwell, hg⟩ h).2
  obtain ⟨loops, hcreate, _⟩ := createNext_eq_ok hround
  obtain ⟨_, _, hmade⟩ := made_createOp hbefore.1 hcreate
  refine ⟨hmade.toWellFormed, fun user source bundle hbundle => hbefore.2 ?_⟩
  rw [bundle?, hmade.units] at hbundle
  split at hbundle
  · cases hbundle
  · exact hbundle

/-- The operations of a block wait for earlier units once it is lowered. -/
theorem forward_lowerBlock {l : Lowering} (horder : CreatedInOrder program basic l.graph)
    (h : lowerBlock program (start basic.id entrySlot) basic now = .ok l last) :
    l.graph.Forward := by
  obtain ⟨⟨entered, entry⟩, henter, h⟩ := Step.lift_bind_eq_ok.mp h
  obtain ⟨ops, hops, h⟩ := Step.lift_bind_eq_ok.mp h
  obtain ⟨⟨made, created⟩, now₁, hcreate, h⟩ := Step.bind_eq_ok.mp h
  obtain ⟨attached, hattach, h⟩ := Step.lift_bind_eq_ok.mp h
  obtain ⟨rfl, _⟩ := Step.pure_eq_ok.mp (Step.note_bind _ _ _ ▸ h)
  have hstart := (OfBlock.start basic.id entrySlot).toWellFormed
  have hlead : (Graph.start basic.id entrySlot).Leads (.entry basic.id) 0 :=
    leads_start.mpr ⟨rfl, rfl⟩
  obtain ⟨hentered, block, hentry⟩ := created_enter hstart (held_start _ _) hlead henter
  obtain ⟨hcreated, _, _, hleads⟩ :=
    created_createOps hentered (fun op hop => (mem_unitOrder hops).mp hop) hcreate
  have hmade : Attaching program basic (Graph.start basic.id entrySlot) made created entry :=
    ⟨hcreated, block, hleads hentry⟩
  have hbare := (hmade.attachUnits hattach).1.bare
  rw [enter_start] at henter
  cases henter
  refine forward_attachUnits hcreated.toListed ?_ (fun hmem => ?_)
    (horder.of_same (fun op => congrFun (holder?_of_bare_eq hbare).symm _)
      (leads_iff_of_bare_eq hbare).mpr) hattach
  · exact forward_createOps hstart (forward_start basic.id entrySlot) hcreate
  · obtain ⟨hle, ⟨unit, hunit, hop⟩, _⟩ := hcreated.made hmem
    refine ⟨?_, ⟨unit, hunit, hop⟩, hle⟩
    rcases (hcreated.fresh hle hunit).lead with hlead | ⟨op', hop', hlead, _⟩
    · cases hop.symm.trans hlead
    · cases hop.symm.trans hlead
      exact hop'

/-- Every dependency of a block that is created in order is one on an earlier unit. -/
theorem forward_buildBlock (horder : CreatedInOrder program basic g)
    (h : buildBlock program basic entrySlot now = .ok g last) : g.Forward := by
  obtain ⟨l, now', hlower, hfinish⟩ := Step.bind_eq_ok.mp h
  have hcloses := closes_finish (ofBlock_lowerBlock hlower).1.toWellFormed
    (Step.lift_eq_ok.mp hfinish).1
  exact hcloses.forward (forward_lowerBlock (horder.of_same
    (fun op => (hcloses.holder?_op op).symm) hcloses.leads_op_iff.mpr) hlower)

/-- Behind the entry, every unit of a block that is lowered stands for one of its operations, and
waits for some unit within one iteration. -/
theorem exists_op_of_lowerBlock {l : Lowering} {unit : ScheduleUnit}
    (h : lowerBlock program (start basic.id entrySlot) basic now = .ok l last)
    (hunit : l.graph.units[id]? = some unit) (hne : id ≠ l.graph.entryRoot) :
    (∃ source, l.graph.Honours id source 0) ∧ ∃ op ∈ basic.ops, unit.lead = .op op ∧
      ∃ operation, program.ops.operation op = .ok operation ∧ unit.Serves operation := by
  have hstart := OfBlock.start basic.id entrySlot
  have hlead : (Graph.start basic.id entrySlot).Leads (.entry basic.id) 0 :=
    leads_start.mpr ⟨rfl, rfl⟩
  obtain ⟨_, entry, henters, hanchors⟩ := enters_lowerBlock hstart.toWellFormed (held_start _ _)
    hlead hstart.root (fun _ => hstart.entry) h
  obtain ⟨hlowers, _, _⟩ := lowers_lowerBlock hstart.toWellFormed (held_start _ _) hlead h
  have hroot : entry = 0 := henters.root (takesEntry_start.mpr rfl)
  have hpos : (start basic.id entrySlot).graph.units.size ≤ id := Nat.pos_of_ne_zero hne
  rcases (hlowers.fresh hpos hunit).lead with hentry | hop
  · exact absurd ((henters.leads ⟨unit, hunit, hentry⟩ hpos).trans hroot) hne
  · refine ⟨?_, hop⟩
    obtain ⟨op, _, hlead, _⟩ := hop
    obtain ⟨source, hhonours, _⟩ := hanchors
      (fun hunit _ => (Nat.lt_one_iff.mp (lt_size_of_getElem? hunit)).trans hroot.symm) hpos
      (lt_size_of_getElem? hunit) ⟨unit, hunit, hlead⟩
    exact ⟨source, hhonours⟩

/-- Every data-path unit of a block waits for some unit within one iteration. -/
theorem exists_honours_of_isData (h : buildBlock program basic entrySlot now = .ok g last)
    (hdata : g.IsData id) : ∃ source, g.Honours id source 0 := by
  obtain ⟨l, now', hlower, hfinish⟩ := Step.bind_eq_ok.mp h
  have hlow := (ofBlock_lowerBlock hlower).1
  have hcloses := closes_finish hlow.toWellFormed (Step.lift_eq_ok.mp hfinish).1
  have hlt : id < l.graph.units.size := Nat.lt_of_not_le fun hge => hcloses.not_isData hge hdata
  have hne : id ≠ l.graph.entryRoot := by
    rintro rfl
    exact (ofBlock_buildBlock h).1.root.not_isData hdata
  obtain ⟨source, hhonours⟩ :=
    (exists_op_of_lowerBlock hlower (Array.getElem?_eq_getElem hlt) hne).1
  exact ⟨source, hhonours.of_bundle?_eq (hcloses.agrees.edges hlt)⟩

end Lowering

end SlotScheduling
