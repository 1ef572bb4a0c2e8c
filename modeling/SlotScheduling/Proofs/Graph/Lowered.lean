import SlotScheduling.Proofs.Graph.Created

/-!
# Lowered blocks

The units of a block are attached to what their operations depend on.  Every edge
between two operations is one that the oracle records, and none that it records for the
pair asks for more unless it spans more iterations.  So of the dependencies within an
iteration the largest latency stays, unless one that spans iterations has at least that
latency.
-/

namespace SlotScheduling

namespace Graph

variable {g g' : Graph} {target source : UnitId} {edge : DepEdge}

/-- The target waits for the source in the same iteration, at least for that many slots. -/
def Honours (g : Graph) (target source : UnitId) (latency : Nat) : Prop :=
  ∃ bundle, g.bundle? target source = some bundle ∧ bundle.edge.distance = 0 ∧
    latency ≤ bundle.edge.latency

theorem Honours.of_bundle?_eq {latency : Nat} (h : g.Honours target source latency)
    (heq : g'.bundle? target = g.bundle? target) : g'.Honours target source latency := by
  obtain ⟨bundle, hbundle, hhonours⟩ := h
  exact ⟨bundle, heq ▸ hbundle, hhonours⟩

/-- The edge between the two spans fewer iterations, or asks for no less. -/
def Covers (g : Graph) (target source : UnitId) (edge : DepEdge) : Prop :=
  ∃ bundle, g.bundle? target source = some bundle ∧
    (edge.distance ≤ bundle.edge.distance → edge.latency ≤ bundle.edge.latency)

theorem covers_addDep (hg : g.Listed) (h : g.addDep target source edge = .ok g') :
    g'.Covers target source edge := by
  obtain ⟨bundle, hjoins, hbundles⟩ := bundle?_addDep hg h
  refine ⟨bundle, by rw [hbundles, if_pos ⟨rfl, rfl⟩], fun hle => ?_⟩
  rcases hjoins with ⟨_, heq⟩ | ⟨old, _, hadd⟩
  · exact Nat.le_of_eq (congrArg DepEdge.latency heq.symm)
  · rcases EdgeBundle.addEdge_cases hadd with ⟨heq, hsame | hnot⟩ | ⟨heq, _⟩
    · exact Nat.le_of_eq (congrArg DepEdge.latency (heq.trans hsame).symm)
    · rw [heq] at hle ⊢
      exact Nat.not_lt.mp fun hlt => hnot ⟨hle, hlt⟩
    · exact Nat.le_of_eq (congrArg DepEdge.latency heq.symm)

theorem Covers.addDep (h : g.Covers target source edge) (hg : g.Listed) {user other : UnitId}
    {new : DepEdge} (hadd : g.addDep user other new = .ok g') : g'.Covers target source edge := by
  obtain ⟨old, hold, hcovers⟩ := h
  obtain ⟨bundle, hjoins, hbundles⟩ := bundle?_addDep hg hadd
  by_cases hpair : target = user ∧ source = other
  · refine ⟨bundle, by rw [hbundles, if_pos hpair], fun hle => ?_⟩
    rw [← hpair.1, ← hpair.2, hold] at hjoins
    rcases hjoins with ⟨hnone, _⟩ | ⟨old', heq, hadd'⟩
    · cases hnone
    · cases heq
      rcases EdgeBundle.addEdge_cases hadd' with ⟨heq, _⟩ | ⟨heq, hdistance, hlonger⟩
      · rw [heq] at hle ⊢
        exact hcovers hle
      · rw [heq] at hle ⊢
        exact Nat.le_trans (hcovers (Nat.le_trans hle hdistance)) (Nat.le_of_lt hlonger)
  · exact ⟨old, by rw [hbundles, if_neg hpair, hold], hcovers⟩

end Graph

namespace Lowering

open SlotScheduling.Graph

variable {program : Program} {basic : BasicBlock} {block : BlockId} {g g' start : Graph}
  {op : OpId} {created : List (OpId × UnitId)}

/-! ## Attached operands -/

/-- The source of an edge is not an operation, or the oracle records the edge. -/
def Recorded (program : Program) (g : Graph) (op : OpId) (source : UnitId) (edge : DepEdge) :
    Prop :=
  ∀ {s}, g.Leads (.op s) source → ∃ dependences dependence,
    program.oracle.dependences op = some dependences ∧ dependence ∈ dependences ∧
      dependence.source = some s ∧ edge = edgeOf dependence

/-- Units that were created are being attached to what they depend on. -/
structure Attached (program : Program) (basic : BasicBlock) (start made : Graph)
    (created : List (OpId × UnitId)) (g : Graph) : Prop extends Extended program basic start g where
  bare : g.bare = made.bare
  recorded : ∀ {op id source bundle}, (op, id) ∈ created → g.bundle? id source = some bundle →
    Recorded program made op source bundle.edge

/-- What the oracle records about one operand is kept by an edge, unless a dependency
of the same pair that spans iterations hides it. -/
def Honoured (program : Program) (made : Graph) (op : OpId) (id : UnitId)
    (dependence : Dependence) (g : Graph) : Prop :=
  ∀ ⦃dependences s source⦄, program.oracle.dependences op = some dependences →
    dependence ∈ dependences → dependence.source = some s → dependence.distance = 0 →
    made.holder? (.op s) = some source →
    (∀ other ∈ dependences, other.source = some s → 0 < other.distance →
      other.latency < dependence.latency) →
    g.Honours id source dependence.latency

/-- An edge covers what the oracle records about one operand. -/
def Covered (program : Program) (made : Graph) (op : OpId) (id : UnitId)
    (dependence : Dependence) (g : Graph) : Prop :=
  ∀ ⦃dependences s source⦄, program.oracle.dependences op = some dependences →
    dependence ∈ dependences → dependence.source = some s →
    made.holder? (.op s) = some source → g.Covers id source (edgeOf dependence)

@[simp] theorem edgeOf_distance (dependence : Dependence) :
    (edgeOf dependence).distance = dependence.distance := by
  unfold edgeOf
  split
  · rfl
  · split
    · rfl
    next hzero =>
      simp only [DepEdge.value]
      omega

@[simp] theorem edgeOf_latency (dependence : Dependence) :
    (edgeOf dependence).latency = dependence.latency := by
  unfold edgeOf
  split
  · rfl
  · split <;> rfl

section

variable {made : Graph} {id source entry : UnitId} {edge : DepEdge} {dependence : Dependence}

theorem Covered.addDep (h : Covered program made op id dependence g) (hg : g.Listed)
    {target other : UnitId} (hadd : g.addDep target other edge = .ok g') :
    Covered program made op id dependence g' :=
  fun _ _ _ hall hmem hs hholder => (h hall hmem hs hholder).addDep hg hadd

theorem Covered.attachOperand (h : Covered program made op id dependence g) (hg : g.Listed)
    {other : UnitId} {operand : Dependence}
    (hattach : attachOperand entry other g operand = .ok g') :
    Covered program made op id dependence g' := by
  unfold Lowering.attachOperand at hattach
  split at hattach <;> exact h.addDep hg hattach

theorem Attached.addDep (hg : Attached program basic start made created g)
    (hid : (op, id) ∈ created) (hcreated : ∀ {op id}, (op, id) ∈ created →
      start.units.size ≤ id ∧ made.Leads (.op op) id)
    (hedge : Recorded program made op source edge) (h : g.addDep id source edge = .ok g') :
    Attached program basic start made created g' where
  toExtended := hg.toExtended.addDep (hcreated hid).1 h
  bare := (bare_addDep h).trans hg.bare
  recorded := by
    intro other user source' bundle hmem hbundle
    obtain ⟨joined, hjoins, hbundles⟩ := bundle?_addDep hg.toListed h
    rw [hbundles] at hbundle
    split at hbundle
    next hpair =>
      obtain ⟨rfl, rfl⟩ := hpair
      cases hbundle
      obtain rfl : other = op :=
        Instr.op.inj ((hcreated hmem).2.unique (hcreated hid).2)
      rcases hjoins with ⟨_, heq⟩ | ⟨old, hold, hadd⟩
      · rw [heq]
        exact hedge
      · rcases EdgeBundle.addEdge_cases hadd with ⟨heq, _⟩ | ⟨heq, _⟩
        · rw [heq]
          exact hg.recorded hmem hold
        · rw [heq]
          exact hedge
    next => exact hg.recorded hmem hbundle

/-- An edge from the entry of a block needs no record. -/
theorem recorded_entry {block : BlockId} (hentry : made.Leads (.entry block) entry) :
    Recorded program made op entry edge := by
  intro s hleads
  cases hleads.unique hentry

/-- What attaching and anchoring units start from: the units of a block, and its entry. -/
structure Attaching (program : Program) (basic : BasicBlock) (start full : Graph)
    (created : List (OpId × UnitId)) (entry : UnitId) : Prop
    extends Created program basic start full created where
  entered : ∃ block, full.Leads (.entry block) entry

variable (hmade : Attaching program basic start made created entry)

include hmade

theorem Attaching.addDep (hg : Attached program basic start made created g)
    (hid : (op, id) ∈ created) (hedge : Recorded program made op source edge)
    (h : g.addDep id source edge = .ok g') : Attached program basic start made created g' :=
  hg.addDep hid (fun hmem => ⟨(hmade.made hmem).1, (hmade.made hmem).2.1⟩) hedge h

theorem Attaching.attachOperand (hg : Attached program basic start made created g)
    (hid : (op, id) ∈ created) {dependences : List Dependence}
    (hall : program.oracle.dependences op = some dependences)
    (hdependence : dependence ∈ dependences) (h : attachOperand entry id g dependence = .ok g') :
    Attached program basic start made created g' ∧ Covered program made op id dependence g' := by
  have hholders : g.holder? = made.holder? := holder?_of_bare_eq hg.bare
  obtain ⟨_, hentry⟩ := hmade.entered
  unfold Lowering.attachOperand at h
  split at h
  next source hsource =>
    obtain ⟨s, hs, hholder⟩ := Option.bind_eq_some_iff.mp hsource
    rw [hholders] at hholder
    have hleads := (hmade.held.holder hholder).leads
    have hrecorded : Recorded program made op source (edgeOf dependence) := by
      intro s' hleads'
      cases hleads.unique hleads'
      exact ⟨dependences, dependence, hall, hdependence, hs, rfl⟩
    refine ⟨hmade.addDep hg hid hrecorded h, ?_⟩
    intro dependences' s' source' _ _ hs' hholder'
    obtain rfl := Option.some.inj (hs.symm.trans hs')
    obtain rfl := Option.some.inj (hholder.symm.trans hholder')
    exact covers_addDep hg.toListed h
  next hnone =>
    refine ⟨hmade.addDep hg hid (recorded_entry hentry) h, ?_⟩
    intro _ s source _ _ hs hholder
    rw [hs, Option.bind_some, hholders, hholder] at hnone
    cases hnone

theorem Attaching.attachOperands (hg : Attached program basic start made created g)
    (hid : (op, id) ∈ created) (h : attachOperands program entry g (op, id) = .ok g') :
    Attached program basic start made created g' ∧
      ∀ dependence, Covered program made op id dependence g' := by
  unfold Lowering.attachOperands at h
  split at h
  · cases h
  next dependences hall =>
    obtain ⟨hattached, hcovered⟩ := Checked.foldlM_forall
      (P := Attached program basic start made created)
      (Q := fun dependence g => Covered program made op id dependence g)
      (fun dependence hdependence before after hbefore hround => by
        obtain ⟨hafter, hnew⟩ := hmade.attachOperand hbefore hid hall hdependence hround
        exact ⟨hafter, hnew, fun other hother => hother.attachOperand hbefore.toListed hround⟩)
      hg h
    refine ⟨hattached, fun dependence dependences' s source hall' hmem => ?_⟩
    obtain rfl := Option.some.inj (hall.symm.trans hall')
    exact hcovered dependence hmem hall hmem

theorem Attaching.anchorUnit (hg : Attached program basic start made created g)
    (hid : (op, id) ∈ created) {block : BlockId}
    (h : anchorUnit entry block g id = .ok g') :
    Attached program basic start made created g' ∧
      (g' = g ∨ g.addDep id entry (.value 0) = .ok g') := by
  obtain ⟨_, hentry⟩ := hmade.entered
  obtain ⟨_, _, h⟩ := Checked.bind_eq_ok.mp h
  obtain ⟨anchored, _, h⟩ := Checked.bind_eq_ok.mp h
  split at h
  · cases h
    exact ⟨hg, Or.inl rfl⟩
  · exact ⟨hmade.addDep hg hid (recorded_entry hentry) h, Or.inr h⟩

theorem Attaching.covered_attachOperands {other : UnitId} {user : OpId}
    (hg : Attached program basic start made created g) (hid : (user, other) ∈ created)
    (h : Lowering.attachOperands program entry g (user, other) = .ok g')
    (hcovered : Covered program made op id dependence g) :
    Covered program made op id dependence g' := by
  unfold Lowering.attachOperands at h
  split at h
  · cases h
  next dependences hall =>
    exact (Checked.foldlM_induction
      (P := fun g => Attached program basic start made created g ∧
        Covered program made op id dependence g)
      (fun operand hoperand before after hbefore hround =>
        ⟨(hmade.attachOperand hbefore.1 hid hall hoperand hround).1,
          hbefore.2.attachOperand hbefore.1.toListed hround⟩) ⟨hg, hcovered⟩ h).2

theorem Attaching.attachUnits {block : BlockId}
    (h : attachUnits program entry block created made = .ok g') :
    Attached program basic start made created g' ∧
      ∀ {op id}, (op, id) ∈ created → ∀ dependence, Covered program made op id dependence g' := by
  have hstart : Attached program basic start made created made := by
    refine ⟨hmade.toExtended, rfl, fun hmem hbundle => ?_⟩
    rw [(hmade.made hmem).2.2] at hbundle
    cases hbundle
  obtain ⟨middle, hmiddle, h⟩ := Checked.bind_eq_ok.mp h
  obtain ⟨hattached, hcovered⟩ := Checked.foldlM_forall
    (P := Attached program basic start made created)
    (Q := fun pair g => ∀ dependence, Covered program made pair.1 pair.2 dependence g)
    (fun pair hpair before after hbefore hround => by
      obtain ⟨hafter, hnew⟩ := hmade.attachOperands hbefore hpair hround
      exact ⟨hafter, hnew, fun other hother dependence =>
        hmade.covered_attachOperands hbefore hpair hround (hother dependence)⟩)
    hstart hmiddle
  refine Checked.foldlM_induction (P := fun g => Attached program basic start made created g ∧
    ∀ {op id}, (op, id) ∈ created → ∀ dependence, Covered program made op id dependence g)
    (fun id hid before after hbefore hround => ?_)
    ⟨hattached, fun hmem dependence => hcovered _ hmem dependence⟩ h
  obtain ⟨⟨op, id⟩, hmem, rfl⟩ := List.mem_map.mp hid
  obtain ⟨hafter, hcases⟩ := hmade.anchorUnit hbefore.1 hmem hround
  refine ⟨hafter, fun hother dependence => ?_⟩
  rcases hcases with rfl | hadd
  · exact hbefore.2 hother dependence
  · exact (hbefore.2 hother dependence).addDep hbefore.1.toListed hadd

end

/-! ## Lowered blocks -/

/-- The second graph is the first one with a block lowered into it. -/
structure Lowers (program : Program) (basic : BasicBlock) (g g' : Graph) : Prop
    extends Extended program basic g g' where
  loop : g'.loopOp = g.loopOp ∨ LoopsBack program basic g
  ends : ∀ {block id}, g'.terminator? block = some id → g.terminator? block = some id ∨
    block = basic.id ∧ g.units.size ≤ id ∧ g'.IsControl id
  holder : ∀ {op}, op ∈ basic.ops → ∃ id, g.units.size ≤ id ∧ g'.holder? (.op op) = some id
  recorded : ∀ {op id source bundle}, op ∈ basic.ops → g'.holder? (.op op) = some id →
    g'.bundle? id source = some bundle → Recorded program g' op source bundle.edge
  covered : ∀ {op id}, op ∈ basic.ops → g'.holder? (.op op) = some id →
    ∀ dependence, Covered program g' op id dependence g'

theorem Lowers.honoured (h : Lowers program basic g g') {op : OpId} {id : UnitId}
    (hop : op ∈ basic.ops) (hid : g'.holder? (.op op) = some id) (dependence : Dependence) :
    Honoured program g' op id dependence g' := by
  intro dependences s source hall hmem hs hzero hholder hhidden
  obtain ⟨bundle, hbundle, hcovers⟩ := h.covered hop hid dependence hall hmem hs hholder
  rw [edgeOf_distance, edgeOf_latency, hzero] at hcovers
  have hlatency := hcovers (Nat.zero_le _)
  refine ⟨bundle, hbundle, ?_, hlatency⟩
  obtain ⟨_, other, hall', hother, hs', heq⟩ :=
    h.recorded hop hid hbundle (h.held.holder hholder).leads
  obtain rfl := Option.some.inj (hall.symm.trans hall')
  rw [heq, edgeOf_distance]
  rw [heq, edgeOf_latency] at hlatency
  by_contra hpos
  exact absurd hlatency (Nat.not_le.mpr (hhidden other hother hs' (Nat.pos_of_ne_zero hpos)))

theorem lowers_lowerBlock {σ : Type} {now last : Journaled σ} {l l' : Lowering}
    (hg : l.graph.WellFormed) (hheld : l.graph.Held)
    (hroot : l.graph.Leads (.entry l.graph.entryBlock) l.graph.entryRoot)
    (h : lowerBlock program l basic now = .ok l' last) :
    Lowers program basic l.graph l'.graph ∧ l'.entryTaken = true ∧ l'.lastBlock = basic.id := by
  obtain ⟨⟨entered, entry⟩, henter, h⟩ := Step.lift_bind_eq_ok.mp h
  obtain ⟨ops, hops, h⟩ := Step.lift_bind_eq_ok.mp h
  obtain ⟨⟨made, created⟩, now₁, hcreate, h⟩ := Step.bind_eq_ok.mp h
  obtain ⟨attached, hattach, h⟩ := Step.lift_bind_eq_ok.mp h
  obtain ⟨rfl, _⟩ := Step.pure_eq_ok.mp (Step.note_bind _ _ _ ▸ h)
  obtain ⟨hentered, block, hentry⟩ := created_enter hg hheld hroot henter
  obtain ⟨hcreated, _, hall, hleads⟩ :=
    created_createOps hentered (fun op hop => (mem_unitOrder hops).mp hop) hcreate
  have hmade : Attaching program basic l.graph made created entry :=
    ⟨hcreated, block, hleads hentry⟩
  obtain ⟨hattached, hcovered⟩ := hmade.attachUnits hattach
  have hbare := hattached.bare
  have hholders : attached.holder? = made.holder? := holder?_of_bare_eq hbare
  -- A unit that holds an operation of the block is one of those just made for it.
  have hholds : ∀ {op id}, op ∈ basic.ops → attached.holder? (.op op) = some id →
      (op, id) ∈ created := by
    intro op id hop hholder
    obtain ⟨other, hmem⟩ := hall op ((mem_unitOrder hops).mpr hop)
    obtain ⟨holder, hmem', hholder'⟩ := hcreated.holder hmem
    rw [hholders, hholder', Option.some_inj] at hholder
    exact hholder ▸ hmem'
  refine ⟨⟨hattached.toExtended, ?_, fun hend => ?_, fun hop => ?_, fun hop hholder hbundle => ?_,
    fun hop hholder dependence => ?_⟩, rfl, rfl⟩
  · have hloop : attached.loopOp = made.loopOp := by
      have hloop := congrArg Graph.loopOp hbare
      exact hloop
    exact hloop ▸ hcreated.loop
  · have hends : attached.terminator? = made.terminator? := by
      have hends := congrArg Graph.terminator? hbare
      exact hends
    exact (hcreated.ends (hends ▸ hend)).imp_right fun hnew =>
      ⟨hnew.1, hnew.2.1, (isControl_iff_of_bare_eq hbare).mpr hnew.2.2⟩
  · obtain ⟨id, hmem⟩ := hall _ ((mem_unitOrder hops).mpr hop)
    obtain ⟨holder, hmem', hholder⟩ := hcreated.holder hmem
    exact ⟨holder, (hcreated.made hmem').1, by rw [hholders, hholder]⟩
  · intro s hleads
    exact hattached.recorded (hholds hop hholder) hbundle ((leads_iff_of_bare_eq hbare).mp hleads)
  · intro dependences s source hdependences hdependence hs hsource
    rw [hholders] at hsource
    exact hcovered (hholds hop hholder) dependence hdependences hdependence hs hsource

end Lowering

end SlotScheduling
