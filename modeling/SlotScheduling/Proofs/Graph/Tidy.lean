import SlotScheduling.Proofs.Graph.Built
import SlotScheduling.Proofs.Graph.Checks

/-!
# Tidy graphs

A unit has one bundle of edges for each unit that it depends on, and lowering a block
adds no edge of fixed timing.  In the graph of a single block nothing leads to the
entry or away from the exit, and the exit waits for all moves.
-/

namespace SlotScheduling

theorem Table.get?_of_mem_entries {κ ν : Type} [DecidableEq κ] {table : Table κ ν}
    (hnodup : table.keys.Nodup) {entry : κ × ν} (hmem : entry ∈ table.entries) :
    table.get? entry.1 = some entry.2 := by
  obtain ⟨value, hvalue⟩ := exists_get?_of_mem_keys (List.mem_map_of_mem hmem)
  have hsame : (entry.1, value) = entry :=
    List.inj_on_of_nodup_map hnodup (mem_entries_of_get?_eq_some hvalue) hmem rfl
  rw [hvalue, ← hsame]

/-- A filter that ends well has tested the whole list. -/
theorem Checked.exists_of_filterM {α : Type} {list results : List α} {test : α → Checked Bool}
    (h : list.filterM test = .ok results) {a : α} (ha : a ∈ list) :
    ∃ passes, test a = .ok passes := by
  have hloop : ∀ {list found results : List α}, list.filterAuxM test found = .ok results →
      a ∈ list → ∃ passes, test a = .ok passes := by
    intro list
    induction list with
    | nil => exact fun _ hmem => absurd hmem List.not_mem_nil
    | cons first rest ih =>
        intro found results h hmem
        obtain ⟨passes, hfirst, h⟩ := Checked.bind_eq_ok.mp h
        rcases List.mem_cons.mp hmem with rfl | hmem
        · exact ⟨passes, hfirst⟩
        · exact ih h hmem
  obtain ⟨_, hreversed, _⟩ := Checked.bind_eq_ok.mp h
  exact hloop hreversed ha

theorem Checked.exists_filterM {α : Type} {list : List α} {test : α → Checked Bool}
    (h : ∀ a ∈ list, ∃ passes, test a = .ok passes) :
    ∃ results, list.filterM test = .ok results := by
  have hloop : ∀ {list found : List α}, (∀ a ∈ list, ∃ passes, test a = .ok passes) →
      ∃ results, list.filterAuxM test found = .ok results := by
    intro list
    induction list with
    | nil => exact fun {found} _ => ⟨found, rfl⟩
    | cons first rest ih =>
        intro found h
        obtain ⟨⟨passes, hfirst⟩, hrest⟩ := List.forall_mem_cons.mp h
        rw [List.filterAuxM, hfirst, ok_bind]
        exact ih hrest
  obtain ⟨reversed, hreversed⟩ := hloop h
  exact ⟨reversed.reverse, by rw [List.filterM, hreversed]; rfl⟩

/-- The unit has one bundle for each source, and no edge of fixed timing. -/
structure ScheduleUnit.Tidy (unit : ScheduleUnit) : Prop where
  nodup : unit.deps.keys.Nodup
  loose : ∀ dep ∈ unit.deps.entries, dep.2.edge.isFixedTiming = false

theorem EdgeBundle.loose_addEdge {old bundle : EdgeBundle} {new : DepEdge}
    (hold : old.edge.isFixedTiming = false) (hnew : new.isFixedTiming = false)
    (h : old.addEdge new = .ok bundle) : bundle.edge.isFixedTiming = false := by
  rcases EdgeBundle.addEdge_cases h with ⟨heq, _⟩ | ⟨heq, _⟩
  · rw [heq, hold]
  · rw [heq, hnew]

namespace Graph

/-- All units are tidy, and the entry is not the loop operation. -/
structure Tidy (g : Graph) : Prop where
  tidy : ∀ {id : UnitId} {unit : ScheduleUnit}, g.units[id]? = some unit → unit.Tidy
  entryNoLoop : g.loopOp ≠ some g.entryRoot

variable {g g' : Graph} {id target source : UnitId} {block : BlockId} {edge : DepEdge}
  {entrySlot : Nat}

/-- A unit that another one depends on is part of the graph. -/
theorem WellFormed.exists_source (hg : g.WellFormed) {unit : ScheduleUnit}
    (hunit : g.units[id]? = some unit) {dep : UnitId × EdgeBundle}
    (hdep : dep ∈ unit.deps.entries) : ∃ producer, g.units[dep.1]? = some producer := by
  have hdepends : g.DependsOn id dep.1 :=
    ⟨unit, hunit, List.mem_map_of_mem hdep⟩
  obtain ⟨producer, hproducer, _⟩ := hg.linked.mp hdepends
  exact ⟨producer, hproducer⟩

theorem lt_size_of_bundle? (hg : g.WellFormed) {bundle : EdgeBundle}
    (h : g.bundle? target source = some bundle) :
    target < g.units.size ∧ source < g.units.size := by
  obtain ⟨unit, hunit, hdep⟩ := exists_of_bundle? h
  obtain ⟨producer, hproducer⟩ := hg.exists_source hunit (Table.mem_entries_of_get?_eq_some hdep)
  exact ⟨lt_size_of_getElem? hunit, lt_size_of_getElem? hproducer⟩

theorem Tidy.loose (hg : g.Tidy) {bundle : EdgeBundle}
    (h : g.bundle? target source = some bundle) : bundle.edge.isFixedTiming = false := by
  obtain ⟨unit, hunit, hdep⟩ := exists_of_bundle? h
  exact (hg.tidy hunit).loose _ (Table.mem_entries_of_get?_eq_some hdep)

theorem Tidy.createUnit (hg : g.Tidy) {lead : Instr} {funcUnit : FuncUnit} {control : Bool}
    {latency : Nat} : (g.createUnit lead block funcUnit control latency).Tidy where
  tidy := by
    intro id unit hunit
    rw [getElem?_createUnit] at hunit
    split at hunit
    · cases hunit
      exact ⟨List.nodup_nil, fun dep hdep => absurd hdep List.not_mem_nil⟩
    · exact hg.tidy hunit
  entryNoLoop := hg.entryNoLoop

theorem Tidy.of_changeUnit (hg : g.Tidy) {change : ScheduleUnit → ScheduleUnit}
    (h : g.changeUnit id change = .ok g')
    (hchange : ∀ {unit}, g.units[id]? = some unit → (change unit).Tidy) : g'.Tidy where
  tidy := forall_changeUnit h hg.tidy hchange
  entryNoLoop := by
    obtain ⟨_, rfl⟩ := changeUnit_eq_ok.mp h
    exact hg.entryNoLoop

theorem Tidy.changeUnit (hg : g.Tidy) {change : ScheduleUnit → ScheduleUnit}
    (h : g.changeUnit id change = .ok g') (hchange : ∀ unit, (change unit).deps = unit.deps) :
    g'.Tidy :=
  hg.of_changeUnit h fun {unit} hunit =>
    ⟨hchange unit ▸ (hg.tidy hunit).nodup, hchange unit ▸ (hg.tidy hunit).loose⟩

theorem Tidy.addDep (hg : g.Tidy) (hedge : edge.isFixedTiming = false)
    (h : g.addDep target source edge = .ok g') : g'.Tidy := by
  obtain ⟨producer, consumer, _, hconsumer, _, hcases⟩ := addDep_eq_ok h
  rcases hcases with ⟨old, bundle, hold, hbundle, hchange⟩ | ⟨_, middle, hmiddle, hend⟩
  · refine hg.of_changeUnit hchange fun {unit} hunit => ?_
    obtain rfl : unit = consumer := Option.some.inj (hunit.symm.trans hconsumer)
    have hkeys := Table.keys_modify unit.deps source fun _ => bundle
    refine ⟨hkeys ▸ (hg.tidy hunit).nodup, fun dep hdep => ?_⟩
    rcases Table.mem_entries_modify hdep with hdep | ⟨_, _, rfl⟩
    · exact (hg.tidy hunit).loose dep hdep
    · exact EdgeBundle.loose_addEdge
        ((hg.tidy hunit).loose _ (Table.mem_entries_of_get?_eq_some hold)) hedge hbundle
  · have hmiddle : middle.Tidy := hg.of_changeUnit hmiddle fun {unit} hunit => by
      refine ⟨Table.nodup_keys_insert (hg.tidy hunit).nodup, fun dep hdep => ?_⟩
      rcases Table.mem_entries_insert.mp hdep with rfl | ⟨hdep, _⟩
      · exact hedge
      · exact (hg.tidy hunit).loose dep hdep
    exact hmiddle.changeUnit hend fun _ => rfl

theorem tidy_start (block : BlockId) (entrySlot : Nat) : (Graph.start block entrySlot).Tidy :=
  Tidy.createUnit ⟨fun hunit => by simp at hunit, by simp⟩

end Graph

namespace Lowering

open SlotScheduling.Graph

variable {σ : Type} {program : Program} {basic : BasicBlock} {g g' low : Graph} {block : BlockId}
  {entrySlot : Nat} {entry id : UnitId} {now last : Journaled σ}

theorem isFixedTiming_edgeOf (dependence : Dependence) :
    (edgeOf dependence).isFixedTiming = false := by
  unfold edgeOf
  split
  · rfl
  · split <;> rfl

theorem tidy_createOp (hg : g.Tidy) (hpos : 0 < g.units.size) {op : OpId} {loops : Bool}
    (h : createOp program block op g = .ok (g', loops)) : g'.Tidy := by
  obtain ⟨operation, _, h⟩ := Checked.bind_eq_ok.mp h
  obtain ⟨changed, hchanged, h⟩ := Checked.bind_eq_ok.mp h
  have hchanged : changed.Tidy := hg.createUnit.changeUnit hchanged fun _ => rfl
  split at h
  · obtain ⟨ended, hended, h⟩ := Checked.bind_eq_ok.mp h
    obtain ⟨⟨_, last⟩, hlast, h⟩ := Checked.bind_eq_ok.mp h
    cases h
    obtain ⟨middle, hmiddle, hended⟩ := Checked.bind_eq_ok.mp hended
    obtain rfl := Checked.pure_eq_ok.mp hended
    have hmiddle : middle.Tidy := hchanged.changeUnit hmiddle fun _ => rfl
    obtain ⟨unit, _, hlast⟩ := Checked.bind_eq_ok.mp hlast
    split at hlast <;> cases hlast
    · exact ⟨hmiddle.tidy, fun heq => (Nat.ne_of_gt hpos) (Option.some.inj heq)⟩
    · exact ⟨hmiddle.tidy, hmiddle.entryNoLoop⟩
  · cases h
    exact hchanged

theorem tidy_createOps {ops : List OpId} {made : Graph} {created : List (OpId × UnitId)}
    (hblock : g.OfBlock block entrySlot) (hg : g.Tidy)
    (h : createOps program block ops g now = .ok (made, created) last) : made.Tidy := by
  refine (Step.foldlM_induction (P := fun (result : Graph × List (OpId × UnitId)) _ =>
    result.1.OfBlock block entrySlot ∧ result.1.Tidy)
    (fun op _ before after now last hbefore hround => ?_) ⟨hblock, hg⟩ h).2
  obtain ⟨loops, hcreate, _⟩ := createNext_eq_ok hround
  exact ⟨ofBlock_createOp hbefore.1 hcreate,
    tidy_createOp hbefore.2 hbefore.1.root.lt_size hcreate⟩

theorem tidy_attachOperand (hg : g.Tidy) {dependence : Dependence}
    (h : attachOperand entry id g dependence = .ok g') : g'.Tidy := by
  unfold attachOperand at h
  split at h
  · exact hg.addDep (isFixedTiming_edgeOf _) h
  · exact hg.addDep rfl h

theorem tidy_attachUnits (hg : g.Tidy) {created : List (OpId × UnitId)}
    (h : attachUnits program entry block created g = .ok g') : g'.Tidy := by
  obtain ⟨middle, hmiddle, h⟩ := Checked.bind_eq_ok.mp h
  have hmiddle : middle.Tidy :=
    Checked.foldlM_induction (P := Graph.Tidy) (fun _ _ before after hbefore hround => by
      unfold attachOperands at hround
      split at hround
      · cases hround
      · exact Checked.foldlM_induction (P := Graph.Tidy)
          (fun _ _ _ _ hbefore hround => tidy_attachOperand hbefore hround) hbefore hround)
      hg hmiddle
  refine Checked.foldlM_induction (P := Graph.Tidy) (fun _ _ before after hbefore hround => ?_)
    hmiddle h
  obtain ⟨_, _, hround⟩ := Checked.bind_eq_ok.mp hround
  obtain ⟨anchored, _, hround⟩ := Checked.bind_eq_ok.mp hround
  split at hround
  · cases hround
    exact hbefore
  · exact hbefore.addDep rfl hround

theorem tidy_lowerBlock {l : Lowering}
    (h : lowerBlock program (start basic.id entrySlot) basic now = .ok l last) : l.graph.Tidy := by
  obtain ⟨⟨entered, entry⟩, henter, h⟩ := Step.lift_bind_eq_ok.mp h
  obtain ⟨ops, _, h⟩ := Step.lift_bind_eq_ok.mp h
  obtain ⟨⟨made, created⟩, now₁, hcreate, h⟩ := Step.bind_eq_ok.mp h
  obtain ⟨attached, hattach, h⟩ := Step.lift_bind_eq_ok.mp h
  obtain ⟨rfl, _⟩ := Step.pure_eq_ok.mp (Step.note_bind _ _ _ ▸ h)
  rw [enter_start] at henter
  cases henter
  have hmade : made.Tidy :=
    tidy_createOps (OfBlock.start basic.id entrySlot) (tidy_start basic.id entrySlot) hcreate
  exact tidy_attachUnits hmade hattach

end Lowering

/-- The unit is bound to no function unit that others share, is no move and has no slot. -/
structure ScheduleUnit.IsPlain (unit : ScheduleUnit) : Prop where
  trivial : unit.funcUnit.isTrivial = true
  phi : unit.phi = false
  slot : unit.slot = none

theorem ScheduleUnit.IsPlain.of_bare_eq {unit unit' : ScheduleUnit}
    (h : unit.bare = unit'.bare) (hplain : unit'.IsPlain) : unit.IsPlain := by
  have hfuncUnit := congrArg (fun unit => unit.funcUnit.isTrivial) h
  have hphi := congrArg ScheduleUnit.phi h
  have hslot := congrArg ScheduleUnit.slot h
  exact ⟨hfuncUnit.trans hplain.trivial, hphi.trans hplain.phi, hslot.trans hplain.slot⟩

theorem ScheduleUnit.isPlain_new {id : UnitId} {lead : Instr} {block : BlockId} {latency : Nat} :
    ScheduleUnit.IsPlain { id, lead, block, funcUnit := .trivial, control := true, latency } :=
  ⟨rfl, rfl, rfl⟩

namespace Graph

/-- The graph of a single block, with nothing before its entry or behind its exit. -/
structure Enclosed (block : BlockId) (entrySlot : Nat) (exit : UnitId) (g : Graph) : Prop
    extends OfBlock block entrySlot g, Tidy g where
  exitRoot : g.exitRoot = some exit
  exitControl : g.IsControl exit
  last : exit + 1 = g.units.size
  loopOp : ∀ {id}, g.loopOp = some id → id < exit
  first : ∀ {source}, ¬g.DependsOn g.entryRoot source
  final : ∀ {user}, ¬g.DependsOn user exit
  waits : ∀ {source bundle}, g.bundle? exit source = some bundle →
    g.IsControl source ∧ bundle.edge.distance = 0
  moves : ∀ {id : UnitId} {unit : ScheduleUnit}, g.units[id]? = some unit →
    unit.control = true → unit.phi = true → g.DependsOn exit id
  used : ∀ {id}, g.IsControl id → id ≠ exit → ∃ user, g.DependsOn user id
  entryUnit : ∀ {unit}, g.units[g.entryRoot]? = some unit →
    unit.funcUnit.isTrivial = true ∧ unit.phi = false
  exitUnit : ∀ {unit}, g.units[exit]? = some unit →
    unit.funcUnit.isTrivial = true ∧ unit.phi = false

end Graph

namespace Lowering

open SlotScheduling.Graph

variable {σ : Type} {program : Program} {basic : BasicBlock} {g g' low : Graph} {block : BlockId}
  {entrySlot : Nat} {entry id : UnitId} {now last : Journaled σ}

/-- The exit of a block waits for the moves among its control units. -/
theorem exit_finish {l : Lowering} (hg : l.graph.WellFormed) (htidy : l.graph.Tidy)
    (h : l.finish = .ok g) : g.Tidy ∧ g.verify = .ok ⟨⟩ ∧
      ∀ {id : UnitId} {unit : ScheduleUnit}, l.graph.units[id]? = some unit →
        unit.control = true → unit.phi = true → g.DependsOn l.graph.units.size id := by
  obtain ⟨sinks, hsinks, h⟩ := Checked.bind_eq_ok.mp h
  obtain ⟨attached, hattach, h⟩ := Checked.bind_eq_ok.mp h
  obtain ⟨_, hverify, h⟩ := Checked.bind_eq_ok.mp h
  obtain rfl := Checked.pure_eq_ok.mp h
  obtain ⟨⟨_, htidy⟩, hall⟩ := Checked.foldlM_forall
    (P := fun now => now.Listed ∧ now.Tidy)
    (Q := fun sink now => now.DependsOn l.graph.units.size sink)
    (fun sink hsink before after hbefore hround => by
      obtain ⟨hlisted, htidy⟩ := hbefore
      obtain ⟨unit, _, hround⟩ := Checked.bind_eq_ok.mp hround
      obtain ⟨bundle, _, hbundles⟩ := bundle?_addDep hlisted hround
      refine ⟨⟨hlisted.of_bare_eq (bare_addDep hround), htidy.addDep rfl hround⟩, ?_, ?_⟩
      · exact dependsOn_iff_bundle?.mpr ⟨bundle, by rw [hbundles, if_pos ⟨rfl, rfl⟩]⟩
      · intro other hother
        obtain ⟨bundle', hbundle'⟩ := dependsOn_iff_bundle?.mp hother
        rw [dependsOn_iff_bundle?, hbundles]
        split
        · exact ⟨bundle, rfl⟩
        · exact ⟨bundle', hbundle'⟩)
    ⟨(closes_createExit hg l.lastBlock).toListed, htidy.createUnit.tidy, htidy.entryNoLoop⟩ hattach
  refine ⟨htidy, hverify, fun {id unit} hunit hcontrol hphi => hall id ?_⟩
  refine (Checked.mem_filterM hsinks).mpr ⟨hg.control.mpr ⟨unit, hunit, hcontrol⟩, ?_⟩
  rw [unit_eq_ok.mpr hunit, Checked.ok_bind, hphi, Bool.or_true]
  rfl

theorem exists_dependsOn (hg : g.WellFormed) {unit : ScheduleUnit}
    (hunit : g.units[id]? = some unit) : (∃ user, g.DependsOn user id) ↔ unit.uses.size ≠ 0 := by
  constructor
  · rintro ⟨user, hdepends⟩ hnone
    obtain ⟨unit', hunit', huser⟩ := hg.linked.mp hdepends
    obtain rfl := Option.some.inj (hunit.symm.trans hunit')
    have hempty : unit.uses.toList = [] := List.length_eq_zero_iff.mp hnone
    have hmem : user ∈ unit.uses.toList := huser
    rw [hempty] at hmem
    exact List.not_mem_nil hmem
  · intro hsome
    obtain ⟨user, huser⟩ := List.exists_mem_of_length_pos (Nat.pos_of_ne_zero hsome)
    exact ⟨user, hg.linked.mpr ⟨unit, hunit, huser⟩⟩

/-- A graph that passes its checks has nothing before its entry or behind its exit, and
something waits for every other control unit without a slot. -/
theorem verify_eq_ok (hg : g.WellFormed) (h : g.verify = .ok ⟨⟩) :
    (∀ {source}, ¬g.DependsOn g.entryRoot source) ∧
      (∀ {exit user}, g.exitRoot = some exit → ¬g.DependsOn user exit) ∧
      ∀ {id : UnitId} {unit : ScheduleUnit}, g.units[id]? = some unit → unit.control = true →
        unit.slot = none → some id ≠ g.exitRoot → ∃ user, g.DependsOn user id := by
  obtain ⟨hentry, hexits, _, hunits⟩ := verify_eq_ok_iff.mp h
  refine ⟨(verifyEntry_eq_ok_iff.mp hentry).2 _, fun {exit user} hroot hdepends => ?_, ?_⟩
  · exact (verifyExit_eq_ok_iff.mp hexits exit hroot).2 user (hg.linked.mp hdepends)
  · intro id unit hunit hcontrol hslot hne
    have hverified := hunits id (hg.control.mpr ⟨unit, hunit, hcontrol⟩)
    obtain ⟨unit', hunit', hverified⟩ := Checked.bind_eq_ok.mp hverified
    obtain rfl := Option.some.inj (hunit.symm.trans (unit_eq_ok.mp hunit'))
    obtain ⟨anchored, _, hverified⟩ := Checked.bind_eq_ok.mp hverified
    refine (exists_dependsOn hg hunit).mpr fun hnone => ?_
    rw [if_pos ⟨hslot, hnone, hne⟩] at hverified
    cases hverified

/-- Every control unit of a graph that passes its checks depends on a unit of its block, unless it
is an entry, has a slot or is frozen. -/
theorem exists_source_of_verify (hg : g.WellFormed) (h : g.verify = .ok ⟨⟩) {unit : ScheduleUnit}
    (hunit : g.units[id]? = some unit) (hcontrol : unit.control = true) (hslot : unit.slot = none)
    (hfixed : unit.fixedTiming = false) (hentry : unit.lead.isEntry = false) :
    ∃ (source : UnitId) (producer : ScheduleUnit), g.DependsOn id source ∧
      g.units[source]? = some producer ∧ producer.block = unit.block := by
  obtain ⟨_, _, _, hunits⟩ := verify_eq_ok_iff.mp h
  have hverified := hunits id (hg.control.mpr ⟨unit, hunit, hcontrol⟩)
  obtain ⟨unit', hunit', hverified⟩ := Checked.bind_eq_ok.mp hverified
  obtain rfl := Option.some.inj (hunit.symm.trans (unit_eq_ok.mp hunit'))
  obtain ⟨anchored, hfold, hverified⟩ := Checked.bind_eq_ok.mp hverified
  have hanchored : anchored = true := by
    by_contra hnot
    have hfloats : unit.slot = none ∧ unit.fixedTiming = false ∧ anchored = false :=
      ⟨hslot, hfixed, Bool.eq_false_iff.mpr hnot⟩
    simp only [if_pos hfloats] at hverified
    split at hverified <;> cases hverified
  refine Checked.foldlM_induction (P := fun anchored => anchored = true →
    ∃ (source : UnitId) (producer : ScheduleUnit), g.DependsOn id source ∧
      g.units[source]? = some producer ∧ producer.block = unit.block)
    (fun dep hdep before after hbefore hround htrue => ?_) (fun htrue => ?_) hfold hanchored
  · obtain ⟨here, hhere, hround⟩ := Checked.bind_eq_ok.mp hround
    obtain rfl := Checked.pure_eq_ok.mp hround
    cases here with
    | false => exact hbefore htrue
    | true =>
        obtain ⟨_, producer, hproducer, _, hblock⟩ := verifyDep_eq_ok.mp hhere
        exact ⟨dep.1, producer, ⟨unit, hunit, List.mem_map_of_mem hdep⟩, hproducer,
          of_decide_eq_true hblock⟩
  · rw [hentry] at htrue
    cases htrue

theorem entry_of_lowerBlock {l : Lowering} {unit : ScheduleUnit}
    (h : lowerBlock program (start basic.id entrySlot) basic now = .ok l last)
    (hunit : l.graph.units[l.graph.entryRoot]? = some unit) :
    unit.IsPlain ∧ unit.lead = .entry basic.id := by
  have hroot : l.graph.entryRoot < (Graph.start basic.id entrySlot).units.size := Nat.one_pos
  obtain ⟨first, hfirst, hbare⟩ := (lowers_start h).1.agrees.exists_unit hroot hunit
  rw [getElem?_start] at hfirst
  cases hfirst
  exact ⟨.of_bare_eq hbare ScheduleUnit.isPlain_new, (congrArg ScheduleUnit.lead hbare :)⟩

/-- A block that is built on its own has one entry and one exit. -/
theorem enclosed_buildBlock (h : buildBlock program basic entrySlot now = .ok g last) :
    ∃ exit, Enclosed basic.id entrySlot exit g := by
  obtain ⟨hblock, _⟩ := ofBlock_buildBlock h
  obtain ⟨l, now', hlower, hfinish⟩ := Step.bind_eq_ok.mp h
  have hfinish := (Step.lift_eq_ok.mp hfinish).1
  obtain ⟨hlowers, _⟩ := lowers_start hlower
  have hcloses := closes_finish hlowers.toWellFormed hfinish
  have hlow := (ofBlock_lowerBlock hlower).1
  obtain ⟨htidy, hverify, hmoves⟩ :=
    exit_finish hlowers.toWellFormed (tidy_lowerBlock hlower) hfinish
  obtain ⟨hfirst, hfinal, hused⟩ := verify_eq_ok hblock.toWellFormed hverify
  have hexit : ∀ {unit}, g.units[l.graph.units.size]? = some unit → unit.IsPlain := by
    intro unit hunit
    obtain ⟨hlt, _⟩ | ⟨_, hbare⟩ := hcloses.unit_cases hunit
    · exact absurd hlt (Nat.lt_irrefl _)
    · exact .of_bare_eq (hbare.trans rfl) ScheduleUnit.isPlain_new
  have hentry : ∀ {unit}, g.units[g.entryRoot]? = some unit → unit.IsPlain := by
    intro unit hunit
    obtain ⟨_, unit', hunit', hbare⟩ | ⟨heq, _⟩ := hcloses.unit_cases hunit
    · exact .of_bare_eq hbare (entry_of_lowerBlock hlower hunit').1
    · exact absurd heq (Nat.ne_of_lt hlow.root.lt_size)
  refine ⟨l.graph.units.size, ⟨hblock, htidy, hcloses.exitRoot, hcloses.isControl_exit,
    hcloses.size.symm, fun {id} hloop => ?_, hfirst, hfinal hcloses.exitRoot, ?_, ?_, ?_,
    fun hunit => ⟨(hentry hunit).trivial, (hentry hunit).phi⟩,
    fun hunit => ⟨(hexit hunit).trivial, (hexit hunit).phi⟩⟩⟩
  · have hsame : g.loopOp = l.graph.loopOp := by
      have hsame := congrArg (fun rest => rest.2.2.2.2) hcloses.surroundings
      exact hsame
    exact (hlow.loop (hsame ▸ hloop)).lt_size
  · intro source bundle hbundle
    obtain ⟨hcontrol, hlocal⟩ := hcloses.waits hbundle
    exact ⟨(hcloses.agrees.isControl_iff hcontrol.lt_size).mpr hcontrol, hlocal⟩
  · intro id unit hunit hcontrol hphi
    obtain ⟨_, unit', hunit', hbare⟩ | ⟨rfl, _⟩ := hcloses.unit_cases hunit
    · have hcontrol' := congrArg ScheduleUnit.control hbare
      have hphi' := congrArg ScheduleUnit.phi hbare
      exact hmoves hunit' (hcontrol'.symm.trans hcontrol) (hphi'.symm.trans hphi)
    · rw [(hexit hunit).phi] at hphi
      cases hphi
  · rintro id ⟨unit, hunit, hcontrol⟩ hne
    refine hused hunit hcontrol ?_ (by rw [hcloses.exitRoot]; simpa using hne)
    by_cases hroot : id = g.entryRoot
    · exact (hentry (hroot ▸ hunit)).slot
    · obtain ⟨_, unit', hunit', hbare⟩ :=
        (hcloses.unit_cases hunit).resolve_right fun hlast => hne hlast.1
      have hfresh := hlowers.fresh (by
        rw [size_start]
        exact Nat.one_le_iff_ne_zero.mpr hroot) hunit'
      have hslot := congrArg ScheduleUnit.slot hbare
      exact hslot.trans hfresh.slot

end Lowering

end SlotScheduling
