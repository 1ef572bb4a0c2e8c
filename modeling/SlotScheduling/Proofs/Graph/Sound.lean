import Mathlib.Logic.Relation
import SlotScheduling.Proofs.Graph.Knit
import SlotScheduling.Proofs.Graph.Verified
import SlotScheduling.Proofs.Placement.Reanchored
import SlotScheduling.Proofs.Totality

/-!
# Graphs that keep passing their checks

What the checks find of a graph that is put together from blocks is kept by all that a scheduler
does to the graph, also by anchoring the dependencies between blocks anew.
-/

namespace SlotScheduling

namespace Graph

variable {g g' : Graph} {id user target source : UnitId} {block : BlockId} {edge : DepEdge}
  {bundle : EdgeBundle} {blocks : List BlockId} {unit : ScheduleUnit}

/-! ## Values within a block -/

theorem exists_verifyDep_of_verify (hg : g.Coherent) (h : g.verify = .ok ⟨⟩)
    (hcontrol : g.IsControl target) (hedge : g.HasEdge target source bundle) :
    ∃ unit, g.units[target]? = some unit ∧
      ∃ here, g.verifyDep unit target source bundle = .ok here := by
  obtain ⟨_, _, _, hunits⟩ := verify_eq_ok_iff.mp h
  obtain ⟨unit, hunit, hmem⟩ := hedge
  exact ⟨unit, hunit, exists_verifyDep (hunits target (hg.control.mpr hcontrol)) hunit hmem⟩

/-- In a graph that passes its checks, control units take values of their blocks from earlier units
only. -/
theorem lt_of_verify (hg : g.Coherent) (h : g.verify = .ok ⟨⟩) (hcontrol : g.IsControl target)
    (hedge : g.HasEdge target source bundle) (hkind : bundle.edge.kind = .value)
    (hcross : bundle.crossBlock = false) : source < target := by
  obtain ⟨unit, _, here, hhere⟩ := exists_verifyDep_of_verify hg h hcontrol hedge
  have hgood := (verifyDep_eq_ok.mp hhere).1
  exact Nat.not_le.mp fun hle => hgood ⟨hkind, hcross, hle⟩

/-- A control unit takes a value from another unit of its block. -/
def TakesValue (g : Graph) (target source : UnitId) : Prop :=
  g.IsControl target ∧ ∃ bundle, g.HasEdge target source bundle ∧ bundle.edge.kind = .value ∧
    bundle.crossBlock = false

theorem not_transGen_takesValue (hg : g.Coherent) (h : g.verify = .ok ⟨⟩) :
    ¬Relation.TransGen g.TakesValue id id := by
  have hlt : ∀ {target source}, g.TakesValue target source → source < target := by
    rintro target source ⟨hcontrol, bundle, hedge, hkind, hcross⟩
    exact lt_of_verify hg h hcontrol hedge hkind hcross
  have hchain : ∀ {target source}, Relation.TransGen g.TakesValue target source →
      source < target := by
    intro target source hchain
    induction hchain with
    | single hstep => exact hlt hstep
    | tail _ hstep ih => exact Nat.lt_trans (hlt hstep) ih
  exact fun hcycle => Nat.lt_irrefl _ (hchain hcycle)

/-- Two results of a block that take each other's values. -/
def dataCycle : Graph :=
  (start 0 1).after [
    .createUnit (.op 0) 0 .trivial false 0,
    .createUnit (.op 1) 0 .trivial false 0,
    .createExit 0,
    .addDep 3 0 (.value 0),
    .addDep 2 1 (.value 0),
    .addDep 1 2 (.value 0)]

/-- The checks do not look at the dependencies of the data path. -/
theorem verify_dataCycle : dataCycle.Reachable ∧ dataCycle.verify = .ok ⟨⟩ ∧
    dataCycle.bundle? 1 2 = some ⟨.value 0, false⟩ ∧
      dataCycle.bundle? 2 1 = some ⟨.value 0, false⟩ :=
  ⟨(Reachable.start 0 1).after (by simp [Call.merged]), by decide +kernel, by decide +kernel,
    by decide +kernel⟩

/-! ## Sound graphs -/

/-- A graph that is put together from blocks passes its checks, apart from what they say about units
without slots. -/
structure Sound (blocks : List BlockId) (g : Graph) : Prop extends Knit blocks g where
  ended : g.EndsWithin blocks
  rooted : g.entryRoot < g.units.size
  first : ∀ {source}, ¬g.DependsOn g.entryRoot source
  last : ∀ {exit}, g.exitRoot = some exit →
    exit < g.units.size ∧ ¬g.IsEntry exit ∧ ∀ {user}, ¬g.DependsOn user exit
  forward : ∀ {target source bundle}, g.IsControl target → g.HasEdge target source bundle →
    bundle.edge.kind = .value → bundle.crossBlock = false → source < target
  branches : ∀ {target source bundle}, g.IsControl target → g.IsEntry target →
    g.HasEdge target source bundle → bundle.edge.latency = 0 ∧
      ∃ producer, g.units[source]? = some producer ∧ producer.terminator = true

/-- A graph that passes its checks is sound. -/
theorem Knit.sound (hg : Knit blocks g) (hends : g.EndsWithin blocks)
    (hexit : ∀ {exit}, g.exitRoot = some exit → ¬g.IsEntry exit) (h : g.verify = .ok ⟨⟩) :
    Sound blocks g := by
  obtain ⟨hentry, hexits, _, _⟩ := verify_eq_ok_iff.mp h
  obtain ⟨hrooted, hfirst⟩ := verifyEntry_eq_ok_iff.mp hentry
  refine ⟨hg, hends, hrooted, hfirst _, fun {exit} hroot => ?_, lt_of_verify hg.toCoherent h, ?_⟩
  · obtain ⟨hlt, hunused⟩ := verifyExit_eq_ok_iff.mp hexits exit hroot
    exact ⟨hlt, hexit hroot, fun hdepends => hunused _ (hg.linked.mp hdepends)⟩
  · rintro target source bundle hcontrol ⟨entry, hentry, hlead⟩ hedge
    obtain ⟨unit, hunit, here, hhere⟩ := exists_verifyDep_of_verify hg.toCoherent h hcontrol hedge
    obtain rfl := Option.some.inj (hunit.symm.trans hentry)
    obtain ⟨_, producer, hproducer, hgood, _⟩ := verifyDep_eq_ok.mp hhere
    rw [not_and, not_or, not_not, Bool.not_eq_false] at hgood
    exact ⟨(hgood hlead).2, producer, hproducer, (hgood hlead).1⟩

/-- A sound graph passes its checks once its control units have slots. -/
theorem Sound.verify (hg : Sound blocks g) (hslots : g.HasControlSlots) : g.verify = .ok ⟨⟩ := by
  refine verify_eq_ok_iff.mpr ⟨verifyEntry_eq_ok_iff.mpr ⟨hg.rooted, fun _ => hg.first⟩,
    verifyExit_eq_ok_iff.mpr fun exit hroot => ?_, verifyPositions_of_listed hg.toListed,
    fun id hid => ?_⟩
  · obtain ⟨hlt, _, hunused⟩ := hg.last hroot
    exact ⟨hlt, fun user huse => hunused (hg.linked.mpr huse)⟩
  · obtain ⟨unit, hunit, hcontrol⟩ := hg.control.mp hid
    obtain ⟨slot, hslot⟩ := hslots id hid
    rw [slot?_eq hunit] at hslot
    have hisControl : g.IsControl id := ⟨unit, hunit, hcontrol⟩
    refine verifyUnit_of_slot hunit (by simp [hslot]) fun ⟨source, bundle⟩ hmem => ?_
    have hedge : g.HasEdge id source bundle := ⟨unit, hunit, hmem⟩
    have hproducer := Array.getElem?_eq_getElem (hedge.source_lt hg.toCoherent)
    refine ⟨_, verifyDep_eq_ok.mpr ⟨?_, _, hproducer, ?_, rfl⟩⟩
    · rintro ⟨hkind, hcross, hle⟩
      exact Nat.not_le.mpr (hg.forward hisControl hedge hkind hcross) hle
    · rintro ⟨hlead, hbad⟩
      obtain ⟨hlatency, producer, hproducer', hends⟩ :=
        hg.branches hisControl ⟨unit, hunit, hlead⟩ hedge
      obtain rfl := Option.some.inj (hproducer.symm.trans hproducer')
      rcases hbad with hnot | hlate
      · rw [hends] at hnot
        cases hnot
      · exact hlate hlatency

/-! ## What schedulers decide -/

theorem hasEdge_of_skeleton_eq (h : g'.skeleton = g.skeleton)
    (hedge : g'.HasEdge target source bundle) : ∃ bundle', g.HasEdge target source bundle' ∧
      bundle'.withLatency 0 = bundle.withLatency 0 ∧
      (g.exitRoot ≠ some target → bundle' = bundle) := by
  obtain ⟨unit, hunit, hmem⟩ := hedge
  obtain ⟨unit', hunit', hsame, hagree⟩ := exists_of_skeleton_eq h hunit
  by_cases hexit : g.exitRoot = some target
  · obtain ⟨⟨_, bundle'⟩, hmem', rfl, hbundle⟩ := exists_dep_of_skeleton_eq hsame hmem
    exact ⟨bundle', ⟨unit', hunit', hmem'⟩, hbundle, fun hne => absurd hexit hne⟩
  · exact ⟨bundle, ⟨unit', hunit', (hagree hexit).deps ▸ hmem⟩, rfl, fun _ => rfl⟩

theorem block?_of_skeleton_eq (h : g'.skeleton = g.skeleton) : g'.block? = g.block? := by
  funext id
  cases hunit : g'.units[id]? with
  | some unit =>
      obtain ⟨unit', hunit', hsame, _⟩ := exists_of_skeleton_eq h hunit
      rw [block?_eq hunit, block?_eq hunit', ScheduleUnit.block_of_skeleton_eq hsame]
  | none =>
      have hnone : g.units[id]? = none := by
        have hsize := size_eq_of_skeleton_eq h
        rw [Array.getElem?_eq_none_iff] at hunit ⊢
        omega
      rw [block?, block?, hunit, hnone]

theorem isEntry_of_skeleton_eq (h : g'.skeleton = g.skeleton) (hentry : g'.IsEntry id) :
    g.IsEntry id := by
  obtain ⟨unit, hunit, hlead⟩ := hentry
  obtain ⟨unit', hunit', hsame, _⟩ := exists_of_skeleton_eq h hunit
  have heq : unit.lead = unit'.lead := by
    have heq := congrArg ScheduleUnit.lead hsame
    exact heq
  exact ⟨unit', hunit', heq ▸ hlead⟩

theorem Knit.of_skeleton_eq (hg : Knit blocks g) (h : g'.skeleton = g.skeleton) :
    Knit blocks g' := by
  have hblocks := block?_of_skeleton_eq h
  have hterminators : g'.terminator? = g.terminator? :=
    eq_of_skeleton_eq (·.terminator?) h fun _ => rfl
  have hedges : ∀ {target source bundle}, g'.HasEdge target source bundle →
      bundle.edge.isFixedTiming = false → ∃ bundle', g.HasEdge target source bundle' ∧
        bundle'.edge.isFixedTiming = false ∧ bundle'.crossBlock = bundle.crossBlock := by
    intro target source bundle hedge hfixed
    obtain ⟨bundle', hedge', hbundle, _⟩ := hasEdge_of_skeleton_eq h hedge
    have hcross := congrArg EdgeBundle.crossBlock hbundle
    have hkind := congrArg (fun bundle => bundle.edge.isFixedTiming) hbundle
    exact ⟨bundle', hedge', hkind.trans hfixed, hcross⟩
  refine ⟨hg.toCoherent.of_links_eq (links_eq_of_skeleton_eq h),
    fun {target source bundle} hedge hfixed => ?_,
    fun {target source bundle} hedge hfixed hentry => ?_⟩
  · obtain ⟨bundle', hedge', hfixed', hcross⟩ := hedges hedge hfixed
    rw [← hcross, hblocks]
    exact hg.crosses hedge' hfixed'
  · obtain ⟨bundle', hedge', hfixed', _⟩ := hedges hedge hfixed
    rw [hblocks, hterminators]
    exact hg.entries hedge' hfixed' (isEntry_of_skeleton_eq h hentry)

theorem Sound.of_skeleton_eq (hg : Sound blocks g) (h : g'.skeleton = g.skeleton) :
    Sound blocks g' := by
  have houtline := outline_eq_of_skeleton_eq h
  have hexit : g'.exitRoot = g.exitRoot := eq_of_skeleton_eq (·.exitRoot) h fun _ => rfl
  have hends : g'.terminators = g.terminators := eq_of_skeleton_eq (·.terminators) h fun _ => rfl
  have hsize := size_eq_of_skeleton_eq h
  refine ⟨hg.toKnit.of_skeleton_eq h, hg.ended.of_same (block?_of_skeleton_eq h) hends hexit, ?_,
    fun hdepends => hg.first (dependsOn_of_outline_eq houtline hdepends),
    fun {exit} hroot => ?_, ?_, ?_⟩
  · rw [hsize]
    exact hg.rooted
  · obtain ⟨hlt, hlead, hunused⟩ := hg.last (hexit ▸ hroot)
    exact ⟨hsize ▸ hlt, fun hentry => hlead (isEntry_of_skeleton_eq h hentry),
      fun hdepends => hunused (dependsOn_of_outline_eq houtline hdepends)⟩
  · intro target source bundle hcontrol hedge hkind hcross
    obtain ⟨bundle', hedge', hbundle, _⟩ := hasEdge_of_skeleton_eq h hedge
    have hkind' := congrArg (fun bundle => bundle.edge.kind) hbundle
    have hcross' := congrArg EdgeBundle.crossBlock hbundle
    exact hg.forward (isControl_of_outline_eq houtline hcontrol) hedge' (hkind'.trans hkind)
      (hcross'.trans hcross)
  · intro target source bundle hcontrol hentry hedge
    have hentry := isEntry_of_skeleton_eq h hentry
    obtain ⟨bundle', hedge', _, hsame⟩ := hasEdge_of_skeleton_eq h hedge
    obtain rfl := hsame fun hroot => (hg.last hroot).2.1 hentry
    obtain ⟨hlatency, producer, hproducer, hends⟩ :=
      hg.branches (isControl_of_outline_eq houtline hcontrol) hentry hedge'
    obtain ⟨producer', hproducer', hunit, _⟩ := exists_of_skeleton_eq h.symm hproducer
    have heq : producer'.terminator = producer.terminator := by
      have heq := congrArg ScheduleUnit.terminator hunit
      exact heq.symm
    exact ⟨hlatency, producer', hproducer', heq.trans hends⟩

theorem Sound.disablePipeline (hg : Sound blocks g) : Sound blocks g.disablePipeline where
  toCoherent := hg.toCoherent.of_links_eq rfl
  crosses := hg.crosses
  entries := hg.entries
  ended := hg.ended.of_same rfl rfl rfl
  rooted := hg.rooted
  first := hg.first
  last := hg.last
  forward := hg.forward
  branches := hg.branches

/-! ## Anchored dependencies -/

/-- The first unit lies inside another block than the second one, and the second one is not the exit
of the graph. -/
structure LiesBeyond (g : Graph) (target source : UnitId) : Prop where
  inside : ¬g.IsEntry target
  notRoot : target ≠ g.entryRoot
  notExit : g.exitRoot ≠ some source
  blocks : g.block? source ≠ g.block? target

theorem LiesBeyond.of_bare_eq (h : g.LiesBeyond target source) (hbare : g'.bare = g.bare) :
    g'.LiesBeyond target source where
  inside := fun hentry => h.inside ((isEntry_of_bare_eq hbare).mp hentry)
  notRoot := h.notRoot
  notExit := exitRoot_of_bare_eq hbare ▸ h.notExit
  blocks := block?_of_bare_eq hbare ▸ h.blocks

/-- New edges may lead from one block into another. -/
theorem Sound.rewire (hg : Sound blocks g) (hknit : Knit blocks g') (hbare : g'.bare = g.bare)
    (hedges : ∀ {target source bundle}, g'.HasEdge target source bundle →
      g.HasEdge target source bundle ∨ g.LiesBeyond target source) : Sound blocks g' := by
  have hexit := exitRoot_of_bare_eq hbare
  have hdepends : ∀ {target source}, g'.DependsOn target source →
      g.DependsOn target source ∨ g.LiesBeyond target source := by
    rintro target source ⟨unit, hunit, hmem⟩
    obtain ⟨⟨_, bundle⟩, hdep, rfl⟩ := List.mem_map.mp hmem
    exact (hedges ⟨unit, hunit, hdep⟩).imp_left HasEdge.dependsOn
  refine ⟨hknit, hg.ended.of_bare_eq hbare, ?_, fun {source} hdep => ?_, fun {exit} hroot => ?_,
    fun {target source bundle} hcontrol hedge hkind hcross => ?_,
    fun {target source bundle} hcontrol hentry hedge => ?_⟩
  · exact size_eq_of_bare_eq hbare ▸ hg.rooted
  · rcases hdepends hdep with hold | hbeyond
    · exact hg.first hold
    · exact hbeyond.notRoot rfl
  · rw [hexit] at hroot
    obtain ⟨hlt, hinside, hlast⟩ := hg.last hroot
    refine ⟨size_eq_of_bare_eq hbare ▸ hlt,
      fun hentry => hinside ((isEntry_of_bare_eq hbare).mp hentry), fun {user} hdep => ?_⟩
    rcases hdepends hdep with hold | hbeyond
    · exact hlast hold
    · exact hbeyond.notExit hroot
  · rcases hedges hedge with hold | hbeyond
    · exact hg.forward ((isControl_iff_of_bare_eq hbare).mp hcontrol) hold hkind hcross
    · have hfixed : bundle.edge.isFixedTiming = false := by simp [DepEdge.isFixedTiming, hkind]
      have hflag := hknit.crosses hedge hfixed
      rw [hcross, block?_of_bare_eq hbare] at hflag
      exact absurd hbeyond.blocks (of_decide_eq_false hflag.symm)
  · have hentry := (isEntry_of_bare_eq hbare).mp hentry
    rcases hedges hedge with hold | hbeyond
    · obtain ⟨hlatency, producer, hproducer, hends⟩ :=
        hg.branches ((isControl_iff_of_bare_eq hbare).mp hcontrol) hentry hold
      obtain ⟨producer', hproducer', hsame⟩ := exists_of_bare_eq hbare.symm hproducer
      have heq : producer'.terminator = producer.terminator := by
        have heq := congrArg ScheduleUnit.terminator hsame
        exact heq.symm
      exact ⟨hlatency, producer', hproducer', heq.trans hends⟩
    · exact absurd hentry hbeyond.inside

theorem Sound.removeDep (hg : Sound blocks g) (h : g.removeDep target source = .ok g') :
    Sound blocks g' :=
  hg.rewire (hg.toKnit.removeDep h) (bare_removeDep h) fun hedge =>
    Or.inl (hasEdge_of_removeDep h hedge)

theorem Sound.addDep (hg : Sound blocks g) (hbeyond : g.LiesBeyond target source)
    (h : g.addDep target source edge = .ok g') : Sound blocks g' := by
  refine hg.rewire (hg.toKnit.addDep h fun hentry => absurd hentry hbeyond.inside) (bare_addDep h)
    fun hedge => ?_
  refine (hasEdge_addDep hg.toListed h hedge).imp_right ?_
  rintro ⟨⟨rfl, rfl⟩, _⟩
  exact hbeyond

/-- Dependencies that move lead into another block. -/
theorem Sound.liesBeyond {move : Reanchoring} (hg : Sound blocks g) (hmove : move.IsMoveOf g) :
    g.LiesBeyond move.target move.terminator := by
  obtain ⟨bundle, _, _, _, hreplaces⟩ := hmove.replaces
  obtain ⟨producer, hproducer, hlast⟩ := hmove.ends
  have hedge : g.HasEdge move.target move.source bundle := hreplaces.edge
  obtain ⟨_, hend⟩ := hg.ended.of_terminator? hlast
  have hflag := hg.crosses hedge hreplaces.loose
  rw [hreplaces.crosses, block?_eq hproducer, ← hend.block] at hflag
  refine ⟨fun hentry => ?_, fun hroot => hg.first (hroot ▸ hedge.dependsOn), hend.notExit,
    of_decide_eq_true hflag.symm⟩
  obtain ⟨block, _, hblock, hfirst⟩ := hg.entries hedge hreplaces.loose hentry
  obtain rfl := Option.some.inj ((block?_eq hproducer).symm.trans hblock)
  exact hmove.ne (Option.some.inj (hlast.symm.trans hfirst))

theorem Sound.maintains_apply {move : Reanchoring} {start : Graph} (hstart : Sound blocks start)
    (hmove : move.IsMoveOf start) :
    move.apply.Maintains fun g => Sound blocks g ∧ g.bare = start.bare := by
  have hbeyond := hstart.liesBeyond hmove
  refine (Step.maintains_note _ _).bind fun _ => Step.Maintains.bind ?_ fun _ => ?_
  · exact Step.maintains_updateChecked fun g g' h ⟨hg, hbare⟩ =>
      ⟨hg.removeDep h, (bare_removeDep h).trans hbare⟩
  · exact Step.maintains_updateChecked fun g g' h ⟨hg, hbare⟩ =>
      ⟨hg.addDep (hbeyond.of_bare_eq hbare) h, (bare_addDep h).trans hbare⟩

theorem Sound.maintains_reanchor : Graph.reanchor.Maintains (Sound blocks) := by
  intro now hnow
  refine (Step.maintains_current_bind (P := fun g => Sound blocks g ∧ g.bare = now.state.bare)
    (fun g ⟨hg, hbare⟩ => ?_) now ⟨hnow, rfl⟩).1
  refine Step.maintains_lift_bind fun moves hmoves =>
    Step.maintains_forM_of_mem fun move hmove => ?_
  rw [← hbare]
  exact hg.maintains_apply (Reanchoring.isMoveOf_all hg.toListed hmoves hmove)

/-- All that is done to schedule a sound graph leaves it sound. -/
theorem lasting_sound (blocks : List BlockId) : Lasting (Sound blocks) where
  of_skeleton_eq := Sound.of_skeleton_eq
  reanchor := Sound.maintains_reanchor
  disablePipeline := Sound.disablePipeline

end Graph

end SlotScheduling
