import SlotScheduling.Proofs.Graph.Knit
import SlotScheduling.Proofs.Pipeline.Attempts
import SlotScheduling.Proofs.Placement.DataFitting
import SlotScheduling.Proofs.Placement.Reanchored

/-!
# What anchored dependencies ask for

Where no dependency between blocks spans iterations, anchoring the dependencies anew keeps the
schedule that a graph has.  What the new dependencies ask for is no less than what the old ones did,
for all assignments that leave every unit at its distance from the terminator of its block.
-/

namespace SlotScheduling

namespace EdgeBundle

variable {old bundle : EdgeBundle} {latency : Nat}

theorem loose_of_addEdge_value (h : old.addEdge (.value latency) = .ok bundle) :
    old.edge.isFixedTiming = false := by
  by_contra hfixed
  rw [Bool.not_eq_false] at hfixed
  unfold addEdge at h
  split at h
  next heq =>
    rw [heq] at hfixed
    cases hfixed
  next => simp [conflict?, hfixed] at h

/-- The tighter one of two edges within one iteration stands for both. -/
theorem admits_addEdge_value (h : old.addEdge (.value latency) = .ok bundle) (gap : Int) :
    bundle.edge.Admits bundle.edge.latency gap ↔
      old.edge.Admits old.edge.latency gap ∧ (latency : Int) ≤ gap := by
  have hloose := loose_of_addEdge_value h
  have hvalue : (DepEdge.value latency).isFixedTiming = false := rfl
  rcases addEdge_cases h with ⟨heq, hkept⟩ | ⟨heq, _, hlt⟩
  · rw [heq, DepEdge.Admits, hloose, if_neg Bool.false_ne_true]
    have hle : latency ≤ old.edge.latency := by
      rcases hkept with hsame | hkept
      · rw [hsame]
        exact Nat.le_refl _
      · exact Nat.not_lt.mp fun hlt => hkept ⟨Nat.zero_le _, hlt⟩
    omega
  · have hlt : old.edge.latency < latency := hlt
    rw [heq, DepEdge.Admits, DepEdge.Admits, hloose, hvalue, if_neg Bool.false_ne_true,
      if_neg Bool.false_ne_true]
    show (latency : Int) ≤ gap ↔ _
    omega

end EdgeBundle

namespace Graph

variable {g g' : Graph} {slots : UnitId → Int} {target source user other : UnitId}
  {now last : Journaled Graph} {result : PUnit}

/-- The assignment meets the edge between two units, if both have slots.  An edge that spans
iterations is in force where the interval of the target's block is on record. -/
def MetAt (g : Graph) (slots : UnitId → Int) (target source : UnitId) : Prop :=
  ∀ bundle ∈ g.bundle? target source, (g.slot? target).isSome → (g.slot? source).isSome →
    ∀ gap ∈ bundle.edge.minGap? ((g.block? target).bind g.interval?),
      bundle.edge.Admits gap (slots target - slots source)

/-- The assignment meets all edges in force between units that have slots. -/
def MetBy (g : Graph) (slots : UnitId → Int) : Prop :=
  ∀ target source, g.MetAt slots target source

theorem metAt_congr (hbare : g'.bare = g.bare)
    (hbundle : g'.bundle? target source = g.bundle? target source) :
    g'.MetAt slots target source ↔ g.MetAt slots target source := by
  have hinterval : g'.interval? = g.interval? := by
    have hinterval := congrArg Graph.interval? hbare
    exact hinterval
  rw [MetAt, MetAt, hbundle, slot?_of_bare_eq hbare, slot?_of_bare_eq hbare,
    block?_of_bare_eq hbare, hinterval]

theorem metAt_of_bundle?_eq_none (h : g.bundle? target source = none) :
    g.MetAt slots target source := by
  intro bundle hbundle
  rw [h] at hbundle
  cases hbundle

theorem metAt_iff_of_distance_eq_zero {bundle : EdgeBundle}
    (hbundle : g.bundle? target source = some bundle) (hzero : bundle.edge.distance = 0)
    (htarget : (g.slot? target).isSome) (hsource : (g.slot? source).isSome) :
    g.MetAt slots target source ↔
      bundle.edge.Admits bundle.edge.latency (slots target - slots source) := by
  have hgap : bundle.edge.minGap? ((g.block? target).bind g.interval?) =
      some (bundle.edge.latency : Int) := if_pos hzero
  constructor
  · intro h
    exact h bundle hbundle htarget hsource _ hgap
  · intro h bundle' hbundle' _ _ gap hgap'
    obtain rfl := Option.some.inj (hbundle.symm.trans hbundle')
    obtain rfl := Option.some.inj (hgap.symm.trans hgap')
    exact h

/-- An edge within one iteration that is added asks for its latency, besides what the edge asks for
that it may come to. -/
theorem metAt_iff_of_joins {latency : Nat} {bundle : EdgeBundle} (hbare : g'.bare = g.bare)
    (hjoins : Joins (g.bundle? target source) (.value latency) bundle)
    (hnew : g'.bundle? target source = some bundle)
    (htarget : (g.slot? target).isSome) (hsource : (g.slot? source).isSome)
    (hzero : ∀ old ∈ g.bundle? target source, old.edge.isFixedTiming = false →
      old.edge.distance = 0) :
    g'.MetAt slots target source ↔
      g.MetAt slots target source ∧ slots source + latency ≤ slots target := by
  have htarget' : (g'.slot? target).isSome := slot?_of_bare_eq hbare target ▸ htarget
  have hsource' : (g'.slot? source).isSome := slot?_of_bare_eq hbare source ▸ hsource
  rcases hjoins with ⟨hnone, hedge⟩ | ⟨old, hold, hadd⟩
  · rw [metAt_iff_of_distance_eq_zero hnew (by rw [hedge]; rfl) htarget' hsource', hedge,
      and_iff_right (metAt_of_bundle?_eq_none hnone)]
    show (latency : Int) ≤ _ ↔ _
    omega
  · have hold' := hzero old hold (EdgeBundle.loose_of_addEdge_value hadd)
    have hbundle : bundle.edge.distance = 0 := by
      rcases EdgeBundle.addEdge_cases hadd with ⟨heq, _⟩ | ⟨heq, _⟩ <;> rw [heq]
      · exact hold'
      · rfl
    rw [metAt_iff_of_distance_eq_zero hnew hbundle htarget' hsource',
      metAt_iff_of_distance_eq_zero hold hold' htarget hsource,
      EdgeBundle.admits_addEdge_value hadd]
    exact and_congr_right fun _ => by omega

end Graph

/-! ## Moves -/

namespace Reanchoring

open SlotScheduling.Graph

variable {g : Graph} {slots : UnitId → Int} {move : Reanchoring} {moves : List Reanchoring}
  {now last : Journaled Graph} {result : PUnit}

/-- The move takes the dependency of one unit on another away. -/
def Removes (move : Reanchoring) (target source : UnitId) : Prop :=
  target = move.target ∧ source = move.source

instance (move : Reanchoring) (target source : UnitId) : Decidable (move.Removes target source) :=
  inferInstanceAs (Decidable (_ ∧ _))

/-- What makes the order of some moves irrelevant: their ends have slots, none of them takes away
what another one adds, and what they add only comes to edges within one iteration. -/
structure Independent (moves : List Reanchoring) (g : Graph) : Prop extends WellFormed g where
  within : ∀ move ∈ moves, move.Within fun id => (g.slot? id).isSome
  apart : ∀ move ∈ moves, ∀ other ∈ moves, move.terminator ≠ other.source
  once : ∀ move ∈ moves, ∀ old ∈ g.bundle? move.target move.terminator,
    old.edge.isFixedTiming = false → old.edge.distance = 0

theorem bundle?_apply (hg : now.state.WellFormed) (h : apply move now = .ok result last)
    (hne : move.terminator ≠ move.source) :
    last.state.WellFormed ∧ last.state.bare = now.state.bare ∧
      ∃ bundle, Joins (now.state.bundle? move.target move.terminator) (.value move.latency) bundle ∧
        ∀ target source, last.state.bundle? target source =
          if target = move.target ∧ source = move.terminator then some bundle
          else if move.Removes target source then none else now.state.bundle? target source := by
  rw [apply, Step.note_bind] at h
  obtain ⟨removed, hremove, h⟩ := Step.updateChecked_bind_eq_ok.mp h
  obtain ⟨added, hadd, rfl⟩ := Step.updateChecked_eq_ok.mp h
  have hremoved : removed.WellFormed := hg.removeDep hremove
  obtain ⟨bundle, hjoins, hbundles⟩ := bundle?_addDep hremoved.toListed hadd
  rw [bundle?_removeDep hremove, if_neg fun heq => hne heq.2] at hjoins
  refine ⟨hremoved.addDep hadd, (bare_addDep hadd).trans (bare_removeDep hremove), bundle, hjoins,
    fun target source => ?_⟩
  rw [hbundles, bundle?_removeDep hremove]
  rfl

theorem Independent.tail (hg : Independent (move :: moves) now.state)
    (h : apply move now = .ok result last) : Independent moves last.state := by
  obtain ⟨_, hwithin⟩ := List.forall_mem_cons.mp hg.within
  obtain ⟨hfirst, honce⟩ := List.forall_mem_cons.mp hg.once
  have hne := hg.apart move List.mem_cons_self move List.mem_cons_self
  obtain ⟨hwell, hbare, bundle, hjoins, hbundles⟩ := bundle?_apply hg.toWellFormed h hne
  refine ⟨hwell, fun other hother => ?_, fun other hother => ?_,
    fun other hother old hold hloose => ?_⟩
  · have hwithin := hwithin other hother
    simp only [slot?_of_bare_eq hbare]
    exact hwithin
  · intro third hthird
    exact hg.apart other (List.mem_cons_of_mem _ hother) third (List.mem_cons_of_mem _ hthird)
  · rw [hbundles] at hold
    split at hold
    · obtain rfl := Option.some.inj hold
      rcases hjoins with ⟨_, hedge⟩ | ⟨before, hbefore, hadd⟩
      · rw [hedge]
        rfl
      · rcases EdgeBundle.addEdge_cases hadd with ⟨heq, _⟩ | ⟨heq, _⟩ <;> rw [heq]
        · exact hfirst before hbefore (EdgeBundle.loose_of_addEdge_value hadd)
        · rfl
    · split at hold
      · cases hold
      · exact honce other hother old hold hloose

/-- After independent moves, the edges that none of them took away ask for what they asked for
before, and each move asks for its latency. -/
theorem metBy_forM_apply (hg : Independent moves now.state)
    (h : moves.forM apply now = .ok result last) :
    last.state.MetBy slots ↔
      (∀ target source, (∀ move ∈ moves, ¬move.Removes target source) →
        now.state.MetAt slots target source) ∧
      ∀ move ∈ moves, slots move.terminator + move.latency ≤ slots move.target := by
  induction moves generalizing now with
  | nil =>
      obtain ⟨_, rfl⟩ := Step.pure_eq_ok.mp h
      simp [MetBy]
  | cons move rest ih =>
      obtain ⟨_, middle, hfirst, h⟩ := Step.bind_eq_ok.mp h
      have hne := hg.apart move List.mem_cons_self move List.mem_cons_self
      obtain ⟨_, hbare, bundle, hjoins, hbundles⟩ := bundle?_apply hg.toWellFormed hfirst hne
      obtain ⟨hwithin, _⟩ := List.forall_mem_cons.mp hg.within
      have hnew : middle.state.MetAt slots move.target move.terminator ↔
          now.state.MetAt slots move.target move.terminator ∧
            slots move.terminator + move.latency ≤ slots move.target :=
        metAt_iff_of_joins hbare hjoins ((hbundles _ _).trans (if_pos ⟨rfl, rfl⟩))
          hwithin.target hwithin.terminator (hg.once move List.mem_cons_self)
      have hkept : ∀ {target source}, ¬(target = move.target ∧ source = move.terminator) →
          ¬move.Removes target source →
            (middle.state.MetAt slots target source ↔ now.state.MetAt slots target source) := by
        intro target source hends hremoves
        exact metAt_congr hbare ((hbundles _ _).trans ((if_neg hends).trans (if_neg hremoves)))
      -- No move takes away what the first one adds.
      have hlasting : ∀ other ∈ move :: rest, ¬other.Removes move.target move.terminator :=
        fun other hother heq => hg.apart move List.mem_cons_self other hother heq.2
      rw [ih (hg.tail hfirst) h]
      constructor
      · rintro ⟨hmiddle, hrest⟩
        have hends := hnew.mp (hmiddle _ _ fun other hother =>
          hlasting other (List.mem_cons_of_mem _ hother))
        refine ⟨fun target source hremoves => ?_, List.forall_mem_cons.mpr ⟨hends.2, hrest⟩⟩
        obtain ⟨hremoves, hothers⟩ := List.forall_mem_cons.mp hremoves
        by_cases heq : target = move.target ∧ source = move.terminator
        · obtain ⟨rfl, rfl⟩ := heq
          exact hends.1
        · exact (hkept heq hremoves).mp (hmiddle _ _ hothers)
      · rintro ⟨hnow, hall⟩
        obtain ⟨hend, hrest⟩ := List.forall_mem_cons.mp hall
        refine ⟨fun target source hothers => ?_, hrest⟩
        by_cases heq : target = move.target ∧ source = move.terminator
        · obtain ⟨rfl, rfl⟩ := heq
          exact hnew.mpr ⟨hnow _ _ hlasting, hend⟩
        · by_cases hremoves : move.Removes target source
          · exact metAt_of_bundle?_eq_none
              ((hbundles _ _).trans ((if_neg heq).trans (if_pos hremoves)))
          · exact (hkept heq hremoves).mpr (hnow _ _ (List.forall_mem_cons.mpr ⟨hremoves, hothers⟩))

end Reanchoring

namespace Graph

variable {g : Graph} {slots : UnitId → Int} {now last : Journaled Graph} {result : PUnit}
  {blocks names : List BlockId}

/-- Dependencies between blocks lie within one iteration, and those of fixed timing aside, they are
the ones that are marked as such. -/
structure Anchorable (g : Graph) : Prop extends WellFormed g where
  keyed : ∀ id, g.Keyed id
  ends : ∀ {block id}, g.terminator? block = some id → g.block? id = some block
  crosses : ∀ {target source bundle}, g.bundle? target source = some bundle →
    bundle.edge.isFixedTiming = false →
      bundle.crossBlock = decide (g.block? source ≠ g.block? target)
  once : ∀ {target source bundle}, g.bundle? target source = some bundle →
    bundle.crossBlock = true → bundle.edge.distance = 0

/-- Blocks that are put together can be anchored, if their dependencies on each other lie within one
iteration. -/
theorem Knit.anchorable (hg : Knit blocks g) (hends : g.EndsWithin names)
    (hkeyed : ∀ id, g.Keyed id)
    (honce : ∀ {target source bundle}, g.bundle? target source = some bundle →
      bundle.crossBlock = true → bundle.edge.distance = 0) : g.Anchorable where
  toWellFormed := hg.toWellFormed
  keyed := hkeyed
  ends := fun hlast => (hends.of_terminator? hlast).2.block
  crosses := fun hbundle => hg.crosses (hasEdge_of_bundle?_eq_some hbundle)
  once := honce

/-- The assignment gives all units with slots the distance that they have from the terminators of
their blocks. -/
def KeepsEnds (g : Graph) (slots : UnitId → Int) : Prop :=
  ∀ {id block terminator} {s t : Nat}, g.block? id = some block →
    g.terminator? block = some terminator → g.slot? id = some s → g.slot? terminator = some t →
      slots id - slots terminator = (s : Int) - t

theorem keepsEnds_slotAt : g.KeepsEnds g.slotAt := by
  intro id block terminator s t _ _ hs ht
  simp [slotAt, hs, ht]

section

variable {move : Reanchoring} {bundle : EdgeBundle} {slot sourceSlot terminatorSlot : Nat}

theorem Anchorable.bundle?_of_replaces (hg : g.Anchorable)
    (h : move.Replaces g bundle slot sourceSlot terminatorSlot) :
    g.bundle? move.target move.source = some bundle := by
  obtain ⟨unit, hunit, hmem⟩ := h.edge
  exact (hg.keyed move.target).bundle? hunit hmem

theorem Anchorable.block?_ne (hg : g.Anchorable)
    (h : move.Replaces g bundle slot sourceSlot terminatorSlot) :
    g.block? move.source ≠ g.block? move.target := by
  have hcrosses := hg.crosses (hg.bundle?_of_replaces h) h.loose
  rw [h.crosses] at hcrosses
  exact of_decide_eq_true hcrosses.symm

theorem Anchorable.block?_terminator (hg : g.Anchorable) (hmove : move.IsMoveOf g) :
    g.block? move.terminator = g.block? move.source := by
  obtain ⟨producer, hproducer, hlast⟩ := hmove.ends
  rw [hg.ends hlast, block?_eq hproducer]

/-- Behind the terminator, the new edge asks for what the old one did. -/
theorem Anchorable.metAt_iff (hg : g.Anchorable) (hmove : move.IsMoveOf g)
    (hslots : g.KeepsEnds slots) : slots move.terminator + move.latency ≤ slots move.target ↔
      g.MetAt slots move.target move.source ∧ slots move.terminator ≤ slots move.target := by
  obtain ⟨bundle, slot, sourceSlot, terminatorSlot, hreplaces⟩ := hmove.replaces
  obtain ⟨producer, hproducer, hlast⟩ := hmove.ends
  have hbundle := hg.bundle?_of_replaces hreplaces
  have hapart :=
    hslots (block?_eq hproducer) hlast hreplaces.source hreplaces.terminator
  rw [metAt_iff_of_distance_eq_zero hbundle (hg.once hbundle hreplaces.crosses)
    (by simp [hreplaces.target]) (by simp [hreplaces.source]), DepEdge.Admits, hreplaces.loose,
    if_neg Bool.false_ne_true, hreplaces.latency]
  omega

end

theorem Anchorable.independent (hg : g.Anchorable) {moves : List Reanchoring}
    (hmoves : ∀ move ∈ moves, move.IsMoveOf g) : Reanchoring.Independent moves g := by
  refine ⟨hg.toWellFormed, fun move hmove => (hmoves move hmove).within,
    fun move hmove other hother heq => ?_, fun move hmove old hold hloose => ?_⟩
  · -- The terminator of the other move ends the block of the first one, as does its source.
    obtain ⟨producer, _, hlast⟩ := (hmoves move hmove).ends
    obtain ⟨source, hsource, hlast'⟩ := (hmoves other hother).ends
    have hblock := hg.ends hlast
    rw [heq, block?_eq hsource, Option.some_inj] at hblock
    rw [hblock, hlast, heq] at hlast'
    exact (hmoves other hother).ne (Option.some.inj hlast').symm
  · obtain ⟨bundle, _, _, _, hreplaces⟩ := (hmoves move hmove).replaces
    have hne := hg.block?_ne hreplaces
    rw [← hg.block?_terminator (hmoves move hmove)] at hne
    exact hg.once hold ((hg.crosses hold hloose).trans (decide_eq_true hne))

/-- For an assignment that keeps all units at their distances from the terminators, the new edges
ask for the same as the old ones, and that targets do not issue before terminators. -/
theorem metBy_reanchor_iff (hg : now.state.Anchorable) (h : Graph.reanchor now = .ok result last)
    (hslots : now.state.KeepsEnds slots) : last.state.bare = now.state.bare ∧
      ∃ moves : List Reanchoring, (∀ move ∈ moves, move.IsMoveOf now.state) ∧
        (last.state.MetBy slots ↔
          now.state.MetBy slots ∧ ∀ move ∈ moves, slots move.terminator ≤ slots move.target) := by
  refine ⟨keeps_reanchor.of_eq_ok h, ?_⟩
  rw [reanchor, Step.current_bind] at h
  obtain ⟨moves, hall, h⟩ := Step.lift_bind_eq_ok.mp h
  have hmoves : ∀ move ∈ moves, move.IsMoveOf now.state := fun move hmove =>
    Reanchoring.isMoveOf_all hg.toListed hall hmove
  refine ⟨moves, hmoves, (Reanchoring.metBy_forM_apply (hg.independent hmoves) h).trans ?_⟩
  have hiff := fun move hmove => hg.metAt_iff (hmoves move hmove) hslots
  constructor
  · rintro ⟨hkept, hends⟩
    refine ⟨fun target source => ?_, fun move hmove => ((hiff move hmove).mp (hends move hmove)).2⟩
    by_cases hremoves : ∃ move ∈ moves, move.Removes target source
    · obtain ⟨move, hmove, rfl, rfl⟩ := hremoves
      exact ((hiff move hmove).mp (hends move hmove)).1
    · exact hkept _ _ fun move hmove hremove => hremoves ⟨move, hmove, hremove⟩
  · rintro ⟨hmet, hends⟩
    exact ⟨fun target source _ => hmet target source,
      fun move hmove => (hiff move hmove).mpr ⟨hmet _ _, hends move hmove⟩⟩

/-- The slots of a graph still meet its edges after these were anchored anew. -/
theorem metBy_slotAt_reanchor (hg : now.state.Anchorable)
    (h : Graph.reanchor now = .ok result last) (hmet : now.state.MetBy now.state.slotAt) :
    last.state.slot? = now.state.slot? ∧ last.state.MetBy last.state.slotAt := by
  obtain ⟨hbare, moves, hmoves, hiff⟩ := metBy_reanchor_iff hg h keepsEnds_slotAt
  have hslots : last.state.slot? = now.state.slot? := funext (slot?_of_bare_eq hbare)
  have hslotAt : last.state.slotAt = now.state.slotAt := by
    funext id
    rw [slotAt, slotAt, hslots]
  refine ⟨hslots, hslotAt ▸ hiff.mpr ⟨hmet, fun move hmove => ?_⟩⟩
  obtain ⟨_, _, _, _, hreplaces⟩ := (hmoves move hmove).replaces
  rw [slotAt, slotAt, hreplaces.target, hreplaces.terminator]
  exact Int.ofNat_le.mpr hreplaces.late

/-- A unit of a pipelined loop that waits for an operation before the loop, of the iteration
before. -/
def spanningWait : Graph :=
  (start 0 1).after [
    .createUnit (.op 0) 0 .trivial true 0,
    .createUnit (.op 1) 0 .trivial true 0,
    .setTerminator 0 2,
    .createEntry 1,
    .createUnit (.op 2) 1 .trivial true 0,
    .addDep 4 1 (.loopCarried 5 1),
    .setInterval 1 5,
    .place 1 1, .place 2 1, .place 4 1]

/-- An edge that spans iterations loses its distance when it moves, so that it asks for more than it
did. -/
theorem not_metBy_spanningWait : ∃ last, Graph.reanchor ⟨spanningWait, {}⟩ = .ok ⟨⟩ last ∧
    spanningWait.bundle? 4 1 = some ⟨.loopCarried 5 1, true⟩ ∧
    last.state.bundle? 4 2 = some ⟨.value 5, true⟩ ∧
    spanningWait.MetAt spanningWait.slotAt 4 1 ∧ ¬last.state.MetBy last.state.slotAt := by
  have hsucceeds : (Graph.reanchor >>= fun _ => Step.current).succeeds ⟨spanningWait, {}⟩
      (fun g => decide (g.bundle? 4 2 = some ⟨.value 5, true⟩ ∧ g.slot? 4 = some 1 ∧
        g.slot? 2 = some 1)) = true := by
    decide +kernel
  obtain ⟨last, hrun, htest⟩ := Step.exists_last_of_succeeds hsucceeds
  obtain ⟨hbundle, htarget, hterminator⟩ := of_decide_eq_true htest
  refine ⟨last, hrun, by decide +kernel, hbundle, ?_, fun hmet => ?_⟩
  · have hold : spanningWait.bundle? 4 1 = some ⟨.loopCarried 5 1, true⟩ := by decide +kernel
    have hinterval : (spanningWait.block? 4).bind spanningWait.interval? = some 5 := by
      decide +kernel
    have htarget : spanningWait.slotAt 4 = 1 := by decide +kernel
    have hsource : spanningWait.slotAt 1 = 1 := by decide +kernel
    intro bundle hbundle _ _ gap hgap
    obtain rfl := Option.some.inj (hold.symm.trans hbundle)
    rw [hinterval] at hgap
    obtain rfl := Option.some.inj hgap
    rw [htarget, hsource]
    show (5 : Int) - 1 * 5 ≤ 1 - 1
    omega
  · have hends := (metAt_iff_of_distance_eq_zero hbundle rfl (by simp [htarget])
      (by simp [hterminator])).mp (hmet 4 2)
    rw [slotAt, slotAt, htarget, hterminator] at hends
    have hends : (5 : Int) ≤ 1 - 1 := hends
    omega

/-- Whatever meets the new edges and keeps the distances from the terminators meets all edges that
were there before. -/
theorem metBy_of_reanchor (hg : now.state.Anchorable) (h : Graph.reanchor now = .ok result last)
    (hslots : now.state.KeepsEnds slots) (hmet : last.state.MetBy slots) :
    now.state.MetBy slots := by
  obtain ⟨_, moves, _, hiff⟩ := metBy_reanchor_iff hg h hslots
  exact (hiff.mp hmet).1

end Graph

end SlotScheduling
