import SlotScheduling.Placement.Reanchoring
import SlotScheduling.Proofs.Graph.Edges
import SlotScheduling.Proofs.Steps

/-!
# Anchored dependencies

A dependency that moves to a terminator has slots at all of its ends.  Whatever
else a graph says is not changed, and a unit without a slot keeps its edges.
-/

namespace SlotScheduling

/-- The second graph is the first one with dependencies between units of `placed`
changed. -/
structure Graph.Rewired (placed : UnitId → Prop) (g g' : Graph) : Prop where
  bare : g'.bare = g.bare
  wellFormed : g'.WellFormed
  kept : ∀ {target source}, ¬(placed target ∧ placed source) →
    g'.bundle? target source = g.bundle? target source

namespace Reanchoring

open SlotScheduling.Graph

variable {g g' : Graph} {unit : ScheduleUnit} {move : Reanchoring} {now last : Journaled Graph}
  {result : PUnit} {placed : UnitId → Prop}

/-- All ends of the move are among some units. -/
structure Within (placed : UnitId → Prop) (move : Reanchoring) : Prop where
  target : placed move.target
  source : placed move.source
  terminator : placed move.terminator

theorem apply_rewired (hg : now.state.WellFormed) (hmove : move.Within placed)
    (h : apply move now = .ok result last) : Rewired placed now.state last.state := by
  rw [apply, Step.note_bind] at h
  obtain ⟨removed, hremove, h⟩ := Step.updateChecked_bind_eq_ok.mp h
  obtain ⟨added, hadd, rfl⟩ := Step.updateChecked_eq_ok.mp h
  have hremoved : removed.WellFormed := hg.removeDep hremove
  obtain ⟨bundle, _, hbundles⟩ := bundle?_addDep hremoved.toListed hadd
  refine ⟨(bare_addDep hadd).trans (bare_removeDep hremove),
    hremoved.addDep hadd, fun {target source} hfree => ?_⟩
  rw [hbundles, if_neg, bundle?_removeDep hremove, if_neg]
  · rintro ⟨rfl, rfl⟩
    exact hfree ⟨hmove.target, hmove.source⟩
  · rintro ⟨rfl, rfl⟩
    exact hfree ⟨hmove.target, hmove.terminator⟩

theorem applyAll_rewired {moves : List Reanchoring} (hg : now.state.WellFormed)
    (hmoves : ∀ move ∈ moves, move.Within placed) (h : moves.forM apply now = .ok result last) :
    Rewired placed now.state last.state := by
  induction moves generalizing now with
  | nil =>
      obtain ⟨_, rfl⟩ := Step.pure_eq_ok.mp h
      exact ⟨rfl, hg, fun _ => rfl⟩
  | cons move rest ih =>
      obtain ⟨_, middle, hfirst, h⟩ := Step.bind_eq_ok.mp h
      have hfirst := apply_rewired hg (hmoves move List.mem_cons_self) hfirst
      have hrest := ih hfirst.wellFormed
        (fun other hother => hmoves other (List.mem_cons_of_mem move hother)) h
      exact ⟨hrest.bare.trans hfirst.bare, hrest.wellFormed,
        fun hfree => (hrest.kept hfree).trans (hfirst.kept hfree)⟩

/-- The dependency that a move replaces, and the time at which its ends issue. -/
structure Replaces (g : Graph) (move : Reanchoring) (bundle : EdgeBundle) (slot sourceSlot
    terminatorSlot : Nat) : Prop where
  edge : ∃ unit, g.units[move.target]? = some unit ∧ (move.source, bundle) ∈ unit.deps.entries
  crosses : bundle.crossBlock = true
  loose : bundle.edge.isFixedTiming = false
  target : g.slot? move.target = some slot
  source : g.slot? move.source = some sourceSlot
  terminator : g.slot? move.terminator = some terminatorSlot
  late : terminatorSlot ≤ slot
  latency : move.latency = sourceSlot + bundle.edge.latency - terminatorSlot

/-- The move is one of those that anchor the dependencies of the graph. -/
structure IsMoveOf (g : Graph) (move : Reanchoring) : Prop where
  replaces : ∃ bundle slot sourceSlot terminatorSlot,
    move.Replaces g bundle slot sourceSlot terminatorSlot
  ends : ∃ producer, g.units[move.source]? = some producer ∧
    g.terminator? producer.block = some move.terminator
  ne : move.terminator ≠ move.source

theorem IsMoveOf.within (h : move.IsMoveOf g) : move.Within fun id => (g.slot? id).isSome := by
  obtain ⟨_, _, _, _, hreplaces⟩ := h.replaces
  exact ⟨by simp [hreplaces.target], by simp [hreplaces.source], by simp [hreplaces.terminator]⟩

theorem isMoveOf_ofDep? (hg : g.Listed) {id : UnitId} {slot : Nat} {dep : UnitId × EdgeBundle}
    (hunit : g.units[id]? = some unit) (hslot : unit.slot = some slot)
    (hdep : dep ∈ unit.deps.entries) (h : ofDep? g unit slot dep = .ok (some move)) :
    move.IsMoveOf g := by
  obtain ⟨source, bundle⟩ := dep
  have hid := hg.positions hunit
  simp only [ofDep?] at h
  split at h
  · cases h
  next hmovable =>
    rw [not_or, Bool.not_eq_false, Bool.not_eq_true] at hmovable
    obtain ⟨producer, hproducer, h⟩ := Checked.bind_eq_ok.mp h
    have hproducer := unit_eq_ok.mp hproducer
    split at h
    · cases h
    next terminator hterminator =>
      obtain ⟨ending, hending, h⟩ := Checked.bind_eq_ok.mp h
      have hending := unit_eq_ok.mp hending
      split at h
      next sourceSlot terminatorSlot hsource hterminatorSlot =>
        split at h
        · cases h
        next hends =>
          obtain ⟨ready, hready, h⟩ := Checked.bind_eq_ok.mp h
          obtain ⟨_, rfl⟩ := Word.add_eq_ok.mp hready
          cases h
          rw [not_or, not_or, Nat.not_lt] at hends
          refine ⟨⟨bundle, slot, sourceSlot, terminatorSlot, ⟨unit, hid ▸ hunit, hdep⟩, hmovable.1,
            hmovable.2, ?_, ?_, ?_, hends.2.2, rfl⟩, ⟨producer, hproducer, hterminator⟩, hends.1⟩
          · rw [hid, slot?_eq hunit, hslot]
          · rw [slot?_eq hproducer, hsource]
          · rw [slot?_eq hending, hterminatorSlot]
      · cases h

theorem isMoveOf_all (hg : g.Listed) {moves : List Reanchoring} (h : all g = .ok moves)
    (hmove : move ∈ moves) : move.IsMoveOf g := by
  obtain ⟨lists, hlists, rfl⟩ := Checked.map_eq_ok.mp h
  obtain ⟨list, hlist, hmove⟩ := List.mem_flatten.mp hmove
  obtain ⟨unit, hunit, hlist⟩ := Checked.exists_of_mem_mapM hlists hlist
  obtain ⟨id, hid⟩ := List.mem_iff_getElem?.mp hunit
  rw [Array.getElem?_toList] at hid
  unfold ofUnit at hlist
  split at hlist
  · cases hlist
    exact absurd hmove List.not_mem_nil
  next slot hslot =>
    obtain ⟨dep, hdep, hmove⟩ := Checked.exists_of_mem_filterMapM hlist hmove
    exact isMoveOf_ofDep? hg hid hslot hdep hmove

end Reanchoring

/-- Anchoring dependencies anew changes nothing else, even where it fails halfway. -/
theorem Graph.keeps_reanchor : Graph.reanchor.Keeps Graph.bare := by
  unfold reanchor
  apply Step.keeps_current.bind
  intro g
  apply (Step.keeps_lift _).bind
  intro moves
  apply Step.keeps_forM
  intro move
  apply (Step.keeps_note _ _).bind
  intro _
  apply Step.Keeps.bind
  · exact Step.keeps_updateChecked fun g g' h => bare_removeDep h
  · exact fun _ => Step.keeps_updateChecked fun g g' h => bare_addDep h

/-- Only dependencies between units with slots are anchored anew. -/
theorem Graph.reanchor_rewired {now last : Journaled Graph} {result : PUnit}
    (hg : now.state.WellFormed) (h : Graph.reanchor now = .ok result last) :
    Rewired (fun id => (now.state.slot? id).isSome) now.state last.state := by
  rw [reanchor, Step.current_bind] at h
  obtain ⟨moves, hmoves, h⟩ := Step.lift_bind_eq_ok.mp h
  exact Reanchoring.applyAll_rewired hg
    (fun move hmove => (Reanchoring.isMoveOf_all hg.toListed hmoves hmove).within) h

/-! ## Anchored graphs -/

namespace Graph

variable {g h : Graph}

/-- No dependency between blocks can move: it keeps a fixed distance, its block has no terminator,
or the terminator is one of its ends. -/
def IsAnchored (g : Graph) : Prop :=
  ∀ {id : UnitId} {unit : ScheduleUnit} {dep : UnitId × EdgeBundle} {producer : ScheduleUnit}
    {terminator : UnitId}, g.units[id]? = some unit → dep ∈ unit.deps.entries →
    dep.2.crossBlock = true → dep.2.edge.isFixedTiming = false →
    g.units[dep.1]? = some producer → g.terminator? producer.block = some terminator →
    terminator = dep.1 ∨ terminator = unit.id

theorem IsAnchored.of_skeleton_eq (hg : g.IsAnchored) (hsame : h.skeleton = g.skeleton) :
    h.IsAnchored := by
  intro id unit dep producer terminator hunit hdep hcross hfixed hproducer hterminator
  obtain ⟨unit', hunit', hskeleton, _⟩ := exists_of_skeleton_eq hsame hunit
  obtain ⟨producer', hproducer', hskeleton', _⟩ := exists_of_skeleton_eq hsame hproducer
  have hentries : unit.deps.entries.map (fun dep => (dep.1, dep.2.withLatency 0)) =
      unit'.deps.entries.map fun dep => (dep.1, dep.2.withLatency 0) :=
    congrArg (fun unit => unit.deps.entries) hskeleton
  obtain ⟨⟨source, bundle⟩, hdep', heq⟩ :=
    List.mem_map.mp (hentries ▸ List.mem_map_of_mem hdep)
  obtain ⟨hsource, hbundle⟩ := Prod.mk.inj heq
  have hcross' : bundle.crossBlock = dep.2.crossBlock := congrArg (·.crossBlock) hbundle
  have hkind : bundle.edge.kind = dep.2.edge.kind := congrArg (·.edge.kind) hbundle
  have hblock : producer.block = producer'.block := congrArg (·.block) hskeleton'
  have hid : unit.id = unit'.id := congrArg (·.id) hskeleton
  have hterminators : h.terminator? = g.terminator? :=
    eq_of_skeleton_eq (·.terminator?) hsame fun _ => rfl
  have hfixed' : bundle.edge.isFixedTiming = false := by
    rw [DepEdge.isFixedTiming, hkind]
    exact hfixed
  rw [hterminators, hblock] at hterminator
  rw [← hsource] at hproducer' ⊢
  rw [hid]
  exact hg hunit' hdep' (hcross'.trans hcross) hfixed' hproducer' hterminator

end Graph

namespace Reanchoring

variable {g : Graph} {moves : List Reanchoring}

theorem ofUnit_eq_nil (hg : g.IsAnchored) {id : UnitId} {unit : ScheduleUnit}
    (hunit : g.units[id]? = some unit) (hmoves : ofUnit g unit = .ok moves) : moves = [] := by
  unfold ofUnit at hmoves
  split at hmoves
  · cases hmoves
    rfl
  next slot _ =>
    refine Checked.filterMapM_eq_nil (fun ⟨source, bundle⟩ hdep move hmove => ?_) hmoves
    simp only [ofDep?] at hmove
    split at hmove
    · exact Checked.pure_eq_ok.mp hmove
    next hmovable =>
      rw [not_or, Bool.not_eq_false, Bool.not_eq_true] at hmovable
      obtain ⟨producer, hproducer, hmove⟩ := Checked.bind_eq_ok.mp hmove
      split at hmove
      · exact Checked.pure_eq_ok.mp hmove
      next terminator hterminator =>
        have hend := hg hunit hdep hmovable.1 hmovable.2 (Graph.unit_eq_ok.mp hproducer) hterminator
        obtain ⟨ending, _, hmove⟩ := Checked.bind_eq_ok.mp hmove
        split at hmove
        · rw [if_pos (hend.imp_right Or.inl)] at hmove
          exact Checked.pure_eq_ok.mp hmove
        · exact Checked.pure_eq_ok.mp hmove

theorem all_eq_nil (hg : g.IsAnchored) (hmoves : all g = .ok moves) : moves = [] := by
  obtain ⟨lists, hlists, rfl⟩ := Checked.map_eq_ok.mp hmoves
  refine List.flatten_eq_nil_iff.mpr fun list hlist => ?_
  obtain ⟨unit, hunit, hlist⟩ := Checked.exists_of_mem_mapM hlists hlist
  obtain ⟨id, hid⟩ := List.mem_iff_getElem?.mp hunit
  rw [Array.getElem?_toList] at hid
  exact ofUnit_eq_nil hg hid hlist

end Reanchoring

/-- Where nothing can move, nothing is anchored anew. -/
theorem Graph.maintains_reanchor_of_isAnchored {P : Graph → Prop} (hP : ∀ {g}, P g → g.IsAnchored) :
    Graph.reanchor.Maintains P := by
  refine Step.maintains_current_bind fun g hg => Step.maintains_lift_bind fun moves hmoves => ?_
  rw [Reanchoring.all_eq_nil (hP hg) hmoves]
  exact Step.maintains_pure _

end SlotScheduling
