import SlotScheduling.Proofs.Freezing.Ties
import SlotScheduling.Proofs.Reachable

/-!
# Relative schedules

What freezing a block adds to a graph is exactly one edge for each unit of the block
but its terminator and its exit.  Taken as equalities, these edges give every two units
of the block the distance that their slots had, wherever the terminator goes.
-/

namespace SlotScheduling

/-- The unit without the units that depend on it. -/
def ScheduleUnit.unused (unit : ScheduleUnit) : ScheduleUnit := { unit with uses := {} }

namespace Graph

variable {sub g g' : Graph} {done : Completed} {units : List ScheduleUnit} {anchor : Option UnitId}
  {base id : Nat}

/-! ## The edges of a graph -/

/-- Each dependency as the unit that has it, the unit that it comes from, and its edge. -/
def dependencies (g : Graph) : List (UnitId × UnitId × DepEdge) :=
  g.units.toList.flatMap fun unit => unit.edges.map fun edge => (unit.id, edge)

theorem dependencies_eq (g : Graph) : g.dependencies =
    (g.units.toList.map ScheduleUnit.unused).flatMap fun unit =>
      unit.edges.map fun edge => (unit.id, edge) := by
  rw [List.flatMap_map]
  rfl

/-- The edges that freeze a block, between the new positions of its units. -/
def freezingTies (base : Nat) (anchor : Option UnitId) (done : Completed) :
    List (UnitId × UnitId × DepEdge) :=
  done.freezingEdges.map fun edge =>
    (relocate base anchor edge.1, relocate base anchor edge.2.1, .fixedTiming edge.2.2)

theorem unused_changeUnits_addUse {sources : List UnitId}
    (h : g.changeUnits sources (·.addUse id) = .ok g') :
    g'.units.map ScheduleUnit.unused = g.units.map ScheduleUnit.unused := by
  refine Checked.foldlM_induction
    (P := fun changed : Graph => changed.units.map ScheduleUnit.unused =
      g.units.map ScheduleUnit.unused) (fun source _ before after hbefore hround => ?_) rfl h
  obtain ⟨_, rfl⟩ := changeUnit_eq_ok.mp hround
  have hsame : (before.units.modify source (·.addUse id)).map ScheduleUnit.unused =
      before.units.map ScheduleUnit.unused := map_modify_eq fun _ => rfl
  exact hsame.trans hbefore

theorem unused_registerUses (h : g.registerUses base = .ok g') :
    g'.units.map ScheduleUnit.unused = g.units.map ScheduleUnit.unused :=
  Checked.foldlM_induction
    (P := fun changed : Graph => changed.units.map ScheduleUnit.unused =
      g.units.map ScheduleUnit.unused)
    (fun _ _ _ _ hbefore hround => by
      obtain ⟨_, _, hround⟩ := Checked.bind_eq_ok.mp hround
      exact (unused_changeUnits_addUse hround).trans hbefore) rfl h

/-- The units of a frozen block come after those that were there. -/
theorem units_of_absorb (h : g.absorb done anchor = .ok g') :
    ∃ units, done.frozenUnits = .ok units ∧ g'.units.toList.map ScheduleUnit.unused =
      g.units.toList.map ScheduleUnit.unused ++
        (movedUnits g.units.size anchor units).map ScheduleUnit.unused := by
  obtain ⟨units, hunits, h⟩ := Checked.bind_eq_ok.mp h
  obtain ⟨registered, hregister, h⟩ := Checked.bind_eq_ok.mp h
  obtain rfl := Checked.pure_eq_ok.mp h
  obtain ⟨hgrown, _⟩ := foldl_adopt g (movedUnits g.units.size anchor units)
  have hregister : Graph.registerUses
      ((movedUnits g.units.size anchor units).foldl adopt g) g.units.size = .ok registered :=
    hregister
  have hsame := congrArg Array.toList (unused_registerUses hregister)
  rw [hgrown] at hsame
  simp only [Array.toList_map, Array.toList_append, List.map_append] at hsame
  exact ⟨units, hunits, hsame⟩

/-! ## What a block adds -/

theorem edges_renameUnit (rename : UnitId → UnitId) (unit : ScheduleUnit) :
    (renameUnit rename unit).edges = unit.edges.map fun edge => (rename edge.1, edge.2) := by
  simp only [ScheduleUnit.edges, renameUnit, List.map_map]
  rfl

/-- Nothing leads into an entry that does not issue after the terminator. -/
theorem edgesInto_zero (h : Complete sub done) {s t : Nat} (hs : sub.slot? 0 = some s)
    (ht : sub.slot? done.terminator = some t) (hle : s ≤ t) :
    Completed.edgesInto done.freezingEdges 0 = [] := by
  have hlast : done.terminator < done.exit := h.last ▸ Nat.lt_succ_self _
  have hfirst : 0 < done.exit := h.last ▸ Nat.succ_pos _
  rw [Completed.edgesInto, List.map_eq_nil_iff, List.filter_eq_nil_iff]
  intro edge hedge
  rw [Completed.freezingEdges_eq h] at hedge
  obtain ⟨id, hid, rfl⟩ := List.mem_map.mp hedge
  rw [List.mem_range] at hid
  rw [decide_eq_true_eq, freezingEdge]
  split
  · exact Nat.ne_of_gt (Nat.zero_lt_of_lt hid)
  next hlate =>
    rintro rfl
    rw [List.getD_eq_getElem?_getD, List.getD_eq_getElem?_getD,
      Completed.getElem?_migrantSlots h hlast ht,
      Completed.getElem?_migrantSlots h hfirst hs] at hlate
    exact hlate hle

/-- The frozen units have the edges that freeze them, and no others. -/
theorem perm_frozenUnits (h : Complete sub done) (hlength : units.length = done.exit)
    (hsub : sub.Listed) (hunits : ∀ {id : UnitId} {unit' : ScheduleUnit}, units[id]? = some unit' →
      ∃ unit, sub.units[id]? = some unit ∧ unit'.bare = unit.frozen ∧
        unit'.edges = Completed.edgesInto done.freezingEdges id) :
    (units.flatMap fun unit => unit.edges.map fun edge => (unit.id, edge)).Perm
      (done.freezingEdges.map fun edge => (edge.1, edge.2.1, .fixedTiming edge.2.2)) := by
  have hlist : (units.map fun unit => (unit.id, unit.edges)) =
      (List.range done.exit).map fun id => (id, Completed.edgesInto done.freezingEdges id) := by
    refine List.ext_getElem (by simp [hlength]) fun id hid _ => ?_
    rw [List.length_map] at hid
    obtain ⟨unit, hunit, hbare, hedges⟩ := hunits (List.getElem?_eq_getElem hid)
    have hposition : units[id].id = unit.id := by
      have hposition := congrArg ScheduleUnit.id hbare
      exact hposition
    rw [List.getElem_map, List.getElem_map, List.getElem_range, hedges, hposition,
      hsub.positions hunit]
  have hflat : (units.flatMap fun unit => unit.edges.map fun edge => (unit.id, edge)) =
      ((List.range done.exit).flatMap fun id => done.freezingEdges.filter (·.1 = id)).map
        fun edge => (edge.1, edge.2.1, DepEdge.fixedTiming edge.2.2) := by
    calc (units.flatMap fun unit => unit.edges.map fun edge => (unit.id, edge))
        = (units.map fun unit => (unit.id, unit.edges)).flatMap fun unit =>
            unit.2.map fun edge => (unit.1, edge) := by rw [List.flatMap_map]
      _ = (List.range done.exit).flatMap fun id =>
            (Completed.edgesInto done.freezingEdges id).map fun edge => (id, edge) := by
          rw [hlist, List.flatMap_map]
      _ = _ := by
          rw [List.map_flatMap]
          refine List.flatMap_congr fun id _ => ?_
          rw [Completed.edgesInto, List.map_map]
          refine List.map_congr_left fun edge hedge => ?_
          have hid : edge.1 = id := by simpa using (List.mem_filter.mp hedge).2
          rw [← hid]
          rfl
  rw [hflat]
  refine (perm_flatMap_filter fun edge hedge => ?_).map _
  rw [h.last]
  rcases Completed.of_mem_freezingEdges h hedge with ⟨htarget, -⟩ | ⟨htarget, -⟩
  · rw [htarget]
    exact Nat.lt_succ_self _
  · exact Nat.lt_succ_of_lt htarget

/-- The edges that freeze a block are the only new ones. -/
theorem perm_dependencies (hsub : sub.Listed) (hdone : Complete sub done) {s t : Nat}
    (hs : sub.slot? 0 = some s) (ht : sub.slot? done.terminator = some t) (hle : s ≤ t)
    (h : g.absorb done anchor = .ok g') :
    g'.dependencies.Perm (g.dependencies ++ freezingTies g.units.size anchor done) := by
  obtain ⟨units, hunits, hsame⟩ := units_of_absorb h
  obtain ⟨_, hfrozen, hlength, hadded⟩ := Completed.exists_frozenUnits hsub hdone
  obtain rfl := Except.ok.inj (hunits.symm.trans hfrozen)
  let name := relocate g.units.size anchor
  have hmoved : ((movedUnits g.units.size anchor units).flatMap fun unit =>
      unit.edges.map fun edge => (unit.id, edge)) =
        (units.flatMap fun unit => unit.edges.map fun edge => (unit.id, edge)).map
          fun tie => (name tie.1, name tie.2.1, tie.2.2) := by
    have hkept : ((if anchor.isSome then units.drop 1 else units).flatMap fun unit =>
        unit.edges.map fun edge => (unit.id, edge)) =
          units.flatMap fun unit => unit.edges.map fun edge => (unit.id, edge) := by
      cases units with
      | nil => simp
      | cons first rest =>
          have hhead : (first :: rest)[0]? = some first := rfl
          obtain ⟨_, _, _, hfirst⟩ := hadded hhead
          rw [edgesInto_zero hdone hs ht hle] at hfirst
          split <;> simp [hfirst]
    rw [← hkept, movedUnits, List.flatMap_map, List.map_flatMap]
    refine List.flatMap_congr fun unit _ => ?_
    rw [edges_renameUnit, List.map_map, List.map_map]
    rfl
  rw [dependencies_eq, hsame, List.flatMap_append, ← dependencies_eq]
  refine List.Perm.append_left _ ?_
  rw [List.flatMap_map]
  have hties := (perm_frozenUnits hdone hlength hsub hadded).map
    fun tie => (name tie.1, name tie.2.1, tie.2.2)
  rw [← hmoved, List.map_map] at hties
  exact hties

/-- The edges that freeze a block give its units the distances that their slots have. -/
theorem slots_of_freezingTies (h : Complete sub done) {slot : UnitId → Int}
    (hties : ∀ tie ∈ freezingTies base anchor done,
      slot tie.1 - slot tie.2.1 = tie.2.2.latency) {s t : Nat} (hid : id < done.exit)
    (hs : sub.slot? id = some s) (ht : sub.slot? done.terminator = some t) :
    slot (relocate base anchor id) - slot (relocate base anchor done.terminator) =
      (s : Int) - t := by
  have hlast : done.terminator < done.exit := h.last ▸ Nat.lt_succ_self _
  rw [h.last] at hid
  rcases Nat.lt_succ_iff_lt_or_eq.mp hid with hlt | rfl
  · have hmem : freezingEdge done.terminator t id s ∈ done.freezingEdges := by
      rw [Completed.freezingEdges_eq h]
      refine List.mem_map.mpr ⟨id, List.mem_range.mpr hlt, ?_⟩
      rw [List.getD_eq_getElem?_getD, List.getD_eq_getElem?_getD,
        Completed.getElem?_migrantSlots h hlast ht,
        Completed.getElem?_migrantSlots h (h.last ▸ hid) hs]
      rfl
    have htie := hties _ (List.mem_map_of_mem hmem)
    unfold freezingEdge at htie
    split at htie
    · simp only [DepEdge.fixedTiming] at htie
      omega
    · simp only [DepEdge.fixedTiming] at htie
      omega
  · rw [hs] at ht
    cases ht
    simp

/-- The terminator of the block does not issue before its entry. -/
def EndsAfterEntry (sub : Graph) : Prop :=
  ∀ {terminator s t}, sub.terminator? sub.entryBlock = some terminator →
    sub.slot? sub.entryRoot = some s → sub.slot? terminator = some t → s ≤ t

/-- Merge a graph behind the units that are there, or with its entry folded into one of them. -/
def mergeAt (sub : Graph) : Option UnitId → Step Graph UnitId
  | none => merge sub
  | some entry => mergeOnto sub entry

/-- What merging a block changes in a graph. -/
structure Freezes (sub : Graph) (anchor : Option UnitId) (g g' : Graph) : Prop where
  size : g'.units.size = g.units.size + (sub.units.size - if anchor.isSome then 2 else 1)
  old : ∀ {id : UnitId} {unit : ScheduleUnit}, g.units[id]? = some unit →
    ∃ uses, g'.units[id]? = some { unit with uses }
  migrated : ∀ {id : UnitId} {unit : ScheduleUnit}, Moves anchor id → id + 1 < sub.units.size →
    sub.units[id]? = some unit → ∃ deps uses,
      g'.units[relocate g.units.size anchor id]? = some { unit with
        id := relocate g.units.size anchor id, deps, uses
        slot := none, dangling := false, fixedTiming := true }
  placed : ∀ {id : UnitId}, id + 1 < sub.units.size → ∃ s, sub.slot? id = some s
  /-- The new dependencies keep the units of the block as far from each other as they were. -/
  tied : ∃ ties, g'.dependencies.Perm (g.dependencies ++ ties) ∧
    ties.length = sub.units.size - 2 ∧
    (∀ tie ∈ ties, ∃ distance, tie.2.2 = .fixedTiming distance) ∧
    ∀ slot : UnitId → Int, (∀ tie ∈ ties, slot tie.1 - slot tie.2.1 = tie.2.2.latency) →
      ∀ {id other : UnitId} {s s' : Nat}, id + 1 < sub.units.size → other + 1 < sub.units.size →
        sub.slot? id = some s → sub.slot? other = some s' →
        slot (relocate g.units.size anchor id) - slot (relocate g.units.size anchor other) =
          (s : Int) - s'

/-- The units of a block that join a graph are all but its exit, and but its folded entry. -/
theorem relocate_last (base : Nat) (anchor : Option UnitId) {exit : Nat} (hexit : 1 ≤ exit) :
    relocate base anchor exit = base + (exit + 1 - if anchor.isSome then 2 else 1) := by
  cases anchor with
  | none =>
      rw [relocate_none, Option.isSome_none, if_neg Bool.false_ne_true, Nat.add_sub_cancel]
      exact Nat.add_comm exit base
  | some unit =>
      rw [relocate_some unit (Nat.ne_of_gt hexit), Option.isSome_some, if_pos rfl]
      show exit + base - 1 = base + (exit + 1 - 2)
      omega

theorem lt_size_of_mergeAt {now last : Journaled Graph} {entry : UnitId}
    (h : mergeAt sub anchor now = .ok entry last) :
    ∀ unit ∈ anchor, unit < now.state.units.size := by
  rintro unit ⟨⟩
  have h : mergeOnto sub unit now = .ok entry last := h
  rw [mergeOnto, Step.current_bind] at h
  rcases Step.ite_eq_ok.mp h with ⟨_, h⟩ | ⟨_, h⟩
  · obtain ⟨found, hfound, _⟩ := Step.lift_bind_eq_ok.mp h
    exact lt_size_of_getElem? (unit_eq_ok.mp hfound)
  · exact absurd h Step.fail_ne_ok

theorem freezeInto_of_mergeAt {now last : Journaled Graph} {entry : UnitId}
    (h : mergeAt sub anchor now = .ok entry last) : freezeInto sub anchor now = .ok entry last := by
  cases anchor with
  | none => exact h
  | some unit => exact mergeOnto_eq_ok h

theorem exists_old_of_unused_eq {more : List ScheduleUnit} {unit : ScheduleUnit}
    (h : g'.units.toList.map ScheduleUnit.unused =
      g.units.toList.map ScheduleUnit.unused ++ more)
    (hunit : g.units[id]? = some unit) : ∃ uses, g'.units[id]? = some { unit with uses } := by
  have hlt : id < g.units.size := lt_size_of_getElem? hunit
  have hget : (g'.units.toList.map ScheduleUnit.unused)[id]? = some unit.unused := by
    rw [h, List.getElem?_append_left (by simpa using hlt), List.getElem?_map,
      Array.getElem?_toList, hunit, Option.map_some]
  rw [List.getElem?_map, Array.getElem?_toList] at hget
  obtain ⟨unit', hunit', hsame⟩ := Option.map_eq_some_iff.mp hget
  refine ⟨unit'.uses, hunit'.trans (congrArg some ?_)⟩
  calc unit' = { unit'.unused with uses := unit'.uses } := rfl
    _ = { unit with uses := unit'.uses } := by rw [hsame]; rfl

/-- Merging a block freezes exactly its relative schedule. -/
theorem freezes_of_mergeAt {now last : Journaled Graph} {entry : UnitId}
    (hg : now.state.Reachable) (hsub : sub.Reachable) (hends : sub.EndsAfterEntry)
    (h : mergeAt sub anchor now = .ok entry last) :
    entry = relocate now.state.units.size anchor sub.entryRoot ∧
      Freezes sub anchor now.state last.state := by
  have hlisted := hsub.coherent.toListed
  obtain ⟨done, hcompleted, habsorb, hentry⟩ := freezeInto_eq_ok (freezeInto_of_mergeAt h)
  have hdone := completed_eq_ok hlisted hcompleted
  obtain ⟨habsorbs, _⟩ := absorb_eq_ok hg.coherent.toWellFormed hlisted hdone
    (lt_size_of_mergeAt h) habsorb
  have hlast : done.terminator < done.exit := hdone.last ▸ Nat.lt_succ_self _
  have hbefore : ∀ {id : UnitId}, id + 1 < sub.units.size → id < done.exit := by
    intro id hid
    rw [hdone.size] at hid
    exact Nat.lt_of_succ_lt_succ hid
  obtain ⟨s, hs⟩ := hdone.placed (Nat.zero_lt_of_lt hlast)
  obtain ⟨t, ht⟩ := hdone.placed hlast
  have hperm := perm_dependencies hlisted hdone hs ht (hends hdone.terminator hs ht) habsorb
  refine ⟨hentry, ?_, fun hunit => ?_, fun {id unit} hmoves hid hunit => ?_,
    fun hid => hdone.placed (hbefore hid), _, hperm, ?_, fun tie htie => ?_,
    fun slot hties {id other s s'} hid hother hs hs' => ?_⟩
  · rw [habsorbs.size, hdone.size]
    exact relocate_last _ _ (Nat.one_le_of_lt hlast)
  · obtain ⟨_, _, hsame⟩ := units_of_absorb habsorb
    exact exists_old_of_unused_eq hsame hunit
  · obtain ⟨unit', hunit', hsame⟩ :=
      Option.map_eq_some_iff.mp (habsorbs.moved hmoves (hbefore hid) hunit)
    refine ⟨unit'.deps, unit'.uses, hunit'.trans (congrArg some ?_)⟩
    calc unit' = { unit'.bare with deps := unit'.deps, uses := unit'.uses } := rfl
      _ = _ := by rw [hsame]; rfl
  · rw [freezingTies, List.length_map, Completed.length_freezingEdges hdone, hdone.size, hdone.last]
    rfl
  · obtain ⟨edge, _, rfl⟩ := List.mem_map.mp htie
    exact ⟨_, rfl⟩
  · have hapart := slots_of_freezingTies hdone hties (hbefore hid) hs ht
    have hapart' := slots_of_freezingTies hdone hties (hbefore hother) hs' ht
    omega

theorem endsAfterEntry_scheduledBlock : scheduledBlock.EndsAfterEntry := by
  intro terminator s t hterminator hs ht
  have hlast : scheduledBlock.terminator? scheduledBlock.entryBlock = some 3 := by decide +kernel
  have hfirst : scheduledBlock.slot? scheduledBlock.entryRoot = some 1 := by decide +kernel
  have hslot : scheduledBlock.slot? 3 = some 4 := by decide +kernel
  obtain rfl := Option.some.inj (hlast.symm.trans hterminator)
  obtain rfl := Option.some.inj (hfirst.symm.trans hs)
  obtain rfl := Option.some.inj (hslot.symm.trans ht)
  decide

/-- The block in front of the scheduled one: an access and a branch, with slots. -/
def leadingBlock : Graph :=
  (start 0 1).after [
    .createUnit (.op 3) 0 ⟨.memoryBus, 0⟩ true 1,
    .createUnit (.op 4) 0 .trivial true 0,
    .addDep 1 0 (.value 0),
    .addDep 2 1 (.value 3),
    .setTerminator 0 2,
    .place 0 1,
    .place 1 1,
    .place 2 4]

/-- The block in front, and a free entry of the block to come. -/
def leadingEntry : Graph := leadingBlock.after [.createEntry 1, .place 3 4]

/-- The scheduled block joins the one in front, as a whole or with its entry folded. -/
theorem freezes_scheduledBlock :
    (∃ last, mergeAt scheduledBlock none ⟨leadingBlock, {}⟩ = .ok 3 last ∧
      Freezes scheduledBlock none leadingBlock last.state) ∧
    ∃ last, mergeAt scheduledBlock (some 3) ⟨leadingEntry, {}⟩ = .ok 3 last ∧
      Freezes scheduledBlock (some 3) leadingEntry last.state := by
  have hscheduled : scheduledBlock.Reachable :=
    (Reachable.start 1 1).after (by simp [Call.merged])
  have hleading : leadingBlock.Reachable := (Reachable.start 0 1).after (by simp [Call.merged])
  have hfreezes : ∀ {g : Graph} {anchor entry}, g.Reachable →
      (mergeAt scheduledBlock anchor).succeeds ⟨g, {}⟩ (· = entry) = true →
        ∃ last, mergeAt scheduledBlock anchor ⟨g, {}⟩ = .ok entry last ∧
          Freezes scheduledBlock anchor g last.state := by
    intro g anchor entry hg hsucceeds
    obtain ⟨entry', last, hmerge, htest⟩ := Step.exists_of_succeeds hsucceeds
    obtain rfl : entry' = entry := of_decide_eq_true htest
    have hnow : (Journaled.mk g {}).state.Reachable := hg
    exact ⟨last, hmerge,
      (freezes_of_mergeAt hnow hscheduled endsAfterEntry_scheduledBlock hmerge).2⟩
  exact ⟨hfreezes hleading (by decide +kernel),
    hfreezes (hleading.after (by simp [Call.merged])) (by decide +kernel)⟩

end Graph

end SlotScheduling
