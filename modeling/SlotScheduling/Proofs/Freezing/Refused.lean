import SlotScheduling.Proofs.Failures
import SlotScheduling.Proofs.Freezing.Relative

/-!
# Refused merges

Once a graph is found to be complete, its units always fit in, so that a merge which is
refused has changed nothing.  One case is left: a block of an entry and an exit, which is
its own terminator, is folded into an entry that does not come last.  It is refused after
its tables were taken over, and they stay.
-/

namespace SlotScheduling.Graph

variable {sub g g' : Graph} {done : Completed} {anchor : Option UnitId} {base id source : Nat}

/-! ## Units that fit in -/

theorem deps_of_unused_eq {unit : ScheduleUnit}
    (h : g'.units.map ScheduleUnit.unused = g.units.map ScheduleUnit.unused)
    (hunit : g.units[id]? = some unit) :
    ∃ unit', g'.units[id]? = some unit' ∧ unit'.deps = unit.deps := by
  have hget := congrArg (fun units : Array ScheduleUnit => units[id]?) h
  simp only [Array.getElem?_map, hunit, Option.map_some] at hget
  obtain ⟨unit', hunit', hsame⟩ := Option.map_eq_some_iff.mp hget
  have hdeps := congrArg ScheduleUnit.deps hsame
  exact ⟨unit', hunit', hdeps⟩

theorem exists_registerUses
    (hsources : ∀ {user source : UnitId}, g.DependsOn user source → source < g.units.size) :
    ∃ g', g.registerUses base = .ok g' := by
  refine (Checked.exists_foldlM (P := fun changed : Graph =>
    changed.units.map ScheduleUnit.unused = g.units.map ScheduleUnit.unused)
    (fun id hid changed hsame => ?_) rfl).imp fun _ h => h.1
  have hcount : ∀ id size : Nat, base ≤ id → id < base + (size - base) → id < size := by omega
  obtain ⟨hle, hlt⟩ := List.mem_range'_1.mp hid
  have hlt := hcount id g.units.size hle hlt
  have hunit := Array.getElem?_eq_getElem hlt
  obtain ⟨unit', hunit', hdeps⟩ := deps_of_unused_eq hsame hunit
  have hsize : changed.units.size = g.units.size := by
    simpa using congrArg Array.size hsame
  obtain ⟨next, hnext⟩ : ∃ next, changed.changeUnits unit'.deps.keys (·.addUse id) = .ok next := by
    refine exists_changeUnits fun source hsource => ?_
    rw [hsize]
    exact hsources ⟨_, hunit, hdeps ▸ hsource⟩
  refine ⟨next, Checked.bind_eq_ok.mpr ⟨unit', unit_eq_ok.mpr hunit', hnext⟩, ?_⟩
  exact (unused_changeUnits_addUse hnext).trans hsame

/-- What the units of a block depend on comes to stand within the grown graph. -/
theorem relocate_lt_exit (hanchor : ∀ unit ∈ anchor, unit < base) {exit : Nat}
    (hlt : source < exit) : relocate base anchor source < relocate base anchor exit := by
  by_cases hmoves : Moves anchor source
  · exact relocate_lt hmoves hlt
  · obtain ⟨hsome, hzero⟩ := not_or.mp hmoves
    obtain rfl := not_not.mp hzero
    obtain ⟨unit, rfl⟩ := Option.ne_none_iff_exists'.mp hsome
    have hle : base ≤ relocate base (some unit) exit :=
      base_le_relocate (Or.inr (Nat.ne_of_gt hlt))
    exact (hanchor unit rfl).trans_le hle

/-- What the units of a grown graph depend on is in it. -/
theorem Adopted.source_lt {units : List ScheduleUnit} {user : UnitId}
    (h : Adopted units anchor g g') (hg : g.Coherent) (hdone : Complete sub done)
    (hanchor : ∀ unit ∈ anchor, unit < g.units.size)
    (hedges : ∀ {id : UnitId} {unit : ScheduleUnit}, units[id]? = some unit →
      unit.edges = Completed.edgesInto done.freezingEdges id)
    (hdepends : g'.DependsOn user source) : source < relocate g.units.size anchor done.exit := by
  obtain ⟨unit, hunit, hsource⟩ := hdepends
  by_cases huser : user < g.units.size
  · rw [h.old huser] at hunit
    have hmoves : Moves anchor done.exit := Or.inr (hdone.last ▸ Nat.succ_ne_zero _)
    exact (hg.sources ⟨unit, hunit, hsource⟩).trans_le (base_le_relocate hmoves)
  · obtain ⟨id, hmoves, rfl⟩ := exists_relocate anchor (Nat.not_lt.mp huser)
    rw [h.new hmoves] at hunit
    obtain ⟨frozen, hfrozen, rfl⟩ := Option.map_eq_some_iff.mp hunit
    rw [ScheduleUnit.keys_eq, edges_renameUnit, hedges hfrozen, List.map_map] at hsource
    obtain ⟨edge, hedge, rfl⟩ := List.mem_map.mp hsource
    obtain ⟨old, hold, rfl⟩ := List.mem_map.mp hedge
    refine relocate_lt_exit hanchor ?_
    rw [hdone.last]
    rcases Completed.of_mem_freezingEdges hdone (List.mem_filter.mp hold).1 with
      ⟨_, hlt⟩ | ⟨_, heq⟩
    · exact Nat.lt_succ_of_lt hlt
    · exact heq ▸ Nat.lt_succ_self _

/-- A complete graph always fits in. -/
theorem exists_absorb (hg : g.Coherent) (hsub : sub.Listed) (hdone : Complete sub done)
    (hanchor : ∀ unit ∈ anchor, unit < g.units.size) : ∃ g', g.absorb done anchor = .ok g' := by
  obtain ⟨units, hunits, hlength, hadded⟩ := Completed.exists_frozenUnits hsub hdone
  have hmoves : Moves anchor units.length :=
    hlength ▸ Or.inr (hdone.last ▸ Nat.succ_ne_zero _)
  obtain ⟨registered, hregister⟩ : ∃ g', Graph.registerUses
      ((movedUnits g.units.size anchor units).foldl adopt g) g.units.size = .ok g' := by
    refine exists_registerUses fun hdepends => ?_
    rw [size_foldl_adopt hmoves, hlength]
    have hadopted := adopted_foldl_adopt units anchor g
    refine hadopted.source_lt hg hdone hanchor (fun hunit => ?_) hdepends
    obtain ⟨_, _, _, hedges⟩ := hadded hunit
    exact hedges
  exact ⟨_, Checked.bind_eq_ok.mpr ⟨units, hunits,
    Checked.bind_eq_ok.mpr ⟨registered, hregister, rfl⟩⟩⟩

/-- Of a block that is its own terminator, nothing but its tables comes along. -/
theorem absorb_of_lone (hsub : sub.Listed) (hdone : Complete sub done) {entry : UnitId}
    (hlone : done.terminator = 0) (h : g.absorb done (some entry) = .ok g') :
    g' = g.adoptTables sub true (relocate g.units.size (some entry)) := by
  obtain ⟨units, hunits, h⟩ := Checked.bind_eq_ok.mp h
  obtain ⟨registered, hregister, h⟩ := Checked.bind_eq_ok.mp h
  obtain ⟨_, hfrozen, hlength, _⟩ := Completed.exists_frozenUnits hsub hdone
  obtain rfl := Except.ok.inj (hunits.symm.trans hfrozen)
  have hnone : units.drop 1 = [] := by
    rw [List.drop_eq_nil_iff, hlength, hdone.last, hlone]
  rw [Option.isSome_some, if_pos rfl, hnone] at hregister
  have hregister : g.registerUses g.units.size = .ok registered := hregister
  rw [registerUses, Nat.sub_self] at hregister
  obtain rfl : registered = g := Checked.pure_eq_ok.mp hregister
  exact (Checked.pure_eq_ok.mp h).trans (by rw [hdone.graph]; rfl)

/-! ## Merges that fail -/

variable {now last : Journaled Graph} {failure : Failure}

theorem last_of_fail {σ α : Type} {cause : SchedulingError} {now last : Journaled σ}
    (h : (Step.fail cause : Step σ α) now = .error failure last) : last = now := by
  cases h
  rfl

/-- The last check of a merge fails only for a block that is its own terminator. -/
theorem lone_of_relocate_ne (hdone : Complete sub done)
    (h : relocate base anchor done.exit ≠ relocate base anchor done.terminator + 1) :
    ∃ entry, anchor = some entry ∧ done.terminator = 0 ∧ base ≠ entry + 1 := by
  rw [hdone.last] at h
  cases anchor with
  | none => exact absurd (Nat.add_right_comm _ _ _) h
  | some entry =>
      rw [relocate_some entry (Nat.succ_ne_zero _)] at h
      refine ⟨entry, rfl, ?_⟩
      by_cases hzero : done.terminator = 0
      · rw [hzero] at h
        have hbase : Nat.succ 0 + base - 1 = base := by omega
        exact ⟨hzero, hbase ▸ h⟩
      · rw [relocate_some entry hzero] at h
        have hnext : ∀ terminator : Nat, terminator ≠ 0 →
            terminator + 1 + base - 1 = terminator + base - 1 + 1 := by omega
        exact absurd (hnext _ hzero) h

theorem freezeInto_cases_of_error (hg : now.state.Coherent) (hsub : sub.Listed)
    (hanchor : ∀ unit ∈ anchor, unit < now.state.units.size)
    (h : freezeInto sub anchor now = .error failure last) :
    (last = now ∧ sub.completed = .error failure) ∨
      ∃ entry, anchor = some entry ∧ sub.units.size = 2 ∧ now.state.units.size ≠ entry + 1 ∧
        last = ⟨now.state.adoptTables sub true (relocate now.state.units.size anchor),
          now.journal⟩ := by
  unfold freezeInto at h
  rcases Step.bind_eq_error.mp h with hlift | ⟨done, middle, hlift, hrest⟩
  · obtain ⟨hcompleted, rfl⟩ := Step.lift_eq_error.mp hlift
    exact Or.inl ⟨rfl, hcompleted⟩
  clear h
  obtain ⟨hcompleted, rfl⟩ := Step.lift_eq_ok.mp hlift
  have hdone := completed_eq_ok hsub hcompleted
  rw [Step.current_bind] at hrest
  obtain ⟨absorbed, habsorb⟩ := exists_absorb hg hsub hdone hanchor
  have hupdate : Step.updateChecked (·.absorb done anchor) middle =
      .ok ⟨⟩ ⟨absorbed, middle.journal⟩ :=
    Step.updateChecked_eq_ok.mpr ⟨absorbed, habsorb, rfl⟩
  rw [Step.bind_of_eq_ok hupdate, Step.current_bind] at hrest
  have hsize := (absorb_eq_ok hg.toWellFormed hsub hdone hanchor habsorb).1.size
  split at hrest
  next hne =>
    have hne : absorbed.units.size ≠ relocate middle.state.units.size anchor done.terminator + 1 :=
      hne
    obtain ⟨entry, rfl, hlone, hlast⟩ := lone_of_relocate_ne hdone (hsize ▸ hne)
    refine Or.inr ⟨entry, rfl, by rw [hdone.size, hdone.last, hlone], hlast, ?_⟩
    rw [← absorb_of_lone hsub hdone hlone habsorb]
    cases hrest
    rfl
  next => cases hrest

/-- Behind the units that are there, a graph is refused only if it is not complete. -/
theorem merge_eq_error_iff (hg : now.state.Reachable) (hsub : sub.Reachable) :
    merge sub now = .error failure last ↔ sub.completed = .error failure ∧ last = now := by
  constructor
  · intro h
    rcases freezeInto_cases_of_error hg.coherent hsub.coherent.toListed
      (fun unit hunit => by cases hunit) h with ⟨hlast, hfail⟩ | ⟨_, hanchor, _⟩
    · exact ⟨hfail, hlast⟩
    · cases hanchor
  · intro hfail
    exact Step.bind_eq_error.mpr (Or.inl (Step.lift_eq_error.mpr hfail))

/-- A merge that is refused has changed nothing, unless it folds a block that is its own terminator
into an entry that does not come last. -/
theorem mergeAt_cases_of_error (hg : now.state.Reachable) (hsub : sub.Reachable)
    (h : mergeAt sub anchor now = .error failure last) :
    last = now ∨ ∃ entry, anchor = some entry ∧ sub.units.size = 2 ∧
      now.state.units.size ≠ entry + 1 ∧
      last = ⟨now.state.adoptTables sub true (relocate now.state.units.size anchor),
        now.journal⟩ := by
  have hfreeze : ∀ {anchor : Option UnitId}, (∀ unit ∈ anchor, unit < now.state.units.size) →
      freezeInto sub anchor now = .error failure last → _ := fun hanchor h =>
    (freezeInto_cases_of_error hg.coherent hsub.coherent.toListed hanchor h).imp_left And.left
  cases anchor with
  | none => exact hfreeze (fun unit hunit => by cases hunit) h
  | some entry =>
      have h : mergeOnto sub entry now = .error failure last := h
      rw [mergeOnto, Step.current_bind] at h
      split at h
      next =>
        rcases Step.bind_eq_error.mp h with hfail | ⟨unit, middle, hlift, hrest⟩
        · exact Or.inl (Step.lift_eq_error.mp hfail).2
        obtain ⟨hunit, rfl⟩ := Step.lift_eq_ok.mp hlift
        split at hrest
        · exact Or.inl (last_of_fail hrest)
        · refine hfreeze (fun unit' hunit' => ?_) hrest
          cases hunit'
          exact lt_size_of_getElem? (unit_eq_ok.mp hunit)
      next => exact Or.inl (last_of_fail h)

/-- A graph of an entry, which is its own terminator, and an exit. -/
def loneEntry : Graph :=
  (start 0 1).after [.setTerminator 0 0, .setInterval 0 4, .createExit 0, .place 0 1]

/-- The lone entry is refused where another unit follows the entry, and leaves its tables there. -/
theorem tables_of_refused_loneEntry :
    loneEntry.Reachable ∧ ∃ failure last, mergeAt loneEntry (some 0)
        ⟨(start 0 1).createUnit (.op 0) 0 .trivial true 0, {}⟩ = .error failure last ∧
      last.state.terminators.entries = [(0, 0)] ∧ last.state.intervals.entries = [(0, 4)] := by
  refine ⟨(Reachable.start 0 1).after (by simp [Call.merged]), _, _, rfl, ?_, ?_⟩ <;> decide +kernel

end SlotScheduling.Graph
