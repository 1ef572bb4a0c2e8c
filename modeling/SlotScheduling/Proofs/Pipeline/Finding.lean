import SlotScheduling.Proofs.Pipeline.Started

/-!
# Searches that find a schedule

On the graph of a loop with small numbers every round of a search relaxes one bound, neither bound
passes what it is limited to, and at the limits there is a schedule.  The schedule that is found can
be committed.
-/

namespace SlotScheduling

namespace Graph

variable {g : Graph} {id : UnitId} {interval : Nat} {now : Journaled Graph}
  {ends : List (BlockId × Option Nat)}

/-! ## Delaying moves -/

/-- A delay by the interval keeps the unit within its block. -/
structure Delayable (ends : List (BlockId × Option Nat)) (interval : Nat) (g : Graph)
    (id : UnitId) : Prop where
  known : ∀ {unit}, g.units[id]? = some unit → g.interval? unit.block = some interval
  fits : ∀ {unit}, g.units[id]? = some unit → unit.phi = true → ∃ slot, g.slot? id = some slot ∧
    slot + interval < Word.count ∧
      slot + interval ≤ ((ends.find? (·.1 = unit.block)).bind Prod.snd).getD 0

theorem Delayable.exists_delayPhi (h : Delayable ends interval now.state id)
    (hlt : id < now.state.units.size) :
    ∃ last, delayPhi ends id now = .ok ⟨⟩ last ∧ Delayed interval [id] now.state last.state := by
  have hunit := Array.getElem?_eq_getElem hlt
  suffices hrun : ∃ last, delayPhi ends id now = .ok ⟨⟩ last from
    hrun.imp fun _ hrun => ⟨hrun, delayed_delayPhi h.known hrun⟩
  rw [delayPhi, Step.current_bind, Step.lift_bind_of_eq_ok (unit_eq_ok.mpr hunit)]
  split
  next hphi =>
    obtain ⟨slot, hslot, hword, hle⟩ := h.fits hunit hphi
    simp only [h.known hunit, (slot?_eq hunit).symm.trans hslot]
    rw [Step.lift_bind_of_eq_ok (Word.add_eq_ok.mpr ⟨hword, rfl⟩), if_neg (by omega)]
    exact ⟨_, Step.updateChecked_eq_ok.mpr ⟨_, changeUnit_eq_ok.mpr ⟨hlt, rfl⟩, rfl⟩⟩
  next => exact ⟨now, rfl⟩

theorem Delayable.of_delayed {g' : Graph} {other : UnitId} (h : Delayable ends interval g other)
    (hdelayed : Delayed interval [id] g g') (hne : other ≠ id) :
    Delayable ends interval g' other := by
  refine ⟨fun {unit} hunit => ?_, fun {unit} hunit hphi => ?_⟩
  · obtain ⟨unit', hunit', hagree⟩ := exists_of_frame_eq hdelayed.frame hunit
    rw [interval?_of_frame_eq hdelayed.frame, hagree.block]
    exact h.known hunit'
  · obtain ⟨unit', hunit', hagree⟩ := exists_of_frame_eq hdelayed.frame hunit
    rw [hdelayed.kept fun hmem => hne (List.mem_singleton.mp hmem), hagree.block]
    exact h.fits hunit' (hagree.phi ▸ hphi)

theorem exists_forM_delayPhi {ids : List UnitId} (hnodup : ids.Nodup)
    (hids : ∀ id ∈ ids, id < now.state.units.size ∧ Delayable ends interval now.state id) :
    ∃ last, ids.forM (delayPhi ends) now = .ok ⟨⟩ last := by
  induction ids generalizing now with
  | nil => exact ⟨now, rfl⟩
  | cons id rest ih =>
      rw [List.forall_mem_cons] at hids
      rw [List.nodup_cons] at hnodup
      obtain ⟨⟨hlt, hready⟩, hrest⟩ := hids
      obtain ⟨middle, hfirst, hdelayed⟩ := hready.exists_delayPhi hlt
      have hsize := size_eq_of_skeleton_eq (skeleton_eq_of_frame_eq hdelayed.frame)
      obtain ⟨last, hlast⟩ := ih hnodup.2 fun other hother =>
        ⟨hsize ▸ (hrest other hother).1, (hrest other hother).2.of_delayed hdelayed fun heq =>
          hnodup.1 (heq ▸ hother)⟩
      exact ⟨last, Step.bind_eq_ok.mpr ⟨_, middle, hfirst, hlast⟩⟩

theorem exists_mapM_endSlot (hg : g.Listed) (blocks : List BlockId) (journal : Journal) :
    ∃ ends, (blocks.mapM fun block => return (block, ← g.endSlot block) : Step Graph _)
        ⟨g, journal⟩ = .ok ends ⟨g, journal⟩ ∧
      ∀ block ∈ blocks, ∃ end_, g.endSlot block = .ok end_ ∧
        (ends.find? (·.1 = block)).bind Prod.snd = end_ := by
  obtain ⟨units, hunits, -⟩ := exists_controlUnits hg
  induction blocks with
  | nil => exact ⟨[], rfl, by simp⟩
  | cons block rest ih =>
      obtain ⟨ends, hrest, hends⟩ := ih
      obtain ⟨end_, hend⟩ : ∃ end_, g.endSlot block = .ok end_ :=
        ⟨_, by rw [endSlot, hunits]; rfl⟩
      refine ⟨(block, end_) :: ends, ?_, ?_⟩
      · rw [List.mapM_cons]
        exact Step.bind_eq_ok.mpr ⟨_, _, Step.bind_eq_ok.mpr ⟨_, _,
          Step.lift_eq_ok.mpr ⟨hend, rfl⟩, rfl⟩, Step.bind_eq_ok.mpr ⟨_, _, hrest, rfl⟩⟩
      · intro other hother
        by_cases heq : block = other
        · subst heq
          exact ⟨end_, hend, by simp⟩
        · rw [List.find?_cons_of_neg (by simpa using heq)]
          exact hends other ((List.mem_cons.mp hother).resolve_left (Ne.symm heq))

section

variable {block : BlockId} {entrySlot : Nat}

/-- The exit waits for all moves among the control units. -/
theorem Enclosed.dependsOn_exit {exit : UnitId} (hg : Enclosed block entrySlot exit g)
    (hid : g.IsControl id) (hmove : g.IsMove id) : g.DependsOn exit id := by
  obtain ⟨unit, hunit, hcontrol⟩ := hid
  obtain ⟨unit', hunit', hphi⟩ := hmove
  obtain rfl := Option.some.inj (hunit.symm.trans hunit')
  exact hg.moves hunit hcontrol hphi

/-- A block ends no earlier than any of its control units, and that is what its slots say. -/
theorem OfBlock.exists_endSlot (hg : g.OfBlock block entrySlot) {slot : Nat} (hid : g.IsControl id)
    (hslot : g.slot? id = some slot) : ∃ end_, g.endSlot block = .ok (some end_) ∧ slot ≤ end_ := by
  obtain ⟨unit, hunit, hcontrol⟩ := hid
  have htaken : g.IsTaken block slot :=
    ⟨id, unit, hunit, hcontrol, (hg.units hunit).block, (slot?_eq hunit).symm.trans hslot⟩
  exact htaken.exists_endSlot hg.toListed

theorem OfBlock.exists_totalSlot (hg : g.OfBlock block entrySlot) {slot : Nat}
    (hslot : g.slot? g.entryRoot = some slot) : ∃ total, g.totalSlot block = .ok (some total) := by
  obtain ⟨end_, hend, hle⟩ := hg.exists_endSlot hg.root hslot
  obtain ⟨unit, hunit, -⟩ := hg.root
  have hstart : g.startSlot block = .ok (some slot) := by
    rw [startSlot, hg.entry]
    simp only [unit_eq_ok.mpr hunit, Checked.ok_bind, (slot?_eq hunit).symm.trans hslot]
    rfl
  have hsub : Word.sub end_ slot = .ok (end_ - slot) := Word.sub_eq_ok.mpr ⟨hle, rfl⟩
  refine ⟨end_ - slot, ?_⟩
  simp only [totalSlot, hend, hstart, Checked.ok_bind, hsub]
  rfl

/-- Moves that stay within their block can be delayed. -/
theorem OfBlock.exists_delayPhis (hg : g.OfBlock block entrySlot)
    (hinterval : g.interval? block = some interval) {end_ atEntry : Nat}
    (hend : g.endSlot block = .ok (some end_)) (hentry : g.slot? g.entryRoot = some atEntry)
    (hmoves : ∀ {id}, g.IsControl id → g.IsMove id → ∃ slot, g.slot? id = some slot ∧
      slot + interval < Word.count ∧ slot + interval ≤ end_) (journal : Journal) :
    ∃ last total, delayPhis ⟨g, journal⟩ = .ok ⟨⟩ last ∧
      last.state.totalSlot block = .ok (some total) := by
  have hknown : ∀ {id : UnitId} {unit : ScheduleUnit}, g.units[id]? = some unit →
      g.interval? unit.block = some interval := fun hunit => (hg.units hunit).block ▸ hinterval
  obtain ⟨ends, hends, hlisted⟩ := exists_mapM_endSlot hg.toListed g.intervals.keys journal
  obtain ⟨_, hend', hfound⟩ := hlisted block (Table.mem_keys_iff.mpr ⟨interval, hinterval⟩)
  obtain rfl := Except.ok.inj (hend'.symm.trans hend)
  have hids : ∀ id ∈ g.controlUnits, id < g.units.size ∧ Delayable ends interval g id := by
    intro id hid
    have hid := hg.control.mp hid
    refine ⟨hid.lt_size, hknown, fun {unit} hunit hphi => ?_⟩
    rw [(hg.units hunit).block, hfound]
    exact hmoves hid ⟨unit, hunit, hphi⟩
  obtain ⟨last, hlast⟩ : ∃ last, g.controlUnits.forM (delayPhi ends) ⟨g, journal⟩ = .ok ⟨⟩ last :=
    exists_forM_delayPhi hg.controlNodup hids
  have hrun : delayPhis ⟨g, journal⟩ = .ok ⟨⟩ last := by
    rw [delayPhis, Step.current_bind, Step.bind_of_eq_ok hends]
    exact hlast
  have hdelayed := delayed_delayPhis hg.toListed hknown hrun
  have hslot := hdelayed.slots (hg.control.mpr hg.root)
  rw [hentry, Option.map_some] at hslot
  exact ⟨last, _, hrun, ((hg.of_frame_eq hdelayed.frame).exists_totalSlot hslot).choose_spec⟩

end

end Graph

namespace PipelineSearch

open SlotScheduling.Graph

variable {g : Graph} {block : BlockId} {entrySlot distance first : Nat} {exit branch : UnitId}
  {now : Journaled PipelineSearch}

/-! ## Relaxing one bound -/

theorem exists_increaseInterval (hword : now.state.interval + 1 < Word.count) :
    ∃ last, increaseInterval now = .ok ⟨⟩ last ∧
      last.state = { now.state with interval := now.state.interval + 1 } := by
  rw [increaseInterval, Step.current_bind,
    Step.lift_bind_of_eq_ok (Word.add_eq_ok.mpr ⟨hword, rfl⟩), Step.update_bind]
  exact ⟨_, rfl, rfl⟩

theorem exists_lengthenCriticalPath (hlt : now.state.criticalPathEnd < now.state.ceiling)
    (hword : now.state.criticalPathEnd + 1 < Word.count) :
    ∃ last, lengthenCriticalPath now = .ok ⟨⟩ last ∧
      last.state = { now.state with criticalPathEnd := now.state.criticalPathEnd + 1 } := by
  rw [lengthenCriticalPath, Step.current_bind,
    Step.lift_bind_of_eq_ok (Word.add_eq_ok.mpr ⟨hword, rfl⟩), Step.update_bind, Step.current_bind,
    if_neg (by simp only [not_lt]; omega)]
  exact ⟨_, rfl, rfl⟩

/-- A search that knows an interval that meets the cycles, and is below its ceiling. -/
structure Seeks (g : Graph) (block : BlockId) (first : Nat) (search : PipelineSearch) : Prop where
  similar : Similar g search.graph
  positive : 0 < search.interval
  interval : search.interval ≤ g.allowance + 1
  meets : ∀ {interval}, search.interval ≤ interval → g.MeetsCycles block interval
  ceiling : search.ceiling = first + g.allowance + 1
  path : search.criticalPathEnd ≤ search.ceiling

/-- How far the bounds are from the ceiling. -/
def remaining (search : PipelineSearch) : Nat :=
  (search.ceiling + 1 - search.criticalPathEnd) + (search.ceiling + 1 - search.interval)

theorem Seeks.place {search search' : PipelineSearch} (h : Seeks g block first search)
    (hsame : search' = { search with graph := search'.graph })
    (hsimilar : Similar g search'.graph) : Seeks g block first search' := by
  rw [hsame]
  exact ⟨hsimilar, h.positive, h.interval, h.meets, h.ceiling, h.path⟩

theorem remaining_place {search search' : PipelineSearch}
    (hsame : search' = { search with graph := search'.graph }) :
    remaining search' = remaining search := by
  rw [hsame]
  rfl

/-- The search goes on with one bound raised. -/
def GoesOn (g : Graph) (block : BlockId) (first : Nat) (relax : Step PipelineSearch PUnit)
    (now : Journaled PipelineSearch) : Prop :=
  ∃ last, relax now = .ok ⟨⟩ last ∧ Seeks g block first last.state ∧
    remaining last.state < remaining now.state

theorem Seeks.ceiling_le {search : PipelineSearch} (h : Seeks g block first search)
    (hfirst : first ≤ g.latencySum) : search.ceiling ≤ 2 * (g.allowance + 1) := by
  have hallowance : g.latencySum + g.controlUnits.length = g.allowance := rfl
  have := h.ceiling
  omega

theorem Seeks.searches {search : PipelineSearch} (h : Seeks g block first search)
    (hfirst : first ≤ g.latencySum) : Searches g search :=
  ⟨h.similar, h.interval, h.path.trans (h.ceiling_le hfirst)⟩

theorem Seeks.increase (h : Seeks g block first now.state) (hsmall : g.IsSmall distance)
    (hle : now.state.interval ≤ g.allowance) : GoesOn g block first increaseInterval now := by
  have hwords := hsmall.words
  have hceiling := h.ceiling
  have hword : now.state.interval + 1 < Word.count := by omega
  obtain ⟨last, hrun, hlast⟩ := exists_increaseInterval hword
  refine ⟨last, hrun, ?_⟩
  rw [hlast]
  refine ⟨⟨h.similar, Nat.succ_pos _, Nat.succ_le_succ hle,
    fun hle => h.meets (Nat.le_of_succ_le hle), h.ceiling, h.path⟩, ?_⟩
  unfold remaining
  simp only
  omega

theorem Seeks.lengthen (h : Seeks g block first now.state) (hsmall : g.IsSmall distance)
    (hfirst : first ≤ g.latencySum) (hlt : now.state.criticalPathEnd < now.state.ceiling) :
    GoesOn g block first lengthenCriticalPath now := by
  have hwords := hsmall.words
  have hceiling := h.ceiling_le hfirst
  obtain ⟨last, hrun, hlast⟩ := exists_lengthenCriticalPath hlt (by omega)
  refine ⟨last, hrun, ?_⟩
  rw [hlast]
  refine ⟨⟨h.similar, h.positive, h.interval, h.meets, h.ceiling, hlt⟩, ?_⟩
  unfold remaining
  simp only
  omega

section

variable (hg : g.Looping block entrySlot exit branch) (hsmall : g.IsSmall distance)
  (hfirst : first ≤ g.latencySum)

include hg hsmall

theorem exists_reachCriticalPath {rounds : Nat} (hsearch : Searches g now.state)
    (hfeasible : Feasible g exit now.state.interval now.state.criticalPathEnd)
    (hrounds : 0 < rounds) :
    ∃ last, reachCriticalPath rounds now = .ok ⟨⟩ last ∧
      last.state = { now.state with graph := last.state.graph } ∧
      Widened now.state.interval g last.state.graph := by
  obtain ⟨rounds, rfl⟩ := Nat.exists_eq_add_one_of_ne_zero hrounds.ne'
  obtain ⟨_, last, hrun, hlast, hwidened, ⟨rfl, -⟩ | ⟨-, hnone⟩⟩ :=
    exists_placeCriticalPath hg hsmall hsearch
  · exact ⟨last, by rw [reachCriticalPath, Step.bind_of_eq_ok hrun]; rfl, hlast, hwidened⟩
  · exact absurd hfeasible hnone

include hfirst

/-- At the ceiling, slots for the dependencies are missing only at a short interval. -/
theorem Seeks.relaxDependencies (h : Seeks g block first now.state)
    (hzero : Feasible g exit 0 first)
    (hnone : ¬Feasible g exit now.state.interval now.state.criticalPathEnd) :
    GoesOn g block first relaxDependencies now := by
  have hwords := hsmall.words
  have hceiling := h.ceiling
  have hbound := h.ceiling_le hfirst
  have hinterval := h.interval
  have hpath := h.path
  have hallowance : g.latencySum + g.controlUnits.length = g.allowance := rfl
  unfold GoesOn PipelineSearch.relaxDependencies
  rw [Step.current_bind, Step.lift_bind_of_eq_ok (Word.mul_eq_ok.mpr ⟨by omega, rfl⟩)]
  split
  · exact h.increase hsmall (by omega)
  · refine h.lengthen hsmall hfirst (lt_of_le_of_ne hpath fun heq => hnone ?_)
    obtain ⟨slots, hfits, hends, -⟩ := hzero
    obtain ⟨slots', hfits', hends', hwords'⟩ := hg.exists_fits_of_ceiling h.positive
      (h.meets le_rfl) hfits hends hfirst (by omega) hinterval
    rw [heq, hceiling]
    exact ⟨slots', hfits', hends', fun hid => (hwords' hid).trans_lt (by omega)⟩

/-- Slots for shared function units are missing only at an interval below what all of them need. -/
theorem Seeks.relaxSharing (h : Seeks g block first now.state) (hmoves : g.MovesUnshared)
    {slots : UnitId → Int}
    (hearliest : IsEarliest g exit now.state.interval now.state.criticalPathEnd slots)
    (hnone : ¬FeasibleInOrder g exit now.state.interval now.state.criticalPathEnd slots) :
    GoesOn g block first relaxSharing now := by
  have hceiling := h.ceiling
  have hle : now.state.interval ≤ g.allowance := by
    refine Nat.le_of_lt_succ (lt_of_le_of_ne h.interval fun heq => hnone ?_)
    exact hg.exists_fits_in_order hmoves heq (h.meets le_rfl) hearliest.toFits hearliest.ends
      hearliest.least
  unfold GoesOn PipelineSearch.relaxSharing
  rw [Step.current_bind]
  split
  · exact h.increase hsmall hle
  · exact h.lengthen hsmall hfirst (by omega)

/-- A search that has rounds enough comes to slots that can be committed. -/
theorem exists_reachState {rounds : Nat} (hmoves : g.MovesUnshared)
    (hzero : Feasible g exit 0 first) (h : Seeks g block first now.state)
    (hrounds : remaining now.state ≤ rounds) :
    ∃ last, reachState rounds now = .ok ⟨⟩ last ∧ Seeks g block first last.state ∧
      Settles g exit last.state.interval last.state.criticalPathEnd last.state.graph := by
  induction rounds generalizing now with
  | zero =>
      have := h.path
      unfold remaining at hrounds
      omega
  | succ rounds ih =>
      have hgoesOn : ∀ {relax : Step PipelineSearch PUnit} {from_ : Journaled PipelineSearch},
          remaining from_.state = remaining now.state → GoesOn g block first relax from_ →
          ∃ last, (relax >>= fun _ => reachState rounds) from_ = .ok ⟨⟩ last ∧
            Seeks g block first last.state ∧
            Settles g exit last.state.interval last.state.criticalPathEnd last.state.graph := by
        rintro relax from_ hsame ⟨relaxed, hrelax, hseeks, hlt⟩
        rw [Step.bind_of_eq_ok hrelax]
        exact ih hseeks (by omega)
      obtain ⟨placed, tried, hfirstTry, htried, hwidened, hcases⟩ :=
        exists_placeCriticalPath hg hsmall (h.searches hfirst)
      have hseeks := h.place htried hwidened.toSimilar
      have hsame := remaining_place htried
      have hinterval : tried.state.interval = now.state.interval := by rw [htried]
      have hend : tried.state.criticalPathEnd = now.state.criticalPathEnd := by rw [htried]
      rw [← hinterval, ← hend] at hcases
      rw [reachState, Step.bind_of_eq_ok hfirstTry]
      obtain ⟨rfl, hfeasible, -⟩ | ⟨rfl, hnone⟩ := hcases
      · obtain ⟨shared, stated, hsecond, hstated, hsimilar, hcases⟩ :=
          exists_placeState hg hsmall (hseeks.searches hfirst) hseeks.positive hfeasible
        have hseeks' := hseeks.place hstated hsimilar
        have hinterval' : stated.state.interval = tried.state.interval := by rw [hstated]
        have hend' : stated.state.criticalPathEnd = tried.state.criticalPathEnd := by rw [hstated]
        rw [← hinterval', ← hend'] at hcases
        rw [if_pos rfl, Step.bind_of_eq_ok hsecond]
        obtain ⟨rfl, hsettles⟩ | ⟨rfl, slots, hearliest, hnone⟩ := hcases
        · exact ⟨stated, rfl, hseeks', hsettles⟩
        · exact hgoesOn ((remaining_place hstated).trans hsame)
            (hseeks'.relaxSharing hg hsmall hfirst hmoves hearliest hnone)
      · exact hgoesOn hsame (hseeks.relaxDependencies hg hsmall hfirst hzero hnone)

end

/-! ## Committing -/

/-- Where the loop operation is an interval after the entry, and every move as far ahead of the end,
the schedule can be committed. -/
theorem exists_commit_of_slots (hg : now.state.graph.OfBlock block entrySlot)
    (hloop : now.state.graph.loopOp = some branch)
    (hbranch : now.state.graph.slot? branch = some (entrySlot + now.state.interval))
    (hword : entrySlot + now.state.interval < Word.count) {atEntry end_ : Nat}
    (hentry : now.state.graph.slot? now.state.graph.entryRoot = some atEntry)
    (hend : now.state.graph.endSlot block = .ok (some end_))
    (hmoves : ∀ {id}, now.state.graph.IsControl id → now.state.graph.IsMove id →
      ∃ slot, now.state.graph.slot? id = some slot ∧ slot + now.state.interval < Word.count ∧
        slot + now.state.interval ≤ end_) :
    ∃ last, commit now = .ok now.state.interval last := by
  obtain ⟨end', hend', hle⟩ := hg.exists_endSlot (hg.loop hloop) hbranch
  obtain rfl : end_ = end' := Option.some.inj (Except.ok.inj (hend.symm.trans hend'))
  obtain ⟨unit, hunit, -⟩ := hg.loop hloop
  have hslot : unit.slot = some (now.state.graph.entrySlot + now.state.interval) := by
    rw [← slot?_eq hunit, hbranch, hg.entrySlot]
  obtain ⟨delayed, total, hdelay, htotal⟩ := (hg.setInterval _).exists_delayPhis
    (interval?_setInterval _ _ _) hend hentry hmoves now.journal
  rw [commit, Step.current_bind,
    Step.lift_bind_of_eq_ok (Word.add_eq_ok.mpr ⟨hg.entrySlot.symm ▸ hword, rfl⟩)]
  simp only [hloop, hg.entryBlock]
  rw [Step.bind_of_eq_ok (Step.map_eq_ok.mpr
    ⟨unit, Step.lift_eq_ok.mpr ⟨unit_eq_ok.mpr hunit, rfl⟩, rfl⟩), Step.lift_bind_of_eq_ok hend]
  simp only [hslot]
  rw [if_neg (by
    rw [not_or, not_not, not_lt, Option.getD_some, hg.entrySlot]
    exact ⟨rfl, hle⟩)]
  rw [Step.bind_of_eq_ok (onGraph_eq_ok.mpr ⟨delayed, hdelay, rfl⟩),
    Step.bind_of_eq_ok (Step.records_eq_ok.mpr ⟨rfl, rfl⟩)]
  split
  · rw [Step.current_bind, Step.lift_bind_of_eq_ok htotal]
    exact ⟨_, rfl⟩
  · exact ⟨_, rfl⟩

theorem exists_commit (hg : g.Looping block entrySlot exit branch) (hsmall : g.IsSmall distance)
    (hsearch : Searches g now.state) (hpos : 0 < now.state.interval)
    (hsettles : Settles g exit now.state.interval now.state.criticalPathEnd now.state.graph) :
    ∃ interval last, commit now = .ok interval last := by
  have hwords := hsmall.words
  have hinterval := hsearch.interval
  have hpath := hsearch.criticalPathEnd
  have hskeleton := hsearch.similar.skeleton
  have hofBlock := hsearch.similar.ofBlock hg.toEnclosed
  have hcontrol : ∀ {id}, g.IsControl id → now.state.graph.IsControl id :=
    isControl_of_outline_eq (outline_eq_of_skeleton_eq hskeleton).symm
  have hloop : now.state.graph.loopOp = some branch :=
    (eq_of_skeleton_eq (·.loopOp) hskeleton fun _ => rfl).trans hg.loops
  have hslotAt : ∀ {id}, g.IsControl id →
      ∃ slot, now.state.graph.slot? id = some slot ∧ now.state.graph.slotAt id = slot :=
    fun hid => (hsettles.placed hid).imp fun _ hslot => ⟨hslot, slotAt_eq hslot⟩
  obtain ⟨atBranch, hbranch, heqBranch⟩ := hslotAt (hg.loop hg.loops)
  obtain ⟨atExit, hexit, heqExit⟩ := hslotAt hg.exitControl
  obtain ⟨atEntry, hentry, -⟩ := hslotAt hg.root
  have hbranchSlot := hsettles.loop hpos hg.loops
  have hends := hsettles.ends
  have hentrySlot := hg.entrySlot
  obtain rfl : atBranch = entrySlot + now.state.interval := by omega
  obtain ⟨end_, hend, hle⟩ := hofBlock.exists_endSlot (hcontrol hg.exitControl) hexit
  -- Every move is an interval ahead of the exit.
  have hmoves : ∀ {id}, now.state.graph.IsControl id → now.state.graph.IsMove id →
      ∃ slot, now.state.graph.slot? id = some slot ∧ slot + now.state.interval < Word.count ∧
        slot + now.state.interval ≤ end_ := by
    intro id hid hmove
    have hid := isControl_of_outline_eq (outline_eq_of_skeleton_eq hskeleton) hid
    have hmove := (isMove_of_skeleton_eq hskeleton).mp hmove
    obtain ⟨slot, hslot, heq⟩ := hslotAt hid
    have := hsettles.moves hmove (hg.dependsOn_exit hid hmove)
    exact ⟨slot, hslot, by omega, by omega⟩
  exact ⟨_, exists_commit_of_slots hofBlock hloop hbranch (by omega) hentry hend hmoves⟩

/-- A search that starts finds a schedule. -/
theorem exists_complete (hg : g.Looping block entrySlot exit branch) (hsmall : g.IsSmall distance)
    (hmoves : g.MovesUnshared) (hstarts : Starts g exit now.state) :
    ∃ interval last, complete now = .ok interval last := by
  obtain ⟨hgraph, hzero, hpath, hceiling, hfeasible⟩ := hstarts
  have hsearch : Searches g now.state := by
    refine ⟨hgraph ▸ .refl _, by omega, ?_⟩
    have hallowance : g.latencySum + g.controlUnits.length = g.allowance := rfl
    omega
  obtain ⟨reached, hreach, hsame, hwidened⟩ := exists_reachCriticalPath hg hsmall hsearch
    (hzero ▸ hfeasible) (show 0 < now.state.ceiling + 1 - now.state.criticalPathEnd by omega)
  rw [hzero] at hwidened
  obtain ⟨bounded, hbound, hsame', hpos, hle, hmeets⟩ := exists_computeInterval hg hsmall hwidened
  have hstate : bounded.state =
      { now.state with graph := reached.state.graph, interval := bounded.state.interval } := by
    rw [hsame', hsame]
  have hseeks : Seeks g block now.state.criticalPathEnd bounded.state := by
    rw [hstate]
    exact ⟨hwidened.toSimilar, hpos, hle, hmeets, hceiling, by simp only; omega⟩
  obtain ⟨found, hfind, hseeks', hsettles⟩ := exists_reachState hg hsmall hpath hmoves hfeasible
    hseeks le_rfl
  obtain ⟨interval, committed, hcommit⟩ :=
    exists_commit hg hsmall (hseeks'.searches hpath) hseeks'.positive hsettles
  refine ⟨interval, committed, ?_⟩
  unfold remaining at hfind
  rw [complete, Step.current_bind, Step.bind_of_eq_ok hreach, Step.bind_of_eq_ok hbound,
    Step.current_bind, Step.bind_of_eq_ok hfind, hcommit]

/-- A search for a loop with small numbers finds a schedule. -/
theorem exists_run {now : Journaled Graph} (hg : Enclosed block entrySlot exit now.state)
    (hsmall : now.state.IsSmall distance)
    (hlooping : ∀ {g}, Restarted 0 now.state g → g.Looping block entrySlot exit branch)
    (hmoves : now.state.MovesUnshared) : ∃ interval last, run now = .ok interval last := by
  obtain ⟨search, started, hstart, hrestart, hstarts⟩ := exists_start hg hsmall hlooping
  obtain ⟨interval, completed, hcomplete⟩ : ∃ interval completed,
      complete ⟨{ search with graph := started.state }, started.journal⟩ =
        .ok interval completed :=
    exists_complete (hlooping hrestart) (hrestart.isSmall hg hsmall)
      (hmoves.of_skeleton_eq hrestart.skeleton)
      ⟨rfl, hstarts.interval, hstarts.path, hstarts.ceiling, hstarts.feasible⟩
  exact ⟨interval, _, Step.bind_eq_ok.mpr
    ⟨search, started, hstart, Step.focus_eq_ok.mpr ⟨completed, hcomplete, rfl⟩⟩⟩

end PipelineSearch

end SlotScheduling
