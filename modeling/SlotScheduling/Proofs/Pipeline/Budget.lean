import SlotScheduling.Proofs.Failures
import SlotScheduling.Proofs.Pipeline.Finding
import SlotScheduling.Proofs.Pipeline.IntervalBounds

/-!
# The budget of a search

A search is two loops that go round until an attempt to place the units succeeds or something fails.
Nothing is known of the attempts but that they leave the bounds alone.  Each round that goes on
raises a bound: the critical path, which fails past the ceiling, or the interval, which is raised
only while the critical path is longer.  So the calls that raise a bound are counted by the ceiling,
and the loops end without a count of their rounds.
-/

namespace SlotScheduling.PipelineSearch

/-- Two ways to try to place the units under the bounds of a search.  An attempt answers whether it
has placed them, or fails, and may leave any graph behind. -/
structure Attempts where
  criticalPath : Step PipelineSearch Bool
  state : Step PipelineSearch Bool
  keeps_criticalPath : criticalPath.Keeps limits
  keeps_state : state.Keeps limits

/-- The attempts that the search makes. -/
def placing : Attempts where
  criticalPath := placeCriticalPath
  state := placeState
  keeps_criticalPath := keeps_limits_placeCriticalPath
  keeps_state := keeps_limits_placeState

/-- What a search is about to do. -/
inductive Phase
  /-- Reach the end of the critical path, at no interval. -/
  | reaching
  /-- Compute the least interval. -/
  | measuring
  /-- Place the units under their dependencies at the interval. -/
  | fitting
  /-- Share the function units modulo the interval. -/
  | sharing
  deriving DecidableEq

/-- The calls that change the bounds. -/
inductive Call
  | lengthen
  | compute
  | raise
  deriving DecidableEq

def Call.perform : Call → Step PipelineSearch PUnit
  | .lengthen => lengthenCriticalPath
  | .compute => computeInterval
  | .raise => increaseInterval

/-- What comes of a phase. -/
inductive Verdict
  | done
  | goOn (next : Phase)
  | call (call : Call) (next : Phase)

/-- What comes of a phase depends on the attempt made in it and, if that found no schedule, on the
bounds. -/
def Attempts.verdict (attempts : Attempts) : Phase → Step PipelineSearch Verdict
  | .reaching => do
    if ← attempts.criticalPath then return .goOn .measuring
    else return .call .lengthen .reaching
  | .measuring => return .call .compute .fitting
  | .fitting => do
    if ← attempts.criticalPath then return .goOn .sharing
    else
      let search ← Step.current
      if (← Word.mul 2 search.interval) < search.criticalPathEnd then return .call .raise .fitting
      else return .call .lengthen .fitting
  | .sharing => do
    if ← attempts.state then return .done
    else
      let search ← Step.current
      if search.interval < search.criticalPathEnd then return .call .raise .fitting
      else return .call .lengthen .fitting

/-- How a step ended, and what it left. -/
abbrev Ending := EStateM.Result Failure (Journaled PipelineSearch) PUnit

/-- From a phase the loops run to an end, and call this on the way.  Each call is recorded with the
search that it left, also the call that failed. -/
inductive Attempts.Runs (attempts : Attempts) :
    Phase → Journaled PipelineSearch → List (Call × PipelineSearch) → Ending → Prop
  | done {phase now last} : attempts.verdict phase now = .ok .done last →
      Runs attempts phase now [] (.ok ⟨⟩ last)
  | failed {phase now failure last} : attempts.verdict phase now = .error failure last →
      Runs attempts phase now [] (.error failure last)
  | goOn {phase now next middle calls ending} :
      attempts.verdict phase now = .ok (.goOn next) middle →
      Runs attempts next middle calls ending → Runs attempts phase now calls ending
  | refused {phase now call next middle failure last} :
      attempts.verdict phase now = .ok (.call call next) middle →
      call.perform middle = .error failure last →
      Runs attempts phase now [(call, last.state)] (.error failure last)
  | called {phase now call next middle last calls ending} :
      attempts.verdict phase now = .ok (.call call next) middle →
      call.perform middle = .ok ⟨⟩ last → Runs attempts next last calls ending →
      Runs attempts phase now ((call, last.state) :: calls) ending

variable {attempts : Attempts} {phase next : Phase} {now middle last : Journaled PipelineSearch}
  {calls : List (Call × PipelineSearch)} {ending : Ending} {verdict : Verdict} {call : Call}
  {failure : Failure}

/-- A run is determined by where it starts. -/
theorem Attempts.Runs.unique (h : attempts.Runs phase now calls ending)
    {calls' : List (Call × PipelineSearch)} {ending' : Ending}
    (h' : attempts.Runs phase now calls' ending') : calls' = calls ∧ ending' = ending := by
  induction h generalizing calls' ending' with
  | done hverdict => cases h' <;> simp_all
  | failed hverdict => cases h' <;> simp_all
  | goOn hverdict _ ih =>
      cases h' with
      | goOn hverdict' hrest' =>
          obtain ⟨⟨⟩, rfl⟩ : _ ∧ _ := by simpa using hverdict.symm.trans hverdict'
          exact ih hrest'
      | _ => simp_all
  | refused hverdict hcall => cases h' <;> simp_all
  | called hverdict hcall _ ih =>
      cases h' with
      | called hverdict' hcall' hrest' =>
          obtain ⟨⟨rfl, rfl⟩, rfl⟩ := by simpa using hverdict.symm.trans hverdict'
          obtain rfl := by simpa using hcall.symm.trans hcall'
          obtain ⟨rfl, rfl⟩ := ih hrest'
          exact ⟨rfl, rfl⟩
      | _ => simp_all

/-- What may come of a phase. -/
inductive Admits (search : PipelineSearch) : Phase → Verdict → Prop
  | reached : Admits search .reaching (.goOn .measuring)
  | short : Admits search .reaching (.call .lengthen .reaching)
  | measured : Admits search .measuring (.call .compute .fitting)
  | fitted : Admits search .fitting (.goOn .sharing)
  | shared : Admits search .sharing .done
  | raise {phase : Phase} : phase = .fitting ∨ phase = .sharing →
      search.interval < search.criticalPathEnd → Admits search phase (.call .raise .fitting)
  | lengthen {phase : Phase} : phase = .fitting ∨ phase = .sharing →
      Admits search phase (.call .lengthen .fitting)

theorem admits_of_verdict (h : attempts.verdict phase now = .ok verdict last) :
    last.state.limits = now.state.limits ∧ Admits last.state phase verdict := by
  cases phase with
  | reaching =>
      obtain ⟨placed, middle, hplaced, h⟩ := Step.bind_eq_ok.mp h
      have hlimits := attempts.keeps_criticalPath.of_eq_ok hplaced
      cases placed <;> obtain ⟨rfl, rfl⟩ := Step.pure_eq_ok.mp h
      · exact ⟨hlimits, .short⟩
      · exact ⟨hlimits, .reached⟩
  | measuring =>
      obtain ⟨rfl, rfl⟩ := Step.pure_eq_ok.mp h
      exact ⟨rfl, .measured⟩
  | fitting =>
      obtain ⟨placed, middle, hplaced, h⟩ := Step.bind_eq_ok.mp h
      have hlimits := attempts.keeps_criticalPath.of_eq_ok hplaced
      cases placed with
      | true =>
          obtain ⟨rfl, rfl⟩ := Step.pure_eq_ok.mp h
          exact ⟨hlimits, .fitted⟩
      | false =>
          rw [if_neg Bool.false_ne_true, Step.current_bind] at h
          obtain ⟨twice, htwice, h⟩ := Step.lift_bind_eq_ok.mp h
          obtain ⟨_, rfl⟩ := Word.mul_eq_ok.mp htwice
          rcases Step.ite_eq_ok.mp h with ⟨hlt, h⟩ | ⟨_, h⟩ <;>
            obtain ⟨rfl, rfl⟩ := Step.pure_eq_ok.mp h
          · exact ⟨hlimits, .raise (.inl rfl) (by omega)⟩
          · exact ⟨hlimits, .lengthen (.inl rfl)⟩
  | sharing =>
      obtain ⟨placed, middle, hplaced, h⟩ := Step.bind_eq_ok.mp h
      have hlimits := attempts.keeps_state.of_eq_ok hplaced
      cases placed with
      | true =>
          obtain ⟨rfl, rfl⟩ := Step.pure_eq_ok.mp h
          exact ⟨hlimits, .shared⟩
      | false =>
          rw [if_neg Bool.false_ne_true, Step.current_bind] at h
          rcases Step.ite_eq_ok.mp h with ⟨hlt, h⟩ | ⟨_, h⟩ <;>
            obtain ⟨rfl, rfl⟩ := Step.pure_eq_ok.mp h
          · exact ⟨hlimits, .raise (.inr rfl) hlt⟩
          · exact ⟨hlimits, .lengthen (.inr rfl)⟩

/-! ## What a call does to the bounds -/

theorem lengthenCriticalPath_cases (now : Journaled PipelineSearch) :
    (∃ last, lengthenCriticalPath now = .error (.fault .overflow) last ∧ last = now) ∨
      ∃ last, last.state = { now.state with criticalPathEnd := now.state.criticalPathEnd + 1 } ∧
        (now.state.ceiling < now.state.criticalPathEnd + 1 ∧
            lengthenCriticalPath now = .error (.error (.searchExhausted now.state.graph.entryBlock
              now.state.interval (now.state.criticalPathEnd + 1))) last ∨
          now.state.criticalPathEnd + 1 ≤ now.state.ceiling ∧
            lengthenCriticalPath now = .ok ⟨⟩ last) := by
  by_cases hword : now.state.criticalPathEnd + 1 < Word.count
  · refine Or.inr ?_
    rw [lengthenCriticalPath, Step.current_bind,
      Step.lift_bind_of_eq_ok (Word.add_eq_ok.mpr ⟨hword, rfl⟩), Step.update_bind,
      Step.current_bind]
    rcases Nat.lt_or_ge now.state.ceiling (now.state.criticalPathEnd + 1) with hpast | hle
    · rw [if_pos hpast]
      exact ⟨_, rfl, Or.inl ⟨hpast, rfl⟩⟩
    · rw [if_neg (Nat.not_lt.mpr hle)]
      exact ⟨_, rfl, Or.inr ⟨hle, rfl⟩⟩
  · refine Or.inl ⟨now, ?_, rfl⟩
    rw [lengthenCriticalPath, Step.current_bind, Word.add, Word.check, if_neg hword]
    rfl

theorem increaseInterval_cases (now : Journaled PipelineSearch) :
    increaseInterval now = .error (.fault .overflow) now ∨
      ∃ last, increaseInterval now = .ok ⟨⟩ last ∧
        last.state = { now.state with interval := now.state.interval + 1 } := by
  by_cases hword : now.state.interval + 1 < Word.count
  · exact Or.inr (exists_increaseInterval hword)
  · refine Or.inl ?_
    rw [increaseInterval, Step.current_bind, Word.add, Word.check, if_neg hword]
    rfl

theorem computeInterval_cases (now : Journaled PipelineSearch) :
    (∃ failure last, computeInterval now = .error failure last ∧ last.state = now.state) ∨
      ∃ interval last, computeInterval now = .ok ⟨⟩ last ∧
        last.state = { now.state with interval } := by
  let g := now.state.graph
  have hkeeps : (MinInterval.compute g g.entryBlock : Step PipelineSearch MinInterval).Keeps id :=
    MinInterval.keeps_compute g g.entryBlock
  cases hcompute : (MinInterval.compute g g.entryBlock : Step PipelineSearch MinInterval) now with
  | ok bound middle =>
      refine Or.inr ⟨bound.value, ?_⟩
      rw [computeInterval, Step.current_bind, Step.bind_of_eq_ok hcompute, Step.update_bind]
      rw [show middle.state = now.state from hkeeps.of_eq_ok hcompute]
      exact ⟨_, rfl, rfl⟩
  | error failure last =>
      refine Or.inl ⟨failure, last, ?_, hkeeps.of_eq_error hcompute⟩
      rw [computeInterval, Step.current_bind]
      exact Step.bind_eq_error.mpr (Or.inl hcompute)

/-- A call that goes on raises its bound by one, except that the least interval is computed. -/
theorem bounds_of_eq_ok (h : call.perform now = .ok ⟨⟩ last) :
    last.state.ceiling = now.state.ceiling ∧
      last.state.criticalPathEnd =
        now.state.criticalPathEnd + (if call = .lengthen then 1 else 0) ∧
      (call ≠ .compute →
        last.state.interval = now.state.interval + if call = .raise then 1 else 0) := by
  cases call with
  | lengthen =>
      replace h : lengthenCriticalPath now = .ok ⟨⟩ last := h
      rcases lengthenCriticalPath_cases now with
          ⟨_, hrun, _⟩ | ⟨_, hlast, ⟨_, hrun⟩ | ⟨_, hrun⟩⟩ <;>
        rw [hrun] at h <;> cases h
      simp [hlast]
  | raise =>
      replace h : increaseInterval now = .ok ⟨⟩ last := h
      rcases increaseInterval_cases now with hrun | ⟨_, hrun, hlast⟩ <;> rw [hrun] at h <;> cases h
      simp [hlast]
  | compute =>
      replace h : computeInterval now = .ok ⟨⟩ last := h
      rcases computeInterval_cases now with ⟨_, _, hrun, _⟩ | ⟨_, _, hrun, hlast⟩ <;>
        rw [hrun] at h <;> cases h
      simp [hlast]

/-- A call that fails changes no bound, except that the critical path may pass the ceiling. -/
theorem bounds_of_eq_error (h : call.perform now = .error failure last) :
    last.state.ceiling = now.state.ceiling ∧ last.state.interval = now.state.interval ∧
      last.state.criticalPathEnd ≤
        now.state.criticalPathEnd + if call = .lengthen then 1 else 0 := by
  cases call with
  | lengthen =>
      replace h : lengthenCriticalPath now = .error failure last := h
      rcases lengthenCriticalPath_cases now with
          ⟨_, hrun, hlast⟩ | ⟨_, hlast, ⟨_, hrun⟩ | ⟨_, hrun⟩⟩ <;>
        rw [hrun] at h <;> cases h <;> simp [hlast]
  | raise =>
      replace h : increaseInterval now = .error failure last := h
      rcases increaseInterval_cases now with hrun | ⟨_, hrun, _⟩ <;> rw [hrun] at h <;> cases h
      simp
  | compute =>
      replace h : computeInterval now = .error failure last := h
      rcases computeInterval_cases now with ⟨_, _, hrun, hlast⟩ | ⟨_, _, hrun, _⟩ <;>
        rw [hrun] at h <;> cases h
      simp [hlast]

/-- A call that goes on raises its bound, and leaves the critical path within the ceiling. -/
theorem remaining_lt_of_raise (hpath : now.state.criticalPathEnd ≤ now.state.ceiling)
    (hbelow : now.state.interval < now.state.criticalPathEnd)
    (h : increaseInterval now = .ok ⟨⟩ last) :
    last.state.criticalPathEnd ≤ last.state.ceiling ∧
      remaining last.state < remaining now.state := by
  rcases increaseInterval_cases now with hrun | ⟨last', hrun, hlast⟩ <;> rw [hrun] at h <;> cases h
  rw [hlast]
  refine ⟨hpath, ?_⟩
  unfold remaining
  simp only
  omega

theorem remaining_lt_of_lengthen (h : lengthenCriticalPath now = .ok ⟨⟩ last) :
    last.state.criticalPathEnd ≤ last.state.ceiling ∧
      remaining last.state < remaining now.state := by
  rcases lengthenCriticalPath_cases now with
      ⟨_, hrun, _⟩ | ⟨last', hlast, ⟨_, hrun⟩ | ⟨hle, hrun⟩⟩ <;>
    rw [hrun] at h <;> cases h
  rw [hlast]
  refine ⟨hle, ?_⟩
  unfold remaining
  simp only
  omega

/-! ## The calls of a run -/

theorem bounds_eq {search search' : PipelineSearch} (h : search'.limits = search.limits) :
    search'.interval = search.interval ∧ search'.criticalPathEnd = search.criticalPathEnd ∧
      search'.ceiling = search.ceiling := by
  simpa [limits] using h

theorem remaining_eq {search search' : PipelineSearch} (h : search'.limits = search.limits) :
    remaining search' = remaining search := by
  obtain ⟨hinterval, hpath, hceiling⟩ := bounds_eq h
  rw [remaining, remaining, hinterval, hpath, hceiling]

/-- A call that goes on leaves the critical path within the ceiling. -/
theorem Admits.within_ceiling (hadmits : Admits now.state phase (.call call next))
    (hpath : now.state.criticalPathEnd ≤ now.state.ceiling) (h : call.perform now = .ok ⟨⟩ last) :
    last.state.criticalPathEnd ≤ last.state.ceiling := by
  cases hadmits with
  | short | lengthen => exact (remaining_lt_of_lengthen h).1
  | raise _ hbelow => exact (remaining_lt_of_raise hpath hbelow h).1
  | measured =>
      obtain ⟨hceiling, hkept, _⟩ := bounds_of_eq_ok h
      simpa [hceiling, hkept] using hpath

/-- Each call to lengthen the critical path takes it one slot closer to the ceiling, and the one
that passes the ceiling is the last. -/
theorem Attempts.Runs.lengthen_le (h : attempts.Runs phase now calls ending)
    (hpath : now.state.criticalPathEnd ≤ now.state.ceiling) :
    calls.countP (·.1 = .lengthen) + now.state.criticalPathEnd ≤ now.state.ceiling + 1 ∧
      ∀ call ∈ calls, call.2.criticalPathEnd ≤ now.state.ceiling + 1 := by
  induction h with
  | done | failed => simp [Nat.le_succ_of_le hpath]
  | goOn hverdict _ ih =>
      obtain ⟨-, hpath', hceiling⟩ := bounds_eq (admits_of_verdict hverdict).1
      rw [hpath', hceiling] at ih
      exact ih hpath
  | refused hverdict hcall =>
      obtain ⟨-, hpath', hceiling⟩ := bounds_eq (admits_of_verdict hverdict).1
      obtain ⟨-, -, hraised⟩ := bounds_of_eq_error hcall
      rw [List.countP_singleton, List.forall_mem_singleton]
      simp only [decide_eq_true_eq]
      split at hraised <;> simp_all <;> omega
  | called hverdict hcall _ ih =>
      obtain ⟨hlimits, hadmits⟩ := admits_of_verdict hverdict
      obtain ⟨-, hpath', hceiling⟩ := bounds_eq hlimits
      have hwithin := hadmits.within_ceiling (by omega) hcall
      obtain ⟨hceiling', hraised, -⟩ := bounds_of_eq_ok hcall
      obtain ⟨hcount, hall⟩ := ih hwithin
      rw [List.countP_cons, List.forall_mem_cons]
      simp only [decide_eq_true_eq]
      rw [hceiling', hceiling] at hcount hall hwithin
      exact ⟨by omega, Nat.le_succ_of_le hwithin, hall⟩

/-- Once the least interval is known, it is raised only while the critical path is longer. -/
theorem Attempts.Runs.raise_le (h : attempts.Runs phase now calls ending)
    (hphase : phase = .fitting ∨ phase = .sharing)
    (hpath : now.state.criticalPathEnd ≤ now.state.ceiling) :
    calls.countP (·.1 = .raise) ≤ now.state.ceiling - now.state.interval ∧
      ∀ call ∈ calls, call.1 ≠ .compute ∧
        call.2.interval ≤ max now.state.interval now.state.ceiling := by
  induction h with
  | done | failed => simp
  | goOn hverdict _ ih =>
      obtain ⟨hlimits, hadmits⟩ := admits_of_verdict hverdict
      obtain ⟨hinterval, hpath', hceiling⟩ := bounds_eq hlimits
      rw [hinterval, hpath', hceiling] at ih
      cases hadmits with
      | reached => simp at hphase
      | fitted => exact ih (.inr rfl) hpath
  | @refused phase now call _ middle _ _ hverdict hcall =>
      obtain ⟨hlimits, hadmits⟩ := admits_of_verdict hverdict
      obtain ⟨hinterval, hpath', hceiling⟩ := bounds_eq hlimits
      obtain ⟨-, hkept, -⟩ := bounds_of_eq_error hcall
      rw [List.countP_singleton, List.forall_mem_singleton, hkept, hinterval]
      refine ⟨?_, ?_, Nat.le_max_left _ _⟩
      · cases hadmits with
        | raise _ hbelow => simp; omega
        | _ => simp
      · cases hadmits <;> simp_all
  | called hverdict hcall _ ih =>
      obtain ⟨hlimits, hadmits⟩ := admits_of_verdict hverdict
      obtain ⟨hinterval, hpath', hceiling⟩ := bounds_eq hlimits
      have hwithin := hadmits.within_ceiling (by omega) hcall
      obtain ⟨hceiling', -, hraised⟩ := bounds_of_eq_ok hcall
      cases hadmits with
      | short | measured => simp at hphase
      | raise _ hbelow | lengthen =>
          obtain ⟨hcount, hall⟩ := ih (.inl rfl) hwithin
          simp only [ne_eq, reduceCtorEq, not_false_eq_true, if_true, if_false, forall_const]
            at hraised
          rw [hraised, hinterval, hceiling', hceiling] at hcount hall
          rw [List.countP_cons, List.forall_mem_cons]
          simp only [decide_true, decide_false, if_true, Bool.false_eq_true, if_false, ne_eq,
            reduceCtorEq, not_false_eq_true, true_and]
          refine ⟨by omega, by omega, fun call hmem => ⟨(hall call hmem).1, ?_⟩⟩
          exact (hall call hmem).2.trans (by omega)

/-- Before the least interval is known it is not raised, and once it is known no further than to the
ceiling. -/
theorem Attempts.Runs.interval_le (h : attempts.Runs phase now calls ending)
    (hphase : phase = .reaching ∨ phase = .measuring)
    (hpath : now.state.criticalPathEnd ≤ now.state.ceiling)
    (hinterval : now.state.interval ≤ now.state.ceiling) :
    calls.countP (·.1 = .raise) ≤ now.state.ceiling ∧
      ∀ measured, (.compute, measured) ∈ calls →
        ∀ call ∈ calls, call.2.interval ≤ max measured.interval now.state.ceiling := by
  induction h with
  | done | failed => simp
  | goOn hverdict _ ih =>
      obtain ⟨hlimits, hadmits⟩ := admits_of_verdict hverdict
      obtain ⟨hsame, hpath', hceiling⟩ := bounds_eq hlimits
      rw [hsame, hpath', hceiling] at ih
      cases hadmits with
      | reached => exact ih (.inr rfl) hpath hinterval
      | fitted => simp at hphase
  | refused hverdict hcall =>
      obtain ⟨-, hadmits⟩ := admits_of_verdict hverdict
      cases hadmits with
      | short | measured => simp
      | raise hlater | lengthen hlater => rcases hlater with rfl | rfl <;> simp at hphase
  | @called phase now call next middle last calls ending hverdict hcall hrest ih =>
      obtain ⟨hlimits, hadmits⟩ := admits_of_verdict hverdict
      obtain ⟨hsame, hpath', hceiling⟩ := bounds_eq hlimits
      have hwithin := hadmits.within_ceiling (by omega) hcall
      obtain ⟨hceiling', -, hkept⟩ := bounds_of_eq_ok hcall
      cases hadmits with
      | short =>
          have hstays : last.state.interval = now.state.interval := by simpa [hsame] using hkept
          obtain ⟨hcount, hall⟩ := ih (.inl rfl) hwithin (by omega)
          rw [hceiling', hceiling] at hcount hall
          refine ⟨by simpa using hcount, fun measured hmeasured => ?_⟩
          rw [List.forall_mem_cons]
          refine ⟨hstays.trans_le (hinterval.trans (Nat.le_max_right _ _)), ?_⟩
          exact hall measured (by simpa using hmeasured)
      | measured =>
          obtain ⟨hcount, hall⟩ := hrest.raise_le (.inl rfl) hwithin
          rw [hceiling', hceiling] at hcount hall
          refine ⟨by simpa using hcount.trans (Nat.sub_le _ _), fun measured hmeasured => ?_⟩
          obtain rfl : measured = last.state := by
            rcases List.mem_cons.mp hmeasured with heq | hmem
            · exact congrArg Prod.snd heq
            · exact absurd rfl (hall _ hmem).1
          rw [List.forall_mem_cons]
          exact ⟨Nat.le_max_left _ _, fun call hmem => (hall call hmem).2⟩
      | raise hlater | lengthen hlater => rcases hlater with rfl | rfl <;> simp at hphase

/-! ## The loops end -/

/-- A run from a phase exists. -/
def Attempts.Ends (attempts : Attempts) (phase : Phase) (now : Journaled PipelineSearch) : Prop :=
  ∃ calls ending, attempts.Runs phase now calls ending

/-- The loops end if they do wherever the phase leads to. -/
theorem Attempts.ends_of_admits
    (hnext : ∀ next middle, attempts.verdict phase now = .ok (.goOn next) middle →
      attempts.Ends next middle)
    (hcalled : ∀ call next middle last, attempts.verdict phase now = .ok (.call call next) middle →
      call.perform middle = .ok ⟨⟩ last → attempts.Ends next last) : attempts.Ends phase now := by
  cases hverdict : attempts.verdict phase now with
  | error failure last => exact ⟨_, _, .failed hverdict⟩
  | ok verdict middle =>
      cases verdict with
      | done => exact ⟨_, _, .done hverdict⟩
      | goOn next =>
          obtain ⟨calls, ending, hruns⟩ := hnext next middle hverdict
          exact ⟨_, _, .goOn hverdict hruns⟩
      | call call next =>
          cases hcall : call.perform middle with
          | error failure last => exact ⟨_, _, .refused hverdict hcall⟩
          | ok result last =>
              obtain ⟨calls, ending, hruns⟩ := hcalled call next middle last hverdict hcall
              exact ⟨_, _, .called hverdict hcall hruns⟩

/-- A call that goes on once the least interval is known comes closer to the ceiling. -/
theorem remaining_lt_of_verdict
    (hverdict : attempts.verdict phase now = .ok (.call call next) middle)
    (hphase : phase = .fitting ∨ phase = .sharing)
    (hpath : now.state.criticalPathEnd ≤ now.state.ceiling)
    (hcall : call.perform middle = .ok ⟨⟩ last) :
    next = .fitting ∧ last.state.criticalPathEnd ≤ last.state.ceiling ∧
      remaining last.state < remaining now.state := by
  obtain ⟨hlimits, hadmits⟩ := admits_of_verdict hverdict
  obtain ⟨-, hpath', hceiling⟩ := bounds_eq hlimits
  rw [← hpath', ← hceiling] at hpath
  rw [← remaining_eq hlimits]
  cases hadmits with
  | short | measured => simp at hphase
  | raise _ hbelow => exact ⟨rfl, remaining_lt_of_raise hpath hbelow hcall⟩
  | lengthen => exact ⟨rfl, remaining_lt_of_lengthen hcall⟩

theorem ends_fitting (attempts : Attempts) (now : Journaled PipelineSearch)
    (hpath : now.state.criticalPathEnd ≤ now.state.ceiling) : attempts.Ends .fitting now := by
  obtain ⟨measure, hmeasure⟩ : ∃ measure, remaining now.state < measure := ⟨_, Nat.lt_succ_self _⟩
  induction measure generalizing now with
  | zero => exact absurd hmeasure (Nat.not_lt_zero _)
  | succ measure ih =>
      have hrelaxed : ∀ {phase call next middle last start},
          attempts.verdict phase start = .ok (.call call next) middle →
          phase = .fitting ∨ phase = .sharing →
          start.state.criticalPathEnd ≤ start.state.ceiling →
          remaining start.state ≤ remaining now.state →
          call.perform middle = .ok ⟨⟩ last → attempts.Ends next last := by
        intro phase call next middle last start hverdict hphase hpath hle hcall
        obtain ⟨rfl, hwithin, hlt⟩ := remaining_lt_of_verdict hverdict hphase hpath hcall
        exact ih last hwithin (by omega)
      refine attempts.ends_of_admits (fun next middle hverdict => ?_) fun _ _ _ _ hverdict hcall =>
        hrelaxed hverdict (.inl rfl) hpath le_rfl hcall
      obtain ⟨hlimits, hadmits⟩ := admits_of_verdict hverdict
      obtain ⟨-, hpath', hceiling⟩ := bounds_eq hlimits
      cases hadmits
      refine attempts.ends_of_admits (fun next middle hverdict => ?_) fun _ _ _ _ hverdict hcall =>
        hrelaxed hverdict (.inr rfl) (by omega) (remaining_eq hlimits).le hcall
      nomatch (admits_of_verdict hverdict).2

theorem ends_measuring (attempts : Attempts) (now : Journaled PipelineSearch)
    (hpath : now.state.criticalPathEnd ≤ now.state.ceiling) : attempts.Ends .measuring now := by
  refine attempts.ends_of_admits (fun next middle hverdict => ?_)
    fun call next middle last hverdict hcall => ?_
  · nomatch (admits_of_verdict hverdict).2
  · obtain ⟨hlimits, hadmits⟩ := admits_of_verdict hverdict
    obtain ⟨-, hpath', hceiling⟩ := bounds_eq hlimits
    have hwithin := hadmits.within_ceiling (by omega) hcall
    cases hadmits with
    | measured => exact ends_fitting attempts last hwithin
    | raise hlater | lengthen hlater => simp at hlater

theorem ends_reaching (attempts : Attempts) (now : Journaled PipelineSearch)
    (hpath : now.state.criticalPathEnd ≤ now.state.ceiling) : attempts.Ends .reaching now := by
  obtain ⟨measure, hmeasure⟩ : ∃ measure,
      now.state.ceiling + 1 - now.state.criticalPathEnd < measure := ⟨_, Nat.lt_succ_self _⟩
  induction measure generalizing now with
  | zero => exact absurd hmeasure (Nat.not_lt_zero _)
  | succ measure ih =>
      refine attempts.ends_of_admits (fun next middle hverdict => ?_)
        fun call next middle last hverdict hcall => ?_
      · obtain ⟨hlimits, hadmits⟩ := admits_of_verdict hverdict
        obtain ⟨-, hpath', hceiling⟩ := bounds_eq hlimits
        cases hadmits
        exact ends_measuring attempts middle (by omega)
      · obtain ⟨hlimits, hadmits⟩ := admits_of_verdict hverdict
        obtain ⟨-, hpath', hceiling⟩ := bounds_eq hlimits
        have hwithin := hadmits.within_ceiling (by omega) hcall
        obtain ⟨hceiling', hlonger, -⟩ := bounds_of_eq_ok hcall
        cases hadmits with
        | short =>
            simp only [if_true] at hlonger
            exact ih last hwithin (by omega)
        | raise hlater | lengthen hlater => simp at hlater

/-! ## The rounds that bound the loops never run out -/

/-- After a phase without success a bound is raised and the loop goes round once more. -/
def goRound (loop : Step PipelineSearch PUnit) : Verdict → Step PipelineSearch PUnit
  | .call call _ => do
    call.perform
    loop
  | _ => return

theorem reachCriticalPath_succ (rounds : Nat) :
    reachCriticalPath (rounds + 1) =
      placing.verdict .reaching >>= goRound (reachCriticalPath rounds) := by
  rw [reachCriticalPath, Attempts.verdict, bind_assoc]
  congr 1
  funext placed
  cases placed <;> simp [goRound, Call.perform]

theorem reachState_succ (rounds : Nat) :
    reachState (rounds + 1) = placing.verdict .fitting >>= fun verdict =>
      match verdict with
      | .goOn _ => placing.verdict .sharing >>= goRound (reachState rounds)
      | verdict => goRound (reachState rounds) verdict := by
  have hsharing : (placing.verdict .sharing >>= goRound (reachState rounds)) = (do
      if ← placeState then return
      else
        relaxSharing
        reachState rounds) := by
    rw [Attempts.verdict, bind_assoc]
    congr 1
    funext shared
    cases shared with
    | true => simp [goRound]
    | false =>
        simp only [Bool.false_eq_true, if_false, relaxSharing, bind_assoc]
        congr 1
        funext search
        split <;> simp [goRound, Call.perform]
  rw [reachState, Attempts.verdict, bind_assoc, hsharing]
  congr 1
  funext placed
  cases placed with
  | true => simp
  | false =>
      simp only [Bool.false_eq_true, if_false, relaxDependencies, bind_assoc]
      congr 1
      funext search
      congr 1
      funext twice
      split <;> simp [goRound, Call.perform]

theorem bind_of_eq_error {α β : Type} {first : Step PipelineSearch α}
    {next : α → Step PipelineSearch β} (h : first now = .error failure last) :
    (first >>= next) now = .error failure last :=
  Step.bind_eq_error.mpr (Or.inl h)

/-- As long as there are rounds left, the loop does what the run does. -/
theorem reachState_eq {rounds : Nat} (h : placing.Runs .fitting now calls ending)
    (hpath : now.state.criticalPathEnd ≤ now.state.ceiling)
    (hrounds : remaining now.state ≤ rounds) : reachState rounds now = ending := by
  induction rounds generalizing now calls with
  | zero =>
      unfold remaining at hrounds
      omega
  | succ rounds ih =>
      have hround : ∀ {phase call next middle last calls start},
          placing.verdict phase start = .ok (.call call next) middle →
          phase = .fitting ∨ phase = .sharing → start.state.limits = now.state.limits →
          call.perform middle = .ok ⟨⟩ last → placing.Runs next last calls ending →
          reachState rounds last = ending := by
        intro phase call next middle last calls start hverdict hphase hlimits hcall hruns
        obtain ⟨-, hpath', hceiling⟩ := bounds_eq hlimits
        have hremaining := remaining_eq hlimits
        obtain ⟨rfl, hwithin, hlt⟩ := remaining_lt_of_verdict hverdict hphase (by omega) hcall
        exact ih hruns hwithin (by omega)
      rw [reachState_succ]
      cases h with
      | done hverdict => nomatch (admits_of_verdict hverdict).2
      | failed hverdict => exact bind_of_eq_error hverdict
      | refused hverdict hcall =>
          rw [Step.bind_of_eq_ok hverdict]
          exact bind_of_eq_error hcall
      | called hverdict hcall hruns =>
          rw [Step.bind_of_eq_ok hverdict]
          exact (Step.bind_of_eq_ok hcall).trans (hround hverdict (.inl rfl) rfl hcall hruns)
      | goOn hverdict hruns =>
          obtain ⟨hlimits, hadmits⟩ := admits_of_verdict hverdict
          cases hadmits
          rw [Step.bind_of_eq_ok hverdict]
          cases hruns with
          | done hverdict => exact (Step.bind_of_eq_ok hverdict).trans rfl
          | failed hverdict => exact bind_of_eq_error hverdict
          | goOn hverdict _ => nomatch (admits_of_verdict hverdict).2
          | refused hverdict hcall =>
              exact (Step.bind_of_eq_ok hverdict).trans (bind_of_eq_error hcall)
          | called hverdict hcall hruns =>
              refine (Step.bind_of_eq_ok hverdict).trans ((Step.bind_of_eq_ok hcall).trans ?_)
              exact hround hverdict (.inr rfl) hlimits hcall hruns

/-- What the search does once the critical path is reached. -/
def settle : Step PipelineSearch PUnit := do
  computeInterval
  let search ← Step.current
  reachState
    ((search.ceiling + 1 - search.criticalPathEnd) + (search.ceiling + 1 - search.interval))

theorem settle_eq (h : placing.Runs .measuring now calls ending)
    (hpath : now.state.criticalPathEnd ≤ now.state.ceiling) : settle now = ending := by
  have hmeasuring : placing.verdict .measuring now = .ok (.call .compute .fitting) now := rfl
  cases h with
  | done hverdict | goOn hverdict => nomatch (admits_of_verdict hverdict).2
  | failed hverdict => cases hmeasuring.symm.trans hverdict
  | refused hverdict hcall =>
      cases hmeasuring.symm.trans hverdict
      exact bind_of_eq_error hcall
  | called hverdict hcall hruns =>
      cases hmeasuring.symm.trans hverdict
      refine (Step.bind_of_eq_ok hcall).trans ?_
      exact reachState_eq hruns ((admits_of_verdict hverdict).2.within_ceiling hpath hcall) le_rfl

theorem reachCriticalPath_bind_settle {rounds : Nat} (h : placing.Runs .reaching now calls ending)
    (hpath : now.state.criticalPathEnd ≤ now.state.ceiling)
    (hrounds : now.state.ceiling + 1 - now.state.criticalPathEnd ≤ rounds) :
    (reachCriticalPath rounds >>= fun _ => settle) now = ending := by
  induction rounds generalizing now calls with
  | zero => omega
  | succ rounds ih =>
      rw [reachCriticalPath_succ, bind_assoc]
      cases h with
      | done hverdict => nomatch (admits_of_verdict hverdict).2
      | failed hverdict => exact bind_of_eq_error hverdict
      | goOn hverdict hruns =>
          obtain ⟨hlimits, hadmits⟩ := admits_of_verdict hverdict
          obtain ⟨-, hpath', hceiling⟩ := bounds_eq hlimits
          cases hadmits
          rw [Step.bind_of_eq_ok hverdict]
          exact settle_eq hruns (by omega)
      | refused hverdict hcall =>
          rw [Step.bind_of_eq_ok hverdict]
          exact bind_of_eq_error (bind_of_eq_error hcall)
      | called hverdict hcall hruns =>
          obtain ⟨hlimits, hadmits⟩ := admits_of_verdict hverdict
          obtain ⟨-, hpath', hceiling⟩ := bounds_eq hlimits
          have hwithin := hadmits.within_ceiling (by omega) hcall
          obtain ⟨hceiling', hlonger, -⟩ := bounds_of_eq_ok hcall
          rw [Step.bind_of_eq_ok hverdict]
          cases hadmits with
          | raise hlater | lengthen hlater => simp at hlater
          | short =>
              simp only [if_true] at hlonger
              have hloop := ih hruns hwithin (by omega)
              rw [goRound, bind_assoc]
              exact (Step.bind_of_eq_ok hcall).trans hloop

/-- The whole search makes the run, and commits what it finds. -/
theorem complete_eq (h : placing.Runs .reaching now calls ending)
    (hpath : now.state.criticalPathEnd ≤ now.state.ceiling) :
    complete now = ((fun _ => ending : Step PipelineSearch PUnit) >>= fun _ => commit) now := by
  have hloops := reachCriticalPath_bind_settle h hpath le_rfl
  have hsplit : complete = (do
      let search ← Step.current
      (reachCriticalPath (search.ceiling + 1 - search.criticalPathEnd) >>= fun _ => settle)
        >>= fun _ => commit) := by
    simp [complete, settle]
  rw [hsplit, Step.current_bind]
  show EStateM.bind _ _ now = EStateM.bind _ _ now
  unfold EStateM.bind
  rw [hloops]

theorem criticalPathEnd_le_of_start {now last : Journaled Graph} {search : PipelineSearch}
    (h : start now = .ok search last) :
    search.interval = 0 ∧ search.criticalPathEnd ≤ search.ceiling := by
  rw [start, Step.current_bind] at h
  rcases Step.ite_eq_ok.mp h with ⟨_, h⟩ | ⟨_, h⟩
  · exact absurd h Step.fail_bind_ne_ok
  cases hexit : now.state.exitRoot with
  | none =>
      rw [hexit] at h
      exact absurd h Step.fail_ne_ok
  | some exit =>
      rw [hexit] at h
      obtain ⟨_, reset, _, h⟩ := Step.bind_eq_ok.mp h
      rw [Step.current_bind] at h
      obtain ⟨_, _, h⟩ := Step.lift_bind_eq_ok.mp h
      obtain ⟨_, _, h⟩ := Step.lift_bind_eq_ok.mp h
      obtain ⟨_, _, h⟩ := Step.lift_bind_eq_ok.mp h
      obtain ⟨sum, hsum, h⟩ := Step.lift_bind_eq_ok.mp h
      obtain ⟨ceiling, hceiling, h⟩ := Step.lift_bind_eq_ok.mp h
      obtain ⟨ceiling', hceiling', h⟩ := Step.lift_bind_eq_ok.mp h
      rw [Step.note_bind, Step.pure_eq_ok] at h
      obtain ⟨rfl, _⟩ := h
      refine ⟨rfl, ?_⟩
      have h₁ := (Word.add_eq_ok.mp hsum).2
      have h₂ := (Word.add_eq_ok.mp hceiling).2
      have h₃ := (Word.add_eq_ok.mp hceiling').2
      simp only
      omega

/-- A search that has started comes to an end, whatever its attempts to place the units find, and
its run is the only one.  On the way the critical path is lengthened no more often than its end is
below the ceiling, and once more, so that it ends at most one slot past the ceiling; and the
interval is raised no more often than the ceiling says, to the ceiling at most unless the least
interval lies above it.  With its own attempts the search makes this run and then commits what it
has found. -/
theorem search_withinBudget (attempts : Attempts) {now last : Journaled Graph}
    {search : PipelineSearch}
    (h : start now = .ok search last) :
    let begun : Journaled PipelineSearch := ⟨{ search with graph := last.state }, last.journal⟩
    ∃ calls ending, attempts.Runs .reaching begun calls ending ∧
      (∀ calls' ending', attempts.Runs .reaching begun calls' ending' →
        calls' = calls ∧ ending' = ending) ∧
      calls.countP (·.1 = .lengthen) ≤ search.ceiling + 1 - search.criticalPathEnd ∧
      calls.countP (·.1 = .raise) ≤ search.ceiling ∧
      (∀ call ∈ calls, call.2.criticalPathEnd ≤ search.ceiling + 1) ∧
      (∀ measured, (.compute, measured) ∈ calls →
        ∀ call ∈ calls, call.2.interval ≤ max measured.interval search.ceiling) ∧
      (attempts = placing → run now =
        Step.focus (fun graph => { search with graph }) (fun _ search => search.graph)
          ((fun _ => ending : Step PipelineSearch PUnit) >>= fun _ => commit) last) := by
  intro begun
  obtain ⟨hzero, hpath⟩ := criticalPathEnd_le_of_start h
  have hpath : begun.state.criticalPathEnd ≤ begun.state.ceiling := hpath
  have hinterval : begun.state.interval ≤ begun.state.ceiling := hzero.trans_le (Nat.zero_le _)
  obtain ⟨calls, ending, hruns⟩ := ends_reaching attempts begun hpath
  obtain ⟨hlengthened, hends⟩ := hruns.lengthen_le hpath
  obtain ⟨hraised, hintervals⟩ := hruns.interval_le (.inl rfl) hpath hinterval
  refine ⟨calls, ending, hruns, fun _ _ => hruns.unique, Nat.le_sub_of_add_le hlengthened, hraised,
    hends, hintervals, ?_⟩
  rintro rfl
  rw [run, Step.bind_of_eq_ok h, Step.focus, complete_eq hruns hpath]
  rfl

theorem search_withinBudget_turningLoop :
    ∃ search last, start ⟨turningLoop, {}⟩ = .ok search last ∧
      ∃ calls ending, placing.Runs .reaching ⟨{ search with graph := last.state }, last.journal⟩
          calls ending ∧
        calls.countP (·.1 = .lengthen) ≤ search.ceiling + 1 - search.criticalPathEnd ∧
        calls.countP (·.1 = .raise) ≤ search.ceiling := by
  have hsucceeds : start.succeeds ⟨turningLoop, {}⟩ (fun _ => true) = true := by decide +kernel
  obtain ⟨search, last, hstart, _⟩ := Step.exists_of_succeeds hsucceeds
  obtain ⟨calls, ending, hruns, _, hlengthened, hraised, _⟩ := search_withinBudget placing hstart
  exact ⟨search, last, hstart, calls, ending, hruns, hlengthened, hraised⟩

end SlotScheduling.PipelineSearch
