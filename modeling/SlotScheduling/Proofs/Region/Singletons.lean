import SlotScheduling.Proofs.Region.BlockOrder

/-!
# Regions of one block

A block that does not loop back to itself has the same schedule, or fails in the same way, whether
it is scheduled as a block or as a region of its own.  A loop takes another way in a region: its
schedule is frozen, and solved once more together with the rest.  If that succeeds, a loop at the
start of the region comes out as it does on its own.
-/

namespace SlotScheduling

open SlotScheduling.Graph

/-- A search that fails does so in the same round as a map that fails in the same rounds. -/
theorem Checked.mapM_eq_error_of_anyM {α β : Type} {list : List α} {test : α → Checked Bool}
    {f : α → Checked β} {failure : Failure}
    (hok : ∀ {item found}, test item = .ok found → ∃ value, f item = .ok value)
    (herror : ∀ {item cause}, test item = .error cause → f item = .error cause)
    (h : list.anyM test = .error failure) : list.mapM f = .error failure := by
  induction list with
  | nil => cases h
  | cons item rest ih =>
      rw [List.mapM_cons]
      cases htest : test item with
      | error cause =>
          rw [List.anyM, htest] at h
          cases h
          rw [herror htest]
          rfl
      | ok found =>
          obtain ⟨value, hvalue⟩ := hok htest
          rw [List.anyM, htest] at h
          cases found with
          | true => cases h
          | false =>
              rw [hvalue, Checked.ok_bind, ih h]
              rfl

namespace Region

variable {σ : Type} {program : Program} {basic : BasicBlock} {entrySlot : Nat}
  {options : SchedulingOptions} {now : Journaled σ} {failure : Failure}

/-- An operation that is not known when loops are looked for is not known in lowering either. -/
theorem unitOrder_eq_error (h : isSelfLoop program basic = .error failure) :
    Lowering.unitOrder program basic = .error failure := by
  have hends := Checked.mapM_eq_error_of_anyM (f := fun op => do
    return (op, (← program.ops.operation op).terminator)) (fun {op found} htest => ?_)
      (fun {op cause} htest => ?_) h
  · rw [Lowering.unitOrder, hends]
    rfl
  · obtain ⟨operation, hoperation, -⟩ := Checked.bind_eq_ok.mp htest
    exact ⟨_, by rw [hoperation]; rfl⟩
  · cases hoperation : program.ops.operation op with
    | ok operation =>
        rw [hoperation] at htest
        cases htest
    | error cause' =>
        rw [hoperation] at htest
        cases htest
        rfl

/-- A block that does not loop is added to an empty region as it is lowered. -/
theorem addBlock_start (hloop : isSelfLoop program basic ≠ .ok true) :
    (addBlock program entrySlot options (Lowering.start basic.id entrySlot) basic :
      Step σ Lowering) = Lowering.lowerBlock program (Lowering.start basic.id entrySlot) basic := by
  funext now
  cases hloops : isSelfLoop program basic with
  | ok loops =>
      cases loops with
      | true => exact absurd hloops hloop
      | false => rw [addBlock, Step.lift_bind_of_eq_ok hloops]; rfl
  | error failure =>
      rw [Lowering.lowerBlock, Step.lift_bind_of_eq_ok (Lowering.enter_start _ _)]
      have hadd : (addBlock program entrySlot options (Lowering.start basic.id entrySlot) basic :
          Step σ Lowering) now = .error failure now := by
        rw [addBlock, hloops]
        rfl
      rw [hadd, unitOrder_eq_error hloops]
      rfl

/-- A region of one block that does not loop is scheduled as the block is, and reported. -/
theorem schedule_singleton (hloop : isSelfLoop program basic ≠ .ok true) :
    (Region.schedule program [basic] entrySlot options : Step σ (Graph × Schedule)) = (do
      let result ← scheduleBlock program basic entrySlot options
      let slots ← span result.1 entrySlot
      Step.note .info fun _ =>
        "scheduled region " ++ s!"block#{basic.id}" ++ s!" in {slots} slots"
      return result) := by
  have hnames : String.intercalate ", " ([basic].map fun block => s!"block#{block.id}") =
      s!"block#{basic.id}" := by
    rfl
  simp only [Region.schedule, List.foldlM_cons, List.foldlM_nil, addBlock_start hloop,
    bind_pure, scheduleBlock, Lowering.buildBlock, bind_assoc, hnames, pure_bind]

/-- The span of a graph that was scheduled for a block is known. -/
theorem exists_span {g : Graph} (hg : Alone program basic entrySlot g) :
    ∃ slots, span g entrySlot = .ok slots := by
  obtain ⟨exit, hexit, hcontrol, -⟩ := hg.exit
  obtain ⟨unit, hunit, -⟩ := hcontrol
  exact ⟨_, by rw [span, hexit]; simp only [unit_eq_ok.mpr hunit]; rfl⟩

theorem alone_of_scheduleBlock {g : Graph} {schedule : Schedule} {last : Journaled σ}
    (h : scheduleBlock program basic entrySlot options now = .ok (g, schedule) last) :
    Alone program basic entrySlot g := by
  obtain ⟨built, now₁, hbuild, h⟩ := Step.bind_eq_ok.mp h
  obtain ⟨done, now₂, hschedule, h⟩ := Step.bind_eq_ok.mp h
  obtain ⟨report, -, h⟩ := Step.lift_bind_eq_ok.mp h
  obtain ⟨heq, -⟩ := Step.pure_eq_ok.mp h
  cases heq
  exact alone_of_eq_ok (Step.bind_eq_ok.mpr ⟨built, now₁, hbuild, hschedule⟩)

/-- Once a block is scheduled, the region that consists of it only has to be reported. -/
theorem exists_report {result : Graph × Schedule} {last : Journaled σ}
    (h : scheduleBlock program basic entrySlot options now = .ok result last) :
    ∃ done, (do
      let slots ← span result.1 entrySlot
      Step.note .info fun _ =>
        "scheduled region " ++ s!"block#{basic.id}" ++ s!" in {slots} slots"
      return result : Step σ (Graph × Schedule)) last = .ok result done := by
  obtain ⟨slots, hspan⟩ := exists_span (alone_of_scheduleBlock h)
  exact ⟨_, by rw [Step.lift_bind_of_eq_ok hspan, Step.note_bind]; rfl⟩

/-- A block that does not loop has the schedule of the region that consists of it. -/
theorem schedule_singleton_eq_ok_iff (hloop : isSelfLoop program basic ≠ .ok true)
    {result : Graph × Schedule} :
    (∃ last, Region.schedule program [basic] entrySlot options now = .ok result last) ↔
      ∃ last, scheduleBlock program basic entrySlot options now = .ok result last := by
  rw [schedule_singleton hloop]
  constructor
  · rintro ⟨last, h⟩
    obtain ⟨result', middle, hrun, h⟩ := Step.bind_eq_ok.mp h
    obtain ⟨done, hreport⟩ := exists_report hrun
    rw [hreport] at h
    cases h
    exact ⟨middle, hrun⟩
  · rintro ⟨middle, hrun⟩
    obtain ⟨done, hreport⟩ := exists_report hrun
    exact ⟨done, (Step.bind_of_eq_ok hrun).trans hreport⟩

/-- A block that does not loop fails as the region that consists of it does. -/
theorem schedule_singleton_eq_error_iff (hloop : isSelfLoop program basic ≠ .ok true) :
    (∃ last, Region.schedule program [basic] entrySlot options now = .error failure last) ↔
      ∃ last, scheduleBlock program basic entrySlot options now = .error failure last := by
  rw [schedule_singleton hloop]
  constructor
  · rintro ⟨last, h⟩
    rcases Step.bind_eq_error.mp h with h | ⟨result, middle, hrun, h⟩
    · exact ⟨last, h⟩
    · obtain ⟨done, hreport⟩ := exists_report hrun
      rw [hreport] at h
      cases h
  · rintro ⟨last, h⟩
    exact ⟨last, Step.bind_eq_error.mpr (Or.inl h)⟩

end Region

/-- A loop whose entry is folded into the entry of the region keeps its slots: the frozen edges tie
all its units, the entry among them, to its terminator. -/
theorem Graph.Settled.slot?_of_folded {program : Program} {basic : BasicBlock}
    {entrySlot base s : Nat} {sub g built : Graph} {done : Completed} {id : UnitId}
    (hsettled : Settled built g)
    (hembeds : Embeds sub done base (some built.entryRoot) built) (hdone : Complete sub done)
    (halone : Alone program basic entrySlot sub)
    (hroot : ∀ exit, built.exitRoot = some exit →
      relocate base (some built.entryRoot) done.exit ≤ exit)
    (hentry : built.IsControl built.entryRoot) (hstart : built.entrySlot = entrySlot)
    (hmoves : Moves (some built.entryRoot) id) (hid : id < done.exit) (hs : sub.slot? id = some s) :
    g.slot? (relocate base (some built.entryRoot) id) = some s := by
  obtain ⟨hne, -⟩ := halone.terminator hdone
  have hterminator : done.terminator < done.exit := hdone.last ▸ Nat.lt_succ_self _
  obtain ⟨shift, hshift⟩ := hsettled.exists_shift hembeds hdone halone hroot
  obtain ⟨last, hlast⟩ := hdone.placed hterminator
  obtain ⟨last', hlast', hmoved'⟩ := hshift (Or.inr hne) hterminator hlast
  obtain ⟨x, hx, hmoved⟩ := hshift hmoves hid hs
  have hfirst : g.slot? (relocate base (some built.entryRoot) 0) = some entrySlot :=
    hstart ▸ hsettled.entry
  have hcontrol : built.IsControl (relocate base (some built.entryRoot) 0) := hentry
  have htied := hsettled.slot_of_tied hembeds hdone halone hroot (Or.inr (halone.later hlast))
    (hdone.last ▸ Nat.succ_pos _) (Or.inl hcontrol) halone.first hlast hfirst hlast'
  have hsame := halone.entrySlot
  rw [hx, Option.some.injEq]
  omega

/-- A loop that a region begins with is scheduled in the region as it is on its own. -/
theorem firstLoop_stays {σ : Type} {program : Program} {basic : BasicBlock}
    {rest : List BasicBlock} {entrySlot : Nat} {options : SchedulingOptions}
    {now last : Journaled σ} {g : Graph} {schedule : Schedule}
    (hdistinct : Region.Distinct (basic :: rest))
    (h : Region.schedule program (basic :: rest) entrySlot options now = .ok (g, schedule) last)
    (hloop : Region.isSelfLoop program basic = .ok true) :
    ∃ sub alone, (∀ now' : Journaled σ, now'.journal.threshold = now.journal.threshold →
        ∃ last', scheduleBlock program basic entrySlot options now' = .ok (sub, alone) last') ∧
      Schedule.Shifts basic 0 alone schedule := by
  obtain ⟨l, now', built, hfold, houtcome, hreport⟩ := Region.exists_run_of_eq_ok h
  rw [List.foldlM_cons] at hfold
  obtain ⟨l₁, now₁, hadd, hrest⟩ := Step.bind_eq_ok.mp hfold
  have hstart : (Lowering.start basic.id entrySlot).graph.Growing :=
    Graph.growing_start basic.id entrySlot
  obtain ⟨sub, done, anchor, hgets, halone, hmerges⟩ := Region.merges_addBlock hstart hloop hadd
  obtain ⟨hadded, -, -⟩ := Region.addBlock_eq_ok hstart hadd
  obtain ⟨-, hafter, -⟩ := Region.foldlM_addBlock_eq_ok (hadded.growing hstart) hrest
  obtain ⟨block, hcloses⟩ := houtcome.closes
  have hhouses := Region.houses_of_absorbs hmerges.absorbs halone hmerges.complete
    (fun _ hleads => by cases (leads_start.mp hleads).2) rfl hafter
    (List.pairwise_cons.mp hdistinct).1 hcloses
  obtain ⟨alone, hreport'⟩ := exists_ofGraph halone.unfused halone.placed
  obtain rfl : anchor = some built.entryRoot :=
    hmerges.folded (Lowering.takesEntry_start.mpr halone.entryBlock)
  have hentry : built.IsControl built.entryRoot :=
    (hcloses.agrees.isControl_iff houtcome.growing.root.lt_size).mpr houtcome.growing.root
  refine ⟨sub, alone, fun now' hnow' => hgets.exists_scheduleBlock hreport' hnow',
    houtcome.shifts halone hmerges.complete hhouses hreport hreport' fun hmoves hid hs => ?_⟩
  exact ⟨_, houtcome.settled.slot?_of_folded hhouses.toEmbeds hmerges.complete halone
    hhouses.unclosed hentry houtcome.entrySlot_eq hmoves hid hs, by omega⟩

end SlotScheduling
