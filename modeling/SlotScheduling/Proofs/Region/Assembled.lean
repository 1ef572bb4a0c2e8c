import SlotScheduling.Proofs.Messages
import SlotScheduling.Proofs.Region.Embedded
import SlotScheduling.Proofs.Reports

/-!
# Assembled regions

The graph of a region is made of its blocks.  A block that loops back to itself joins
with the schedule that it has on its own, and any other block is lowered.
-/

namespace SlotScheduling

namespace Graph

variable {block : BlockId} {g g' : Graph} {options : SchedulingOptions}

theorem Closes.ready (h : Closes block g g') (hg : g.Growing) : g'.Ready where
  toWellFormed := h.toWellFormed
  straight := by
    have hloop := congrArg (fun rest => rest.2.2.2.2) h.surroundings
    have hloop : g'.loopOp = none := hloop.trans hg.straight
    rw [isPipelined, hloop]
    rfl
  root := (h.agrees.isControl_iff hg.root.lt_size).mpr hg.root
  exit := h.hasExit hg.root
  free := by
    intro id hdata
    by_cases hid : id < g.units.size
    · obtain ⟨unit, hunit, _⟩ := hdata
      obtain ⟨unit', hunit', hbare⟩ := h.agrees.exists_unit hid hunit
      rw [slot?_eq hunit, (hg.fresh_of_bare_eq hunit' hbare).1]
    · exact absurd hdata (h.not_isData (Nat.not_lt.mp hid))
  braced := by
    intro id hdata hfrozen
    by_cases hid : id < g.units.size
    · refine h.agrees.braced hg.braced (fun exit hexit => ?_) hid hdata hfrozen
      exact Nat.le_of_eq (Option.some.inj (h.exitRoot.symm.trans hexit))
    · exact absurd hdata (h.not_isData (Nat.not_lt.mp hid))

end Graph

namespace Region

open SlotScheduling.Graph

variable {σ : Type} {program : Program} {entrySlot : Nat} {options : SchedulingOptions}
  {basic : BasicBlock} {l l' : Lowering} {now last : Journaled σ}

/-- The block gets this graph on its own, whatever has been noted before. -/
def GetsAlone (σ : Type) (program : Program) (basic : BasicBlock) (entrySlot : Nat)
    (options : SchedulingOptions) (threshold : Option Level) (sub : Graph) : Prop :=
  ∀ now : Journaled σ, now.journal.threshold = threshold → ∃ last,
    (do
      let g ← Lowering.buildBlock program basic entrySlot
      scheduleApart options g : Step σ Graph) now = .ok sub last

/-- The second graph is the first one with a block added. -/
inductive Added (σ : Type) (program : Program) (entrySlot : Nat) (options : SchedulingOptions)
    (threshold : Option Level) (basic : BasicBlock) (g g' : Graph) : Prop
  | lowered (hloops : isSelfLoop program basic = .ok false)
      (h : Lowering.Lowers program basic g g')
  | merged (hloops : isSelfLoop program basic = .ok true) {sub : Graph} {done : Completed}
      {anchor : Option UnitId} (hgets : GetsAlone σ program basic entrySlot options threshold sub)
      (halone : Alone program basic entrySlot sub) (hdone : Complete sub done)
      (h : Absorbs sub done anchor g g')

theorem not_loopsBack (h : isSelfLoop program basic = .ok false) (g : Graph) :
    ¬Lowering.LoopsBack program basic g := by
  rintro ⟨hentry, op, hop, operation, hoperation, hterminator, htarget⟩
  obtain ⟨operation', hoperation', hnot⟩ := Checked.bind_eq_ok.mp (Checked.anyM_eq_ok_false h hop)
  obtain rfl := Except.ok.inj (hoperation.symm.trans hoperation')
  have hnot := Checked.pure_eq_ok.mp hnot
  simp [hterminator, htarget, hentry] at hnot

/-- A loop is scheduled on its own and joins with that schedule. -/
theorem merges_addBlock (hg : l.graph.Growing) (hloop : isSelfLoop program basic = .ok true)
    (h : addBlock program entrySlot options l basic now = .ok l' last) :
    ∃ sub done anchor, GetsAlone σ program basic entrySlot options now.journal.threshold sub ∧
      Alone program basic entrySlot sub ∧ Lowering.Merges sub done anchor l l' := by
  obtain ⟨loops, hloops, h⟩ := Step.lift_bind_eq_ok.mp h
  obtain rfl := Except.ok.inj (hloops.symm.trans hloop)
  obtain ⟨sub, middle, hsub, hmerge⟩ : ∃ sub middle, (do
      let g ← Lowering.buildBlock program basic entrySlot
      scheduleApart options g : Step σ Graph) now = .ok sub middle ∧
        l.mergeBlock sub middle = .ok l' last := by
    obtain ⟨built, now₁, hbuild, h⟩ := Step.bind_eq_ok.mp h
    obtain ⟨sub, now₂, hschedule, h⟩ := Step.bind_eq_ok.mp h
    exact ⟨sub, now₂, Step.bind_eq_ok.mpr ⟨built, now₁, hbuild, hschedule⟩, h⟩
  have halone := alone_of_eq_ok hsub
  obtain ⟨done, anchor, hmerges⟩ :=
    Lowering.mergeBlock_eq_ok hg.toWellFormed hg.root halone.toListed hmerge
  refine ⟨sub, done, anchor, fun other hother => ?_, halone, hmerges⟩
  obtain ⟨last', hsub', _⟩ := ((Lowering.parallel_buildBlock (Q := fun _ _ => True) program basic
    entrySlot).bind fun g => parallel_scheduleApart options g).of_eq_ok
      ⟨trivial, rfl, hother⟩ hsub
  exact ⟨last', hsub'⟩

theorem addBlock_eq_ok (hg : l.graph.Growing)
    (h : addBlock program entrySlot options l basic now = .ok l' last) :
    Added σ program entrySlot options now.journal.threshold basic l.graph l'.graph ∧
      last.journal.threshold = now.journal.threshold ∧ l'.lastBlock = basic.id := by
  obtain ⟨_, _, hlast⟩ := (parallel_addBlock (Q := Eq) program entrySlot options l basic).of_eq_ok
    ⟨rfl, rfl, rfl⟩ h
  have hthreshold := hlast.left
  obtain ⟨loops, hloops, hadd⟩ := Step.lift_bind_eq_ok.mp h
  cases loops with
  | false =>
      obtain ⟨hlowers, _, hblock⟩ :=
        Lowering.lowers_lowerBlock hg.toWellFormed hg.held hg.rootLead hadd
      exact ⟨.lowered hloops hlowers, hthreshold, hblock⟩
  | true =>
      obtain ⟨sub, done, anchor, hgets, halone, hmerges⟩ := merges_addBlock hg hloops h
      exact ⟨.merged hloops hgets halone hmerges.complete hmerges.absorbs, hthreshold,
        hmerges.lastBlock.trans halone.entryBlock⟩

section

variable {threshold : Option Level} {g g' : Graph}

theorem Added.grows (h : Added σ program entrySlot options threshold basic g g') :
    Grows program [basic] g g' := by
  cases h with
  | lowered _ h => exact grows_of_lowers h
  | merged _ _ halone hdone h => exact grows_of_absorbs h hdone halone

theorem Added.growing (h : Added σ program entrySlot options threshold basic g g')
    (hg : g.Growing) : g'.Growing := by
  cases h with
  | lowered hloops h => exact growing_of_lowers hg h (not_loopsBack hloops g)
  | merged _ _ halone hdone h => exact growing_of_absorbs h hdone halone hg

end

theorem foldlM_addBlock_eq_ok {blocks : List BasicBlock} (hg : l.graph.Growing)
    (h : blocks.foldlM (addBlock program entrySlot options) l now = .ok l' last) :
    l'.graph.Growing ∧ Grows program blocks l.graph l'.graph ∧
      last.journal.threshold = now.journal.threshold := by
  induction blocks generalizing l now with
  | nil =>
      obtain ⟨rfl, rfl⟩ := Step.pure_eq_ok.mp h
      exact ⟨hg, Grows.refl program _, rfl⟩
  | cons basic rest ih =>
      rw [List.foldlM_cons, Step.bind_eq_ok] at h
      obtain ⟨l₁, now₁, hadd, h⟩ := h
      obtain ⟨hadded, hthreshold, _⟩ := addBlock_eq_ok hg hadd
      obtain ⟨hgrowing, hgrows, hrest⟩ := ih (hadded.growing hg) h
      exact ⟨hgrowing, hadded.grows.trans hgrows, hrest.trans hthreshold⟩

/-- A region that was scheduled: the graph of its blocks, the same with an exit, and the
same with a schedule. -/
structure Outcome (σ : Type) (program : Program) (blocks : List BasicBlock) (entrySlot : Nat)
    (options : SchedulingOptions) (threshold : Option Level) (whole built g : Graph) : Prop where
  growing : whole.Growing
  closes : ∃ block, Closes block whole built
  run : ∃ first rest l, ∃ now last : Journaled σ, blocks = first :: rest ∧
    blocks.foldlM (addBlock program entrySlot options) (Lowering.start first.id entrySlot) now =
      .ok l last ∧ l.graph = whole
  added : ∀ {before basic after}, blocks = before ++ basic :: after → ∃ entry g₁ g₂,
    Grows program before (Graph.start entry entrySlot) g₁ ∧ g₁.Growing ∧
      Added σ program entrySlot options threshold basic g₁ g₂ ∧ Grows program after g₂ whole
  closing : ∀ {init basic}, blocks = init ++ [basic] →
    Closes basic.id whole built ∧ built.verify = .ok ⟨⟩
  settled : Settled built g
  controlClass : ∀ {id}, built.IsControl id → g.class? id = built.class? id
  frozenClass : ∀ {id}, built.IsFrozen id → (built.class? id).isSome →
    g.class? id = built.class? id

theorem exists_added {before after : List BasicBlock} (hg : l.graph.Growing)
    (h : (before ++ basic :: after).foldlM (addBlock program entrySlot options) l now =
      .ok l' last) :
    ∃ g₁ g₂, Grows program before l.graph g₁ ∧ g₁.Growing ∧
      Added σ program entrySlot options now.journal.threshold basic g₁ g₂ ∧
        Grows program after g₂ l'.graph := by
  rw [List.foldlM_append, Step.bind_eq_ok] at h
  obtain ⟨l₁, now₁, hbefore, h⟩ := h
  rw [List.foldlM_cons, Step.bind_eq_ok] at h
  obtain ⟨l₂, now₂, hadd, hafter⟩ := h
  obtain ⟨hgrowing, hgrows, hthreshold⟩ := foldlM_addBlock_eq_ok hg hbefore
  obtain ⟨hadded, _, _⟩ := addBlock_eq_ok hgrowing hadd
  rw [hthreshold] at hadded
  exact ⟨_, _, hgrows, hgrowing, hadded,
    (foldlM_addBlock_eq_ok (hadded.growing hgrowing) hafter).2.1⟩

/-- The block that was added last is the one that is closed. -/
theorem lastBlock_foldlM {init : List BasicBlock} (hg : l.graph.Growing)
    (h : (init ++ [basic]).foldlM (addBlock program entrySlot options) l now = .ok l' last) :
    l'.lastBlock = basic.id := by
  rw [List.foldlM_append, Step.bind_eq_ok] at h
  obtain ⟨before, now₁, hinit, h⟩ := h
  obtain ⟨after, now₂, hadd, h⟩ := Step.bind_eq_ok.mp h
  obtain ⟨rfl, _⟩ := Step.pure_eq_ok.mp h
  exact (addBlock_eq_ok (foldlM_addBlock_eq_ok hg hinit).1 hadd).2.2

/-- The graph that a region yields is the graph of its blocks, as they were added one after the
other, with a schedule. -/
theorem exists_run_of_eq_ok {first : BasicBlock} {rest : List BasicBlock} {g : Graph}
    {schedule : Schedule}
    (h : Region.schedule program (first :: rest) entrySlot options now = .ok (g, schedule) last) :
    ∃ l now' built, (first :: rest).foldlM (addBlock program entrySlot options)
        (Lowering.start first.id entrySlot) now = .ok l now' ∧
      Outcome σ program (first :: rest) entrySlot options now.journal.threshold l.graph built g ∧
      Schedule.ofGraph g = .ok schedule := by
  unfold Region.schedule at h
  dsimp only at h
  obtain ⟨l, now₁, hfold, h⟩ := Step.bind_eq_ok.mp h
  obtain ⟨built, hfinish, h⟩ := Step.lift_bind_eq_ok.mp h
  obtain ⟨finished, now₂, hschedule, h⟩ := Step.bind_eq_ok.mp h
  obtain ⟨report, hreport, h⟩ := Step.lift_bind_eq_ok.mp h
  obtain ⟨slots, _, h⟩ := Step.lift_bind_eq_ok.mp h
  rw [Step.note_bind] at h
  obtain ⟨heq, _⟩ := Step.pure_eq_ok.mp h
  cases heq
  have hstart := growing_start first.id entrySlot
  obtain ⟨hgrowing, _, _⟩ := foldlM_addBlock_eq_ok (l := Lowering.start first.id entrySlot)
    hstart hfold
  have hcloses := Lowering.closes_finish hgrowing.toWellFormed hfinish
  have hready := hcloses.ready hgrowing
  obtain ⟨⟨result, scheduled⟩, hrun, rfl⟩ := Step.map_eq_ok.mp hschedule
  obtain ⟨inner, hinner, rfl, _⟩ := Step.apart_eq_ok.mp hrun
  obtain ⟨hcontrol, hfrozen⟩ := class?_schedule hready hinner
  refine ⟨l, now₁, built, hfold, ⟨hgrowing, ⟨_, hcloses⟩,
    ⟨first, rest, l, now, now₁, rfl, hfold, rfl⟩, fun hblocks => ?_, fun hblocks => ?_,
    schedule_settled hready hinner, hcontrol, hfrozen⟩, hreport⟩
  · rw [hblocks] at hfold
    exact ⟨first.id, exists_added (l := Lowering.start first.id entrySlot) hstart hfold⟩
  · rw [hblocks] at hfold
    have hlast := lastBlock_foldlM (l := Lowering.start first.id entrySlot) hstart hfold
    obtain ⟨_, _, hfinish⟩ := Checked.bind_eq_ok.mp hfinish
    obtain ⟨_, _, hfinish⟩ := Checked.bind_eq_ok.mp hfinish
    obtain ⟨_, hverify, hfinish⟩ := Checked.bind_eq_ok.mp hfinish
    obtain rfl := Checked.pure_eq_ok.mp hfinish
    exact ⟨hlast ▸ hcloses, hverify⟩

theorem outcome_of_eq_ok {blocks : List BasicBlock} {g : Graph} {schedule : Schedule}
    (h : Region.schedule program blocks entrySlot options now = .ok (g, schedule) last) :
    (∃ whole built, Outcome σ program blocks entrySlot options now.journal.threshold whole built
      g) ∧ Schedule.ofGraph g = .ok schedule := by
  cases blocks with
  | nil => exact absurd h Step.fail_ne_ok
  | cons first rest =>
      obtain ⟨l, _, built, _, houtcome, hreport⟩ := exists_run_of_eq_ok h
      exact ⟨⟨l.graph, built, houtcome⟩, hreport⟩

end Region

end SlotScheduling
