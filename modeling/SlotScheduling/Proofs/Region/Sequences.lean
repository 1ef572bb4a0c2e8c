import SlotScheduling.Proofs.Freezing.Knit
import SlotScheduling.Proofs.Graph.Sound
import SlotScheduling.Proofs.Region.Legality

/-!
# Sequences of blocks

A graph is put together from blocks in order.  Each block is lowered, or joins with the schedule
that it has in a graph that was put together before.  Whatever the blocks are, scheduling such a
graph leaves a graph that still passes its checks.
-/

namespace SlotScheduling

namespace Graph

variable {g g' sub : Graph} {done : Completed} {anchor : Option UnitId} {id target source : UnitId}
  {block : BlockId} {edge : DepEdge} {blocks names others : List BlockId}
  {change : ScheduleUnit → ScheduleUnit}

/-! ## Graphs without an exit -/

/-- Blocks are being put together.  Those of the first list are complete, and no block ends that is
not in the second one. -/
structure Unclosed (blocks names : List BlockId) (g : Graph) : Prop extends Knit blocks g where
  ended : g.EndsWithin names
  rooted : g.entryRoot < g.units.size
  unclosed : g.exitRoot = none

theorem unclosed_start (entryBlock : BlockId) (entrySlot : Nat) :
    Unclosed [] [] (start entryBlock entrySlot) where
  toKnit := knit_start entryBlock entrySlot
  ended := fun _ _ hmem => absurd hmem List.not_mem_nil
  rooted := size_start entryBlock entrySlot ▸ Nat.zero_lt_one
  unclosed := rfl

theorem Unclosed.mono {blocks' names' : List BlockId} (hg : Unclosed blocks names g)
    (hblocks : ∀ block ∈ blocks, block ∈ blocks') (hnames : ∀ block ∈ names, block ∈ names') :
    Unclosed blocks' names' g :=
  { hg with toKnit := hg.toKnit.mono hblocks, ended := hg.ended.mono hnames }

theorem Unclosed.createUnit (hg : Unclosed blocks names g) {lead : Instr} {funcUnit : FuncUnit}
    {control : Bool} {latency : Nat} :
    Unclosed blocks names (g.createUnit lead block funcUnit control latency) where
  toKnit := hg.toKnit.createUnit
  ended := hg.ended.createUnit
  rooted := by
    rw [Graph.createUnit, Array.size_push]
    exact Nat.lt_succ_of_lt hg.rooted
  unclosed := hg.unclosed

theorem Unclosed.changeUnit (hg : Unclosed blocks names g) (h : g.changeUnit id change = .ok g')
    (hbare : ∀ unit, (change unit).links = unit.links ∧ (change unit).deps = unit.deps ∧
      (change unit).block = unit.block ∧ (change unit).lead = unit.lead) :
    Unclosed blocks names g' := by
  obtain ⟨hsize, hsetting, _⟩ := rest_changeUnit h
  exact ⟨hg.toKnit.changeUnit h hbare, hg.ended.changeUnit h fun unit => (hbare unit).2.2.1,
    hsize ▸ hg.rooted, (congrArg (·.2.2.2) hsetting).trans hg.unclosed⟩

theorem Unclosed.addDep (hg : Unclosed blocks names g) (h : g.addDep target source edge = .ok g')
    (hentry : g.IsEntry target →
      ∃ block ∈ blocks, g.block? source = some block ∧ g.terminator? block = some source) :
    Unclosed blocks names g' :=
  ⟨hg.toKnit.addDep h hentry, hg.ended.of_bare_eq (bare_addDep h),
    size_eq_of_bare_eq (bare_addDep h) ▸ hg.rooted,
    (exitRoot_of_bare_eq (bare_addDep h)).trans hg.unclosed⟩

theorem Unclosed.setTerminator (hg : Unclosed blocks names g) (hend : g.IsEnd block id)
    (hnew : block ∉ blocks) (hblock : block ∈ names) (h : g.setTerminator block id = .ok g') :
    Unclosed blocks names g' := by
  have hknit := hg.toKnit.setTerminator hnew h
  have hended := hg.ended.setTerminator hend hblock h
  obtain ⟨middle, hmiddle, h⟩ := Checked.bind_eq_ok.mp h
  obtain rfl := Checked.pure_eq_ok.mp h
  obtain ⟨hsize, hsetting, _⟩ := rest_changeUnit hmiddle
  exact ⟨hknit, hended, hsize ▸ hg.rooted, (congrArg (·.2.2.2) hsetting).trans hg.unclosed⟩

theorem Unclosed.trySetLoopOp (hg : Unclosed blocks names g) {branch : Option BlockId}
    {loops : Bool} (h : g.trySetLoopOp id branch = .ok (loops, g')) :
    Unclosed blocks names g' := by
  obtain ⟨_, _, h⟩ := Checked.bind_eq_ok.mp h
  split at h <;> cases h
  · exact ⟨hg.toKnit.of_same rfl (fun hedge => hedge) rfl (fun hentry => hentry) rfl,
      hg.ended.of_same rfl rfl rfl, hg.rooted, hg.unclosed⟩
  · exact hg

/-- The blocks of a frozen graph are complete. -/
theorem Unclosed.absorb (hg : Unclosed blocks names g) (hsub : sub.Listed)
    (hdone : sub.completed = .ok done) (hanchor : ∀ unit ∈ anchor, unit < g.units.size)
    (hends : sub.EndsWithin others) (hapart : ∀ block ∈ others, block ∉ blocks)
    (h : g.absorb done anchor = .ok g') : Unclosed blocks (others ++ names) g' := by
  have hcomplete := completed_eq_ok hsub hdone
  obtain ⟨habsorbs, _⟩ := absorb_eq_ok hg.toWellFormed hsub hcomplete hanchor h
  have hmoves : Moves anchor done.exit := Or.inr (hcomplete.last ▸ Nat.succ_ne_zero _)
  refine ⟨hg.toKnit.absorb hsub hdone hanchor hends hapart h,
    hg.ended.absorb hends hcomplete hg.rooted hg.unclosed habsorbs, ?_,
    habsorbs.rest.2.2.2.trans hg.unclosed⟩
  rw [habsorbs.size]
  exact Nat.lt_of_lt_of_le hg.rooted (base_le_relocate hmoves)

end Graph

namespace Lowering

open SlotScheduling.Graph

variable {σ : Type} {program : Program} {basic : BasicBlock} {g g' sub : Graph} {l l' : Lowering}
  {block : BlockId} {entry : UnitId} {op : OpId} {created : List (OpId × UnitId)}
  {now last : Journaled σ} {blocks names others : List BlockId}

/-! ## Lowered blocks -/

theorem unclosed_createOp (hg : Unclosed blocks names g) (hnew : block ∉ blocks)
    (hblock : block ∈ names) {loops : Bool} (h : createOp program block op g = .ok (g', loops)) :
    Unclosed blocks names g' := by
  obtain ⟨operation, _, h⟩ := Checked.bind_eq_ok.mp h
  obtain ⟨changed, hchanged, h⟩ := Checked.bind_eq_ok.mp h
  have hchangedUnclosed : Unclosed blocks names changed :=
    hg.createUnit.changeUnit hchanged fun _ => ⟨rfl, rfl, rfl, rfl⟩
  split at h
  · obtain ⟨ended, hended, h⟩ := Checked.bind_eq_ok.mp h
    obtain ⟨⟨loops', looped⟩, hlooped, h⟩ := Checked.bind_eq_ok.mp h
    cases h
    have hend : changed.IsEnd block g.nextId := by
      refine ⟨?_, Nat.ne_of_gt hg.rooted, by simp [hchangedUnclosed.unclosed]⟩
      rw [block?_changeUnit hchanged fun _ => rfl]
      exact block?_createUnit_size
    exact (hchangedUnclosed.setTerminator hend hnew hblock hended).trySetLoopOp hlooped
  · cases h
    exact hchangedUnclosed

/-- The unit of an operation does not enter a block. -/
theorem not_isEntry_createOp (hg : g.WellFormed) {loops : Bool}
    (h : createOp program block op g = .ok (g', loops)) :
    ¬g'.IsEntry g.nextId ∧ ∀ {id}, ¬g.IsEntry id → ¬g'.IsEntry id := by
  obtain ⟨operation, _, hmade⟩ := made_createOp hg h
  have hnew : ¬g'.IsEntry g.nextId := by
    rintro ⟨unit, hunit, hlead⟩
    rw [hmade.units, nextId, if_pos rfl] at hunit
    cases hunit
    cases hlead
  refine ⟨hnew, fun {id} hold => ?_⟩
  by_cases hid : id = g.units.size
  · exact hid ▸ hnew
  · rwa [IsEntry, hmade.units, if_neg hid]

theorem unclosed_createOps (hg : Unclosed blocks names g) (hnew : block ∉ blocks)
    (hblock : block ∈ names) {ops : List OpId}
    (h : createOps program block ops g now = .ok (g', created) last) :
    Unclosed blocks names g' ∧ ∀ pair ∈ created, ¬g'.IsEntry pair.2 := by
  refine Step.foldlM_induction (P := fun (result : Graph × List (OpId × UnitId)) _ =>
    Unclosed blocks names result.1 ∧ ∀ pair ∈ result.2, ¬result.1.IsEntry pair.2)
    (fun op _ before after now last hbefore hround => ?_)
    ⟨hg, fun _ hpair => absurd hpair List.not_mem_nil⟩ h
  obtain ⟨loops, hcreate, hcreated⟩ := createNext_eq_ok hround
  obtain ⟨hinside, hkept⟩ := not_isEntry_createOp hbefore.1.toWellFormed hcreate
  refine ⟨unclosed_createOp hbefore.1 hnew hblock hcreate, fun pair hpair => ?_⟩
  rw [hcreated, List.mem_append, List.mem_singleton] at hpair
  rcases hpair with hpair | rfl
  · exact hkept (hbefore.2 pair hpair)
  · exact hinside

theorem unclosed_attachOperand (hg : Unclosed blocks names g) {id : UnitId}
    (hinside : ¬g.IsEntry id) {dependence : Dependence}
    (h : attachOperand entry id g dependence = .ok g') :
    Unclosed blocks names g' ∧ g'.bare = g.bare := by
  unfold attachOperand at h
  split at h <;> exact ⟨hg.addDep h fun hentry => absurd hentry hinside, bare_addDep h⟩

theorem unclosed_attachOperands (hg : Unclosed blocks names g) {pair : OpId × UnitId}
    (hinside : ¬g.IsEntry pair.2) (h : attachOperands program entry g pair = .ok g') :
    Unclosed blocks names g' ∧ g'.bare = g.bare := by
  unfold attachOperands at h
  split at h
  · cases h
  · refine Checked.foldlM_induction
      (P := fun attached => Unclosed blocks names attached ∧ attached.bare = g.bare)
      (fun dependence _ before after ⟨hbefore, hbare⟩ hround => ?_) ⟨hg, rfl⟩ h
    rw [← isEntry_of_bare_eq hbare] at hinside
    obtain ⟨hafter, hsame⟩ := unclosed_attachOperand hbefore hinside hround
    exact ⟨hafter, hsame.trans hbare⟩

theorem unclosed_anchorUnit (hg : Unclosed blocks names g) {id : UnitId}
    (hinside : ¬g.IsEntry id) (h : anchorUnit entry block g id = .ok g') :
    Unclosed blocks names g' ∧ g'.bare = g.bare := by
  obtain ⟨_, _, h⟩ := Checked.bind_eq_ok.mp h
  obtain ⟨anchored, _, h⟩ := Checked.bind_eq_ok.mp h
  split at h
  · cases h
    exact ⟨hg, rfl⟩
  · exact ⟨hg.addDep h fun hentry => absurd hentry hinside, bare_addDep h⟩

theorem unclosed_attachUnits (hg : Unclosed blocks names g)
    (hinside : ∀ pair ∈ created, ¬g.IsEntry pair.2)
    (h : attachUnits program entry block created g = .ok g') : Unclosed blocks names g' := by
  obtain ⟨middle, hmiddle, h⟩ := Checked.bind_eq_ok.mp h
  have hattached : Unclosed blocks names middle ∧ middle.bare = g.bare := by
    refine Checked.foldlM_induction
      (P := fun attached => Unclosed blocks names attached ∧ attached.bare = g.bare)
      (fun pair hpair before after ⟨hbefore, hbare⟩ hround => ?_) ⟨hg, rfl⟩ hmiddle
    have hpair := hinside pair hpair
    rw [← isEntry_of_bare_eq hbare] at hpair
    obtain ⟨hafter, hsame⟩ := unclosed_attachOperands hbefore hpair hround
    exact ⟨hafter, hsame.trans hbare⟩
  refine (Checked.foldlM_induction
    (P := fun attached => Unclosed blocks names attached ∧ attached.bare = g.bare)
    (fun id hid before after ⟨hbefore, hbare⟩ hround => ?_) hattached h).1
  obtain ⟨pair, hpair, rfl⟩ := List.mem_map.mp hid
  have hpair := hinside pair hpair
  rw [← isEntry_of_bare_eq hbare] at hpair
  obtain ⟨hafter, hsame⟩ := unclosed_anchorUnit hbefore hpair hround
  exact ⟨hafter, hsame.trans hbare⟩

/-- The blocks of the list have been put together, and the next one comes after the end of one of
them, if it comes after any. -/
structure Sequenced (blocks : List BlockId) (l : Lowering) : Prop
    extends Unclosed blocks blocks l.graph where
  last : ∀ {id}, l.lastTerminator = some id →
    ∃ block ∈ blocks, l.graph.terminator? block = some id

theorem sequenced_start (entryBlock : BlockId) (entrySlot : Nat) :
    Sequenced [] (start entryBlock entrySlot) where
  toUnclosed := unclosed_start entryBlock entrySlot
  last := by
    intro id hid
    cases hid

theorem unclosed_chain (hg : Unclosed blocks names g)
    (hlast : ∀ {id}, l.lastTerminator = some id → ∃ block ∈ blocks, g.terminator? block = some id)
    (h : l.chain g entry = .ok g') : Unclosed blocks names g' := by
  unfold chain at h
  split at h
  · cases h
    exact hg
  next id hid =>
    refine hg.addDep h fun _ => ?_
    obtain ⟨block, hblock, hends⟩ := hlast hid
    exact ⟨block, hblock, (hg.ended.of_terminator? hends).2.block, hends⟩

theorem Sequenced.enter (hl : Sequenced blocks l) (h : l.enter block = .ok (g, entry)) :
    Unclosed blocks blocks g := by
  unfold Lowering.enter at h
  split at h
  · cases h
    exact hl.toUnclosed
  · obtain ⟨chained, hchain, h⟩ := Checked.bind_eq_ok.mp h
    cases h
    have hcreated : Unclosed blocks blocks (l.graph.createEntry block) := hl.toUnclosed.createUnit
    exact unclosed_chain hcreated hl.last hchain

/-- A block that is lowered adds itself to the sequence. -/
theorem Sequenced.lowerBlock (hl : Sequenced blocks l) (hnew : basic.id ∉ blocks)
    (h : lowerBlock program l basic now = .ok l' last) : Sequenced (basic.id :: blocks) l' := by
  obtain ⟨⟨entered, entry⟩, henter, h⟩ := Step.lift_bind_eq_ok.mp h
  obtain ⟨ops, _, h⟩ := Step.lift_bind_eq_ok.mp h
  obtain ⟨⟨made, created⟩, now₁, hcreate, h⟩ := Step.bind_eq_ok.mp h
  obtain ⟨attached, hattach, h⟩ := Step.lift_bind_eq_ok.mp h
  obtain ⟨rfl, _⟩ := Step.pure_eq_ok.mp (Step.note_bind _ _ _ ▸ h)
  have hentered : Unclosed blocks (basic.id :: blocks) entered :=
    (hl.enter henter).mono (fun _ hmem => hmem) fun _ hmem => List.mem_cons_of_mem _ hmem
  obtain ⟨hmade, hinside⟩ := unclosed_createOps hentered hnew List.mem_cons_self hcreate
  have hattached := unclosed_attachUnits hmade hinside hattach
  exact ⟨hattached.mono (fun _ hmem => List.mem_cons_of_mem _ hmem) fun _ hmem => hmem,
    fun hlast => ⟨_, (hattached.ended.of_terminator? hlast).1, hlast⟩⟩

/-- A graph that joins adds its blocks to the sequence. -/
theorem Sequenced.mergeBlock (hl : Sequenced blocks l) (hsub : sub.Listed)
    (hends : sub.EndsWithin others) (hapart : ∀ block ∈ others, block ∉ blocks)
    (h : mergeBlock l sub now = .ok l' last) : Sequenced (others ++ blocks) l' := by
  obtain ⟨done, anchor, merged, hdone, habsorb, hcases, hlast, _⟩ := mergeBlock_cases h
  have hanchor : ∀ unit ∈ anchor, unit < l.graph.units.size := by
    rcases hcases with ⟨_, rfl, _⟩ | ⟨_, rfl, _⟩ <;> rintro unit ⟨⟩
    exact hl.rooted
  have hmerged := hl.toUnclosed.absorb hsub hdone hanchor hends hapart habsorb
  obtain ⟨habsorbs, _⟩ := absorb_eq_ok hl.toWellFormed hsub (completed_eq_ok hsub hdone) hanchor
    habsorb
  have hchained : Unclosed blocks (others ++ blocks) l'.graph := by
    rcases hcases with ⟨_, _, hgraph⟩ | ⟨_, _, hchain⟩
    · exact hgraph ▸ hmerged
    · refine unclosed_chain hmerged (fun hid => ?_) hchain
      obtain ⟨block, hblock, hterminator⟩ := hl.last hid
      refine ⟨block, hblock, ?_⟩
      rw [habsorbs.terminator?_of_notMem hends fun hother => hapart block hother hblock]
      exact hterminator
  exact ⟨hchained.mono (fun _ hmem => List.mem_append_right _ hmem) fun _ hmem => hmem,
    fun hid => ⟨_, (hchained.ended.of_terminator? (hlast ▸ hid)).1, hlast ▸ hid⟩⟩

/-- A sequence of blocks is closed only if the graph passes its checks. -/
theorem Sequenced.finish (hl : Sequenced blocks l) (h : l.finish = .ok g) : Sound blocks g := by
  obtain ⟨sinks, _, h⟩ := Checked.bind_eq_ok.mp h
  obtain ⟨attached, hattach, h⟩ := Checked.bind_eq_ok.mp h
  obtain ⟨_, hverify, h⟩ := Checked.bind_eq_ok.mp h
  obtain rfl := Checked.pure_eq_ok.mp h
  let closed := l.graph.createExit l.lastBlock
  have hinside : ¬closed.IsEntry l.graph.nextId := by
    rintro ⟨unit, hunit, hlead⟩
    have hexit : closed.units[l.graph.nextId]? = _ := getElem?_createUnit.trans (if_pos rfl)
    cases hunit.symm.trans hexit
    cases hlead
  have hclosed : Knit blocks g ∧ g.bare = closed.bare := by
    refine Checked.foldlM_induction
      (P := fun attached => Knit blocks attached ∧ attached.bare = closed.bare)
      (fun sink _ before after ⟨hbefore, hbare⟩ hround => ?_) ⟨hl.toKnit.createExit, rfl⟩ hattach
    obtain ⟨_, _, hround⟩ := Checked.bind_eq_ok.mp hround
    exact ⟨hbefore.addDep hround
      fun hentry => absurd ((isEntry_of_bare_eq hbare).mp hentry) hinside,
      (bare_addDep hround).trans hbare⟩
  obtain ⟨hknit, hbare⟩ := hclosed
  refine hknit.sound (hl.ended.createExit.of_bare_eq hbare) (fun hexit => ?_) hverify
  rw [exitRoot_of_bare_eq hbare] at hexit
  cases hexit
  exact fun hentry => hinside ((isEntry_of_bare_eq hbare).mp hentry)

/-! ## Assembled graphs -/

/-- Blocks with different names were put together one after the other, the last one first in the
list.  Each of them was lowered, or joined with a graph that was put together and scheduled itself,
or joined with another graph in which the terminators end blocks in which they stand. -/
inductive Assembled : List BlockId → Lowering → Prop
  | start (entryBlock : BlockId) (entrySlot : Nat) : Assembled [] (start entryBlock entrySlot)
  | lower {blocks : List BlockId} {program : Program} {basic : BasicBlock} {l l' : Lowering}
      {σ : Type} {now last : Journaled σ} (hl : Assembled blocks l) (hnew : basic.id ∉ blocks)
      (h : lowerBlock program l basic now = .ok l' last) : Assembled (basic.id :: blocks) l'
  | merge {blocks others : List BlockId} {l l' part : Lowering} {built : Graph}
      {options : SchedulingOptions} {journal : Journal} {sub : Journaled Graph}
      {σ : Type} {now last : Journaled σ} (hl : Assembled blocks l) (hpart : Assembled others part)
      (hapart : ∀ block ∈ others, block ∉ blocks) (hbuilt : part.finish = .ok built)
      (hsub : Graph.schedule options ⟨built, journal⟩ = .ok ⟨⟩ sub)
      (h : mergeBlock l sub.state now = .ok l' last) : Assembled (others ++ blocks) l'
  | insert {blocks others : List BlockId} {l l' : Lowering} {sub : Graph} {σ : Type}
      {now last : Journaled σ} (hl : Assembled blocks l) (hsub : sub.Listed)
      (hends : sub.EndsWithin others) (hapart : ∀ block ∈ others, block ∉ blocks)
      (h : mergeBlock l sub now = .ok l' last) : Assembled (others ++ blocks) l'

/-- Scheduling a sequence of blocks leaves a sound graph. -/
theorem Sequenced.schedule (hl : Sequenced blocks l) (hbuilt : l.finish = .ok g)
    {options : SchedulingOptions} {journal : Journal} {result : PUnit} {done : Journaled Graph}
    (h : Graph.schedule options ⟨g, journal⟩ = .ok result done) : Sound blocks done.state :=
  ((lasting_sound blocks).schedule options).of_eq_ok (hl.finish hbuilt) h

theorem Assembled.sequenced (h : Assembled blocks l) : Sequenced blocks l := by
  induction h with
  | start entryBlock entrySlot => exact sequenced_start entryBlock entrySlot
  | lower _ hnew hlower ih => exact ih.lowerBlock hnew hlower
  | merge _ _ hapart hbuilt hsub hmerge ih ihpart =>
      have hsound := ihpart.schedule hbuilt hsub
      exact ih.mergeBlock hsound.toListed hsound.ended hapart hmerge
  | insert _ hsub hends hapart hmerge ih => exact ih.mergeBlock hsub hends hapart hmerge

theorem Sequenced.verify (hl : Sequenced blocks l) (hbuilt : l.finish = .ok g)
    {options : SchedulingOptions} {journal : Journal} {result : PUnit} {done : Journaled Graph}
    (h : Graph.schedule options ⟨g, journal⟩ = .ok result done) : done.state.verify = .ok ⟨⟩ := by
  have hsound := hl.schedule hbuilt h
  refine hsound.verify fun id hid => (gapless_schedule (hl.finish hbuilt).toCoherent h).slots ?_
  obtain ⟨unit, hunit, _⟩ := hsound.control.mp hid
  exact lt_size_of_getElem? hunit

/-- Whatever blocks a graph was put together from, scheduling it leaves a graph that passes its
checks. -/
theorem verify_schedule (hl : Assembled blocks l) (hbuilt : l.finish = .ok g)
    {options : SchedulingOptions} {journal : Journal} {result : PUnit} {done : Journaled Graph}
    (h : Graph.schedule options ⟨g, journal⟩ = .ok result done) : done.state.verify = .ok ⟨⟩ :=
  hl.sequenced.verify hbuilt h

end Lowering

/-! ## Regions -/

namespace Region

open SlotScheduling.Graph SlotScheduling.Lowering

variable {σ : Type} {program : Program} {entrySlot : Nat} {options : SchedulingOptions}
  {basic : BasicBlock} {l l' : Lowering} {now last : Journaled σ} {blocks : List BlockId}

/-- A loop is put together on its own before it joins. -/
theorem assembled_addBlock (hl : Assembled blocks l) (hnew : basic.id ∉ blocks)
    (h : addBlock program entrySlot options l basic now = .ok l' last) :
    Assembled (basic.id :: blocks) l' := by
  obtain ⟨loops, _, h⟩ := Step.lift_bind_eq_ok.mp h
  cases loops with
  | false => exact hl.lower hnew h
  | true =>
      obtain ⟨built, now₁, hbuild, h⟩ := Step.bind_eq_ok.mp h
      obtain ⟨sub, now₂, hschedule, h⟩ := Step.bind_eq_ok.mp h
      obtain ⟨part, now₃, hlower, hfinish⟩ := Step.bind_eq_ok.mp hbuild
      obtain ⟨⟨_, _⟩, hschedule, rfl⟩ := Step.map_eq_ok.mp hschedule
      obtain ⟨inner, hinner, rfl, _⟩ := Step.apart_eq_ok.mp hschedule
      have hpart : Assembled [basic.id] part :=
        (Assembled.start basic.id entrySlot).lower List.not_mem_nil hlower
      exact hl.merge hpart (by simpa using hnew) (Step.lift_eq_ok.mp hfinish).1 hinner h

theorem assembled_foldlM_addBlock {basics : List BasicBlock} (hl : Assembled blocks l)
    (hdistinct : ((basics.map BasicBlock.id).reverse ++ blocks).Nodup)
    (h : basics.foldlM (addBlock program entrySlot options) l now = .ok l' last) :
    Assembled ((basics.map BasicBlock.id).reverse ++ blocks) l' := by
  induction basics generalizing l blocks now with
  | nil =>
      obtain ⟨rfl, _⟩ := Step.pure_eq_ok.mp h
      exact hl
  | cons basic rest ih =>
      rw [List.foldlM_cons] at h
      obtain ⟨middle, now₁, hadd, h⟩ := Step.bind_eq_ok.mp h
      rw [List.map_cons, List.reverse_cons, List.append_assoc] at hdistinct ⊢
      have hnew : basic.id ∉ blocks :=
        (List.nodup_cons.mp (List.nodup_append.mp hdistinct).2.1).1
      exact ih (assembled_addBlock hl hnew hadd) hdistinct h

/-- The graph of a region passes its checks. -/
theorem verify_of_eq_ok {basics : List BasicBlock} {g : Graph} {schedule : Schedule}
    (hdistinct : (basics.map BasicBlock.id).Nodup)
    (h : Region.schedule program basics entrySlot options now = .ok (g, schedule) last) :
    g.verify = .ok ⟨⟩ := by
  unfold Region.schedule at h
  cases basics with
  | nil => exact absurd h Step.fail_ne_ok
  | cons first rest =>
      dsimp only at h
      obtain ⟨l, now₁, hfold, h⟩ := Step.bind_eq_ok.mp h
      obtain ⟨built, hbuilt, h⟩ := Step.lift_bind_eq_ok.mp h
      obtain ⟨finished, now₂, hschedule, h⟩ := Step.bind_eq_ok.mp h
      obtain ⟨_, _, h⟩ := Step.lift_bind_eq_ok.mp h
      obtain ⟨_, _, h⟩ := Step.lift_bind_eq_ok.mp h
      rw [Step.note_bind] at h
      obtain ⟨heq, _⟩ := Step.pure_eq_ok.mp h
      cases heq
      obtain ⟨⟨_, _⟩, hrun, rfl⟩ := Step.map_eq_ok.mp hschedule
      obtain ⟨inner, hinner, rfl, _⟩ := Step.apart_eq_ok.mp hrun
      have hnames : (((first :: rest).map BasicBlock.id).reverse ++ []).Nodup := by
        rw [List.append_nil]
        exact List.nodup_reverse.mpr hdistinct
      have hassembled :=
        assembled_foldlM_addBlock (Assembled.start first.id entrySlot) hnames hfold
      exact hassembled.sequenced.verify hbuilt hinner

end Region

/-- Scheduling moves the edge from an operation before a loop to one behind it.  The loop takes part
with a schedule of its own. -/
theorem verify_schedule_accessAround : ∃ l built journal done,
    Lowering.Assembled [9, 7, 5] l ∧ l.finish = .ok built ∧
      Graph.schedule {} ⟨built, journal⟩ = .ok ⟨⟩ done ∧
      ((built.bundle? 11 1).isSome ∧ done.state.bundle? 11 1 = none ∧
        (done.state.bundle? 11 2).isSome) ∧ done.state.verify = .ok ⟨⟩ := by
  let basics : List BasicBlock := [⟨5, [0, 1]⟩, ⟨7, [2, 3, 4, 5, 6]⟩, ⟨9, [7, 8]⟩]
  have hsucceeds : (do
      let l ← basics.foldlM (Region.addBlock accessAround 3 {}) (Lowering.start 5 3)
      let built ← l.finish
      let done ← scheduleApart {} built
      return (built, done) : Step PUnit (Graph × Graph)).succeeds ⟨⟨⟩, {}⟩
        (fun graphs => decide ((graphs.1.bundle? 11 1).isSome ∧ graphs.2.bundle? 11 1 = none ∧
          (graphs.2.bundle? 11 2).isSome)) = true := by
    decide +kernel
  obtain ⟨⟨built, done⟩, last, hrun, htest⟩ := Step.exists_of_succeeds hsucceeds
  obtain ⟨l, now₁, hfold, hrun⟩ := Step.bind_eq_ok.mp hrun
  obtain ⟨built', hbuilt, hrun⟩ := Step.lift_bind_eq_ok.mp hrun
  obtain ⟨done', now₂, hschedule, hrun⟩ := Step.bind_eq_ok.mp hrun
  obtain ⟨heq, _⟩ := Step.pure_eq_ok.mp hrun
  cases heq
  obtain ⟨⟨_, _⟩, hrun, rfl⟩ := Step.map_eq_ok.mp hschedule
  obtain ⟨inner, hinner, rfl, _⟩ := Step.apart_eq_ok.mp hrun
  have hl : Lowering.Assembled [9, 7, 5] l :=
    Region.assembled_foldlM_addBlock (.start 5 3) (by decide) hfold
  exact ⟨l, built, _, inner, hl, hbuilt, hinner, of_decide_eq_true htest,
    Lowering.verify_schedule hl hbuilt hinner⟩

end SlotScheduling
