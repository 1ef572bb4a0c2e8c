import SlotScheduling.Proofs.Ensured
import SlotScheduling.Proofs.Graph.Ordered
import SlotScheduling.Proofs.Graph.Verified
import SlotScheduling.Proofs.Placement.Overflows

/-!
# How building a block can fail

A block whose operations are all in the table is built, or an error says why it is not.  Whatever is
looked up on the way is there, since units are only numbered once they are made, and the ends of
dependencies are checked before they are attached.
-/

namespace SlotScheduling

variable {α β : Type}

open Failure (IsError)

theorem ScheduleUnit.failsAs_addDep (unit : ScheduleUnit) (source : UnitId)
    (block : BlockId) (edge : DepEdge) : (unit.addDep source block edge).FailsAs IsError := by
  unfold ScheduleUnit.addDep
  split
  · exact Checked.failsAs_broken _ _
  · split
    · split
      · exact Checked.failsAs_ok _
      · exact Checked.failsAs_broken _ _
    · exact Checked.failsAs_ok _

namespace Graph

variable {g : Graph} {id target source : UnitId} {unit : ScheduleUnit} {edge : DepEdge}

theorem failsAs_checkUnit (g : Graph) (id : UnitId) : (g.checkUnit id).FailsAs IsError := by
  unfold checkUnit
  split
  · exact Checked.failsAs_ok _
  · exact Checked.failsAs_broken _ _

theorem checkUnit_eq_ok {done : PUnit} (h : g.checkUnit id = .ok done) : id < g.units.size := by
  unfold checkUnit at h
  split at h
  · assumption
  · cases h

/-- The ends of a dependency are checked before they are looked up. -/
theorem failsAs_addDep (g : Graph) (target source : UnitId) (edge : DepEdge) :
    (g.addDep target source edge).FailsAs IsError := by
  refine (g.failsAs_checkUnit target).bind fun _ htarget => ?_
  refine (g.failsAs_checkUnit source).bind fun _ hsource => ?_
  have htarget := checkUnit_eq_ok htarget
  have hsource := checkUnit_eq_ok hsource
  have hchange : ∀ {g : Graph} {id : UnitId} {change : ScheduleUnit → ScheduleUnit},
      id < g.units.size → (g.changeUnit id change).FailsAs IsError := fun hid =>
    Checked.failsAs_of_exists ⟨_, changeUnit_eq_ok.mpr ⟨hid, rfl⟩⟩
  refine (Checked.failsAs_of_exists (exists_unit hsource)).bind fun producer _ => ?_
  refine (Checked.failsAs_of_exists (exists_unit htarget)).bind fun consumer _ => ?_
  refine (consumer.failsAs_addDep source producer.block edge).bind fun (consumer, isFirst) _ => ?_
  refine (hchange htarget).bind fun changed hchanged => ?_
  obtain ⟨-, rfl⟩ := changeUnit_eq_ok.mp hchanged
  split
  · exact hchange (by simpa using hsource)
  · exact Checked.failsAs_ok _

/-! ## Checks -/

theorem failsAs_verifyDep {bundle : EdgeBundle} (hsource : source < g.units.size) :
    (g.verifyDep unit id source bundle).FailsAs IsError := by
  unfold verifyDep
  dsimp only
  split
  · exact (Checked.failsAs_broken _ _).bind fun _ h => nomatch h
  · refine (Checked.failsAs_of_exists (exists_unit hsource)).bind fun producer _ => ?_
    split
    · exact (Checked.failsAs_broken _ _).bind fun _ h => nomatch h
    · exact Checked.failsAs_ok _

theorem failsAs_verifyUnit (hg : g.WellFormed) (hid : id < g.units.size) :
    (g.verifyUnit id).FailsAs IsError := by
  refine (Checked.failsAs_of_exists (exists_unit hid)).bind fun unit hunit => ?_
  have hdeps : (unit.deps.entries.foldlM (fun anchored (dep : UnitId × EdgeBundle) => do
      return (← g.verifyDep unit id dep.1 dep.2) || anchored) unit.lead.isEntry).FailsAs
        IsError := by
    refine Checked.failsAs_foldlM (P := fun _ => True)
      (fun dep hdep _ _ => ⟨?_, fun _ _ => trivial⟩) trivial
    exact (failsAs_verifyDep (hg.source_lt (unit_eq_ok.mp hunit)
      (List.mem_map_of_mem hdep))).bind fun _ _ => Checked.failsAs_ok _
  refine hdeps.bind fun anchored _ => ?_
  dsimp only
  split
  · exact (Checked.failsAs_broken _ _).bind fun _ h => nomatch h
  · split
    · exact Checked.failsAs_broken _ _
    · exact Checked.failsAs_ok _

/-- Checks of a graph that is sound in itself fail with an error. -/
theorem failsAs_verify (hg : g.WellFormed) (hroot : g.entryRoot < g.units.size)
    (hexit : ∀ {exit}, g.exitRoot = some exit → exit < g.units.size) :
    g.verify.FailsAs IsError := by
  have hentry : g.verifyEntry.FailsAs IsError := by
    refine (Checked.failsAs_of_exists (exists_unit hroot)).bind fun unit _ => ?_
    split
    · exact Checked.failsAs_broken _ _
    · exact Checked.failsAs_ok _
  have hend : g.verifyExit.FailsAs IsError := by
    unfold verifyExit
    split
    · exact Checked.failsAs_ok _
    next exit hsome =>
      refine (Checked.failsAs_of_exists (exists_unit (hexit hsome))).bind fun unit _ => ?_
      split
      · exact Checked.failsAs_broken _ _
      · exact Checked.failsAs_ok _
  refine hentry.bind fun _ _ => hend.bind fun _ _ => ?_
  rw [verifyPositions_of_listed hg.toListed, Checked.ok_bind]
  exact Checked.failsAs_forM fun id hid => failsAs_verifyUnit hg (hg.control.mp hid).lt_size

end Graph

namespace Lowering

open SlotScheduling.Graph

variable {σ : Type} {program : Program} {basic : BasicBlock} {block : BlockId} {g g' : Graph}
  {entry id : UnitId} {entrySlot : Nat} {created : List (OpId × UnitId)} {now : Journaled σ}

/-- All operations of a block are in the table. -/
def Known (program : Program) (basic : BasicBlock) : Prop :=
  ∀ op ∈ basic.ops, ∃ operation, program.ops.operation op = .ok operation

instance (program : Program) (basic : BasicBlock) : Decidable (Known program basic) :=
  decidable_of_iff (∀ op ∈ basic.ops, (program.ops.operation op).isOk = true) <|
    forall₂_congr fun op _ => by
      cases program.ops.operation op <;> simp [Except.isOk, Except.toBool]

theorem exists_unitOrder (hknown : Known program basic) :
    ∃ order, unitOrder program basic = .ok order := by
  obtain ⟨ends, hends⟩ : ∃ ends, (basic.ops.mapM fun op =>
      return (op, (← program.ops.operation op).terminator) : Checked (List (OpId × Bool))) =
        .ok ends := by
    refine Checked.exists_mapM_eq_ok fun op hop => ?_
    obtain ⟨operation, hoperation⟩ := hknown op hop
    exact ⟨_, by rw [hoperation]; rfl⟩
  exact ⟨_, by rw [unitOrder, hends]; rfl⟩

theorem failsAs_attachOperand (g : Graph) (dependence : Dependence) :
    (attachOperand entry id g dependence).FailsAs IsError := by
  unfold attachOperand
  split
  · exact failsAs_addDep _ _ _ _
  · exact failsAs_addDep _ _ _ _

theorem failsAs_attachOperands (g : Graph) (pair : OpId × UnitId) :
    (attachOperands program entry g pair).FailsAs IsError := by
  unfold attachOperands
  split
  · exact Checked.failsAs_broken _ _
  · exact Checked.failsAs_foldlM (P := fun _ => True)
      (fun dependence _ g _ => ⟨failsAs_attachOperand g dependence, fun _ _ => trivial⟩) trivial

theorem failsAs_anchorUnit (hg : g.WellFormed) (hid : id < g.units.size) :
    (anchorUnit entry block g id).FailsAs IsError := by
  refine (Checked.failsAs_of_exists (exists_unit hid)).bind fun unit hunit => ?_
  have hlocal : ∃ anchored, unit.deps.entries.anyM (isLocalDep g block) = .ok anchored := by
    refine Checked.exists_anyM fun dep hdep => ?_
    obtain ⟨producer, hproducer⟩ := exists_unit
      (hg.source_lt (unit_eq_ok.mp hunit) (List.mem_map_of_mem hdep))
    exact ⟨_, by rw [isLocalDep, hproducer]; rfl⟩
  refine (Checked.failsAs_of_exists hlocal).bind fun anchored _ => ?_
  split
  · exact Checked.failsAs_ok g
  · exact failsAs_addDep _ _ _ _

/-- Attaching an operand adds one dependency. -/
theorem attachOperand_eq_ok {dependence : Dependence}
    (h : attachOperand entry id g dependence = .ok g') :
    ∃ source edge, g.addDep id source edge = .ok g' ∧
      (edge = edgeOf dependence ∨ edge = .value 0) := by
  unfold attachOperand at h
  split at h
  · exact ⟨_, _, h, Or.inl rfl⟩
  · exact ⟨_, _, h, Or.inr rfl⟩

theorem anchorUnit_eq_ok (h : anchorUnit entry block g id = .ok g') :
    g' = g ∨ g.addDep id entry (.value 0) = .ok g' := by
  obtain ⟨_, _, h⟩ := Checked.bind_eq_ok.mp h
  obtain ⟨anchored, _, h⟩ := Checked.bind_eq_ok.mp h
  split at h
  · exact Or.inl (Checked.pure_eq_ok.mp h)
  · exact Or.inr h

theorem bare_attachOperands {pair : OpId × UnitId}
    (h : attachOperands program entry g pair = .ok g') : g'.bare = g.bare := by
  unfold attachOperands at h
  split at h
  · cases h
  · refine Checked.foldlM_induction (P := fun g' : Graph => g'.bare = g.bare)
      (fun dependence _ before after hbefore hround => ?_) rfl h
    obtain ⟨source, edge, hadd, -⟩ := attachOperand_eq_ok hround
    exact (bare_addDep hadd).trans hbefore

theorem bare_anchorUnit (h : anchorUnit entry block g id = .ok g') : g'.bare = g.bare := by
  rcases anchorUnit_eq_ok h with rfl | hadd
  · rfl
  · exact bare_addDep hadd

theorem failsAs_attachUnits (hg : g.OfBlock block entrySlot)
    (hcreated : ∀ pair ∈ created, pair.2 < g.units.size) :
    (attachUnits program entry block created g).FailsAs IsError := by
  refine Checked.FailsAs.bind (Checked.failsAs_foldlM (P := fun _ => True)
    (fun pair _ g _ => ⟨failsAs_attachOperands g pair, fun _ _ => trivial⟩) trivial)
    fun attached hattach => ?_
  have hattached : attached.OfBlock block entrySlot ∧ attached.bare = g.bare :=
    Checked.foldlM_induction
      (P := fun attached : Graph => attached.OfBlock block entrySlot ∧ attached.bare = g.bare)
      (fun _ _ _ _ hbefore hround => ⟨ofBlock_attachOperands hbefore.1 hround,
        (bare_attachOperands hround).trans hbefore.2⟩) ⟨hg, rfl⟩ hattach
  refine Checked.failsAs_foldlM
    (P := fun now : Graph => now.OfBlock block entrySlot ∧ now.bare = g.bare)
    (fun id hid now hnow => ⟨failsAs_anchorUnit hnow.1.toWellFormed ?_, fun next hround =>
      ⟨ofBlock_anchorUnit hnow.1 hround, (bare_anchorUnit hround).trans hnow.2⟩⟩) hattached
  obtain ⟨pair, hpair, rfl⟩ := List.mem_map.mp hid
  exact size_eq_of_bare_eq hnow.2 ▸ hcreated pair hpair

/-- A block of known operations is lowered, or an error says why it is not. -/
theorem failsAs_lowerBlock (hknown : Known program basic) :
    (lowerBlock program (start basic.id entrySlot) basic : Step σ Lowering).FailsAs IsError
      now := by
  obtain ⟨order, horder⟩ := exists_unitOrder hknown
  have hstart := OfBlock.start basic.id entrySlot
  refine Step.failsAs_lift_bind (Checked.failsAs_of_exists ⟨_, enter_start basic.id entrySlot⟩)
    fun (entered, entry) henter => ?_
  cases (enter_start basic.id entrySlot).symm.trans henter
  refine Step.failsAs_lift_bind (Checked.failsAs_of_exists ⟨order, horder⟩) fun order' horder' => ?_
  cases horder.symm.trans horder'
  obtain ⟨made, middle, hcreate, hsize⟩ := exists_createOps (σ := σ) hstart.toWellFormed
    (fun op hop => hknown op ((mem_unitOrder horder).mp hop)) basic.id [] now
  refine (Step.failsAs_of_eq_ok hcreate).bind fun (made', created) _ hcreate' => ?_
  obtain ⟨heq, -⟩ := EStateM.Result.ok.inj (hcreate.symm.trans hcreate')
  cases heq
  have hmade : made.OfBlock basic.id entrySlot := ofBlock_createOps hstart hcreate
  refine Step.failsAs_lift_bind (failsAs_attachUnits hmade fun pair hpair => ?_) fun g _ =>
    (Step.failsAs_note _ _).bind fun _ _ _ => Step.failsAs_pure _
  have hlt := (List.mem_zipIdx hpair).2.1
  rwa [hsize]

/-- A block of known operations is built, or an error says why it is not. -/
theorem failsAs_buildBlock (hknown : Known program basic) :
    (buildBlock program basic entrySlot : Step σ Graph).FailsAs IsError now := by
  refine (failsAs_lowerBlock hknown).bind fun l middle hlower => ?_
  have hlow := (ofBlock_lowerBlock hlower).1
  obtain ⟨g, hfinishes, hfinish⟩ := exists_finishes hlow.toWellFormed
  have hexit : ∀ {exit}, g.exitRoot = some exit → exit < g.units.size := fun hsome => by
    rw [hfinishes.exitRoot] at hsome
    cases hsome
    exact hfinishes.size ▸ Nat.lt_succ_self _
  refine Step.failsAs_lift ?_
  rw [hfinish]
  refine (failsAs_verify hfinishes.toWellFormed ?_ hexit).bind fun _ _ => Checked.failsAs_ok g
  exact hfinishes.size ▸ Nat.succ_pos _

end Lowering

end SlotScheduling
