import Mathlib.Data.List.Pairwise
import SlotScheduling.Proofs.Pipelined
import SlotScheduling.Proofs.Placement.IssueOrder

/-!
# Function units across iterations

The chain of a function unit fits into one interval, and moves are delayed by a
whole interval.  So no two units of a chain ever meet, whichever iterations they
belong to.
-/

namespace SlotScheduling

/-- Slots less than one interval apart stay apart across iterations. -/
theorem ne_of_close {s t interval : Nat} (hne : s ≠ t) (hst : s < t + interval)
    (hts : t < s + interval) (m n : Nat) : s + m * interval ≠ t + n * interval := by
  intro heq
  rcases Nat.lt_trichotomy m n with hlt | rfl | hlt
  · obtain ⟨k, rfl⟩ := Nat.exists_eq_add_of_lt hlt
    simp only [add_mul, one_mul] at heq
    omega
  · omega
  · obtain ⟨k, rfl⟩ := Nat.exists_eq_add_of_lt hlt
    simp only [add_mul, one_mul] at heq
    omega

theorem close_of_sorted {slots : List Nat} {interval : Nat} (hsorted : slots.Pairwise (· < ·))
    (hwindow : ∀ first ∈ slots.head?, ∀ last ∈ slots.getLast?, last < first + interval)
    {s t : Nat} (hs : s ∈ slots) (ht : t ∈ slots) : s < t + interval := by
  have hne := List.ne_nil_of_mem hs
  have hle : slots.Pairwise (· ≤ ·) := hsorted.imp fun hlt => Nat.le_of_lt hlt
  have hfirst := hle.rel_head ht
  have hlast := hle.rel_getLast hs
  have hspan := hwindow _ (List.head?_eq_some_head hne) _ (List.getLast?_eq_some_getLast hne)
  omega

theorem ne_of_sorted {ids : List UnitId} {slot? : UnitId → Option Nat}
    (hsorted : (ids.filterMap slot?).Pairwise (· < ·)) {u v : UnitId} (hu : u ∈ ids)
    (hv : v ∈ ids) (hne : u ≠ v) {s t : Nat} (hs : slot? u = some s) (ht : slot? v = some t) :
    s ≠ t := by
  induction ids with
  | nil => exact absurd hu List.not_mem_nil
  | cons id rest ih =>
      rw [List.pairwise_filterMap, List.pairwise_cons] at hsorted
      obtain ⟨hfirst, hrest⟩ := hsorted
      rcases List.mem_cons.mp hu with rfl | hu' <;> rcases List.mem_cons.mp hv with rfl | hv'
      · exact absurd rfl hne
      · exact Nat.ne_of_lt (hfirst v hv' s hs t ht)
      · exact Nat.ne_of_gt (hfirst u hu' t ht s hs)
      · exact ih (List.pairwise_filterMap.mpr hrest) hu' hv'

namespace Graph

variable {g : Graph} {block : BlockId} {entrySlot interval : Nat} {id : UnitId}

/-- When an iteration starts every `interval` slots, no two control units ever use
the same function unit in the same slot. -/
def NeverDoubleBooks (interval : Nat) (g : Graph) : Prop :=
  ∀ {u v : UnitId} {unit unit' : ScheduleUnit}, u ≠ v →
    g.units[u]? = some unit → unit.control = true →
    g.units[v]? = some unit' → unit'.control = true →
    unit.funcUnit = unit'.funcUnit → unit.funcUnit.isTrivial = false →
    ∃ s t, unit.slot = some s ∧ unit'.slot = some t ∧
      ∀ i j : Nat, s + i * interval ≠ t + j * interval

theorem exists_delayOf (g : Graph) (interval : Nat) (id : UnitId) :
    ∃ count, g.delayOf interval id = count * interval := by
  unfold delayOf
  split
  · split
    · exact ⟨1, (one_mul interval).symm⟩
    · exact ⟨0, (zero_mul interval).symm⟩
  · exact ⟨0, (zero_mul interval).symm⟩

end Graph

open SlotScheduling.Graph

namespace PipelineSearch

variable {block : BlockId} {entrySlot interval : Nat} {g placed : Graph}

/-- Units on one function unit are placed less than one interval apart. -/
theorem Attempt.close (h : Attempt block entrySlot interval g placed) {u v : UnitId}
    {unit unit' : ScheduleUnit} (hne : u ≠ v)
    (hunit : placed.units[u]? = some unit) (hcontrol : unit.control = true)
    (hunit' : placed.units[v]? = some unit') (hcontrol' : unit'.control = true)
    (hsame : unit.funcUnit = unit'.funcUnit) (hshared : unit.funcUnit.isTrivial = false) :
    ∃ s t, unit.slot = some s ∧ unit'.slot = some t ∧ s ≠ t ∧ s < t + interval ∧
      t < s + interval := by
  obtain ⟨bounds, order, ordered, horder, hbuild, hskeleton, hwindow, hinterval, hplaced⟩ :=
    h.placed
  have hplacedBlock := h.ofBlock.of_frame_eq hplaced.frame
  have hsame' : placed.skeleton = ordered.skeleton :=
    (skeleton_eq_of_frame_eq hplaced.frame).trans hskeleton.symm
  obtain ⟨start, hstart, heq, _⟩ := exists_of_skeleton_eq hsame' hunit
  obtain ⟨start', hstart', heq', _⟩ := exists_of_skeleton_eq hsame' hunit'
  have hfuncUnit := ScheduleUnit.funcUnit_of_skeleton_eq heq
  rw [hfuncUnit, ScheduleUnit.funcUnit_of_skeleton_eq heq'] at hsame
  rw [hfuncUnit] at hshared
  have hstartControl := (ScheduleUnit.control_of_skeleton_eq heq).symm.trans hcontrol
  have hstartControl' := (ScheduleUnit.control_of_skeleton_eq heq').symm.trans hcontrol'
  obtain ⟨chain, hchain, hblock, hu, hv⟩ :=
    IssueOrder.exists_chain (hplacedBlock.of_skeleton_eq hsame'.symm) hbuild hne hstart
      hstartControl hstart' hstartControl' hsame hshared
  have hsorted := hplaced.chains horder hchain
  have hfits := hplaced.windows horder hchain hwindow (hblock ▸ hinterval)
  have hscheduled : ∀ {id : UnitId} {unit : ScheduleUnit}, placed.units[id]? = some unit →
      unit.control = true → ∃ slot, placed.slot? id = some slot :=
    fun hid hflag => hplaced.scheduled
      (mem_controlUnits_of_frame_eq hplacedBlock.toListed hplaced.frame ⟨_, hid, hflag⟩)
  obtain ⟨s, hs⟩ := hscheduled hunit hcontrol
  obtain ⟨t, ht⟩ := hscheduled hunit' hcontrol'
  have hsMem := List.mem_filterMap.mpr ⟨u, hu, hs⟩
  have htMem := List.mem_filterMap.mpr ⟨v, hv, ht⟩
  refine ⟨s, t, (slot?_eq hunit).symm.trans hs, (slot?_eq hunit').symm.trans ht, ?_, ?_, ?_⟩
  · exact ne_of_sorted hsorted hu hv hne hs ht
  · exact close_of_sorted hsorted hfits hsMem htMem
  · exact close_of_sorted hsorted hfits htMem hsMem

end PipelineSearch

end SlotScheduling
