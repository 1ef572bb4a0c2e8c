import Mathlib.Data.Int.ConditionallyCompleteOrder
import SlotScheduling.Proofs.Graph.Forward
import SlotScheduling.Proofs.Pipeline.Shared

/-!
# Assignments of slots to all units

Among the assignments of slots to all units of a graph that respect its dependencies and an order of
some units, one is the lowest, if there are any.  There are some where all dependencies are on
earlier units, and among these some in which the units of every shared function unit issue in the
order of another one.
-/

namespace SlotScheduling

theorem DepEdge.admits_iff_le {edge : DepEdge} {offset gap : Int}
    (h : edge.isFixedTiming = false) : edge.Admits offset gap ↔ offset ≤ gap := by
  simp [Admits, h]

namespace Graph

variable {g : Graph} {orders : UnitId → UnitId → Prop} {slots first : UnitId → Int}
  {id source user : UnitId} {bundle : EdgeBundle}

/-- Slots of all units, in which the entry comes at the entry slot and no unit comes before it,
every dependency is met within the iteration, and units that are in order issue one after the
other. -/
structure Respects (g : Graph) (orders : UnitId → UnitId → Prop) (slots : UnitId → Int) : Prop where
  entry : slots g.entryRoot = g.entrySlot
  after : ∀ {id}, id < g.units.size → (g.entrySlot : Int) ≤ slots id
  met : ∀ {user source bundle}, g.bundle? user source = some bundle →
    bundle.edge.Admits bundle.edge.latency (slots user - slots source)
  turns : ∀ {source user}, orders source user → slots source < slots user

/-- The lowest of the slots that respect the dependencies and the order. -/
structure Earliest (g : Graph) (orders : UnitId → UnitId → Prop) (slots : UnitId → Int) : Prop
    extends Respects g orders slots where
  least : ∀ {slots'}, g.Respects orders slots' → ∀ {id}, id < g.units.size → slots id ≤ slots' id

/-- The units share a function unit, and one issues before the other. -/
def Turns (g : Graph) (slots : UnitId → Int) (source user : UnitId) : Prop :=
  g.Shares source user ∧ Issues slots source user

theorem Turns.lt_size (h : g.Turns slots source user) :
    source < g.units.size ∧ user < g.units.size :=
  ⟨h.1.isControl.lt_size, h.1.symm.isControl.lt_size⟩

theorem Respects.mono {orders' : UnitId → UnitId → Prop} (h : g.Respects orders slots)
    (himp : ∀ {source user}, orders' source user → orders source user) :
    g.Respects orders' slots :=
  ⟨h.entry, h.after, h.met, fun horder => h.turns (himp horder)⟩

/-- A unit issues no earlier than those that it depends on. -/
theorem Respects.le (h : g.Respects orders slots) (hbundle : g.bundle? user source = some bundle) :
    slots source + bundle.edge.latency ≤ slots user := by
  have := (h.met hbundle).le
  omega

theorem Respects.source_le (h : g.Respects orders slots)
    (hbundle : g.bundle? user source = some bundle) : slots source ≤ slots user :=
  (le_add_of_nonneg_right (Int.natCast_nonneg _)).trans (h.le hbundle)

/-! ## The lowest assignment -/

/-- The slots that a unit has in the assignments that respect the dependencies and the order. -/
def slotsOf (g : Graph) (orders : UnitId → UnitId → Prop) (id : UnitId) : Set Int :=
  {slot | ∃ slots, g.Respects orders slots ∧ slots id = slot}

theorem Respects.mem_slotsOf (h : g.Respects orders slots) (id : UnitId) :
    slots id ∈ g.slotsOf orders id :=
  ⟨slots, h, rfl⟩

theorem bddBelow_slotsOf (hid : id < g.units.size) : BddBelow (g.slotsOf orders id) :=
  ⟨g.entrySlot, fun _ ⟨_, hslots, heq⟩ => heq ▸ hslots.after hid⟩

/-- Some assignment has the lowest slot of a unit. -/
theorem Respects.exists_sInf (h : g.Respects orders first) (hid : id < g.units.size) :
    ∃ slots, g.Respects orders slots ∧ slots id = sInf (g.slotsOf orders id) :=
  Int.csInf_mem ⟨first id, h.mem_slotsOf id⟩ (bddBelow_slotsOf hid)

theorem Respects.sInf_le (h : g.Respects orders slots) (hid : id < g.units.size) :
    sInf (g.slotsOf orders id) ≤ slots id :=
  csInf_le (bddBelow_slotsOf hid) (h.mem_slotsOf id)

/-- The lowest slots of all units together respect what each of the assignments respects. -/
theorem exists_earliest (hwell : g.WellFormed) (htidy : g.Tidy) (hroot : g.entryRoot < g.units.size)
    (horders : ∀ {source user}, orders source user →
      source < g.units.size ∧ user < g.units.size)
    (hsome : g.Respects orders first) : ∃ slots, g.Earliest orders slots := by
  refine ⟨fun id => sInf (g.slotsOf orders id),
    ⟨?_, fun hid => ?_, fun hbundle => ?_, fun horder => ?_⟩,
    fun hslots _ hid => hslots.sInf_le hid⟩
  · obtain ⟨slots, hslots, heq⟩ := hsome.exists_sInf hroot
    exact heq.symm.trans hslots.entry
  · obtain ⟨slots, hslots, heq⟩ := hsome.exists_sInf hid
    exact heq ▸ hslots.after hid
  · obtain ⟨huser, hsource⟩ := lt_size_of_bundle? hwell hbundle
    obtain ⟨slots, hslots, heq⟩ := hsome.exists_sInf huser
    have := hslots.le hbundle
    have := hslots.sInf_le hsource
    rw [DepEdge.admits_iff_le (htidy.loose hbundle)]
    omega
  · obtain ⟨hsource, huser⟩ := horders horder
    obtain ⟨slots, hslots, heq⟩ := hsome.exists_sInf huser
    have := hslots.turns horder
    have := hslots.sInf_le hsource
    omega

/-! ## Ranks -/

/-- Slots that grow with a rank leave room for every latency. -/
theorem respects_ranked (hg : g.Tidy) (rank : UnitId → Nat) (hentry : rank g.entryRoot = 0)
    (hedges : ∀ {user source bundle}, g.bundle? user source = some bundle →
      rank source < rank user)
    (horders : ∀ {source user}, orders source user → rank source < rank user) :
    g.Respects orders fun id => g.entrySlot + (rank id * (g.latencySum + 1) : Nat) := by
  have hgrows : ∀ {source user}, rank source < rank user →
      rank source * (g.latencySum + 1) + (g.latencySum + 1) ≤ rank user * (g.latencySum + 1) :=
    fun hlt => (Nat.succ_mul _ _).ge.trans (Nat.mul_le_mul_right _ hlt)
  refine ⟨by simp [hentry], fun _ => by omega, fun hbundle => ?_, fun horder => ?_⟩
  · have := hgrows (hedges hbundle)
    have := latency_le_latencySum hbundle
    rw [DepEdge.admits_iff_le (hg.loose hbundle)]
    omega
  · have := hgrows (horders horder)
    omega

theorem Issues.trans {other : UnitId} (h : Issues slots source user)
    (h' : Issues slots user other) : Issues slots source other := by
  rcases h with hlt | ⟨heq, hlt⟩
  · exact Or.inl (h'.elim hlt.trans fun hsame => hsame.1 ▸ hlt)
  · exact h'.imp heq.trans_lt fun hsame => ⟨heq.trans hsame.1, hlt.trans hsame.2⟩

theorem Issues.irrefl : ¬Issues slots id id := by
  rintro (hlt | ⟨-, hlt⟩)
  · exact lt_irrefl _ hlt
  · exact lt_irrefl _ hlt

open Classical in
/-- The number of units that issue before a unit. -/
noncomputable def rankOf (g : Graph) (slots : UnitId → Int) (id : UnitId) : Nat :=
  ((Finset.range g.units.size).filter fun other => Issues slots other id).card

theorem rankOf_le (g : Graph) (slots : UnitId → Int) (id : UnitId) :
    g.rankOf slots id ≤ g.units.size := by
  classical
  exact (Finset.card_filter_le _ _).trans_eq (Finset.card_range _)

theorem rankOf_lt (hsource : source < g.units.size) (hissues : Issues slots source user) :
    g.rankOf slots source < g.rankOf slots user := by
  classical
  refine Finset.card_lt_card ((Finset.ssubset_iff_of_subset fun other hother => ?_).mpr
    ⟨source, ?_, fun hmem => Issues.irrefl (Finset.mem_filter.mp hmem).2⟩)
  · obtain ⟨hlt, hbefore⟩ := Finset.mem_filter.mp hother
    exact Finset.mem_filter.mpr ⟨hlt, hbefore.trans hissues⟩
  · exact Finset.mem_filter.mpr ⟨Finset.mem_range.mpr hsource, hissues⟩

/-- Nothing issues before the entry. -/
theorem Respects.rankOf_entryRoot (h : g.Respects orders slots) :
    g.rankOf slots g.entryRoot = 0 := by
  classical
  refine Finset.card_eq_zero.mpr (Finset.filter_eq_empty_iff.mpr fun other hother => ?_)
  have hafter := h.after (Finset.mem_range.mp hother)
  rintro (hlt | ⟨-, hlt⟩)
  · rw [h.entry] at hlt
    omega
  · exact Nat.not_lt_zero other hlt

section

variable (hwell : g.WellFormed) (htidy : g.Tidy) (hforward : g.Forward)

include hwell htidy hforward

/-- Units that all wait for earlier ones can issue one after the other. -/
theorem Forward.exists_earliest (hroot : g.entryRoot < g.units.size) :
    ∃ slots, g.Earliest (fun _ _ => False) slots :=
  Graph.exists_earliest hwell htidy hroot (fun h => h.elim)
    (Graph.respects_ranked htidy (fun id => id) rfl (fun hbundle => (hforward hbundle).1)
      fun h => h.elim)

/-- The units of shared function units can issue in the order of any slots that respect the
dependencies, since no unit comes before those that it waits for in that order. -/
theorem Forward.respects_ranked (hfirst : g.Respects orders first) :
    g.Respects (g.Turns first)
      fun id => g.entrySlot + (g.rankOf first id * (g.latencySum + 1) : Nat) := by
  refine Graph.respects_ranked htidy (g.rankOf first) hfirst.rankOf_entryRoot
    (fun hbundle => ?_) fun hturns => rankOf_lt hturns.lt_size.1 hturns.2
  refine rankOf_lt (lt_size_of_bundle? hwell hbundle).2 ?_
  exact (hfirst.source_le hbundle).lt_or_eq.imp_right fun heq => ⟨heq, (hforward hbundle).1⟩

theorem Forward.exists_earliest_turns (hroot : g.entryRoot < g.units.size)
    (hfirst : g.Respects orders first) :
    ∃ slots, g.Earliest (g.Turns first) slots :=
  Graph.exists_earliest hwell htidy hroot Turns.lt_size
    (hforward.respects_ranked hwell htidy hfirst)

/-- In order, the lowest slots are no higher than if every unit waited for all units before it. -/
theorem Forward.le_of_earliest (hfirst : g.Respects orders first)
    (hslots : g.Earliest (g.Turns first) slots) (hid : id < g.units.size) :
    slots id ≤ g.entrySlot + (g.units.size * (g.latencySum + 1) : Nat) := by
  have hle := hslots.least (hforward.respects_ranked hwell htidy hfirst) hid
  have := Nat.mul_le_mul_right (g.latencySum + 1) (g.rankOf_le first id)
  omega

end

/-! ## The order of shared function units -/

theorem Shares.turns_or (h : g.Shares source user) (slots : UnitId → Int) :
    g.Turns slots source user ∨ g.Turns slots user source := by
  rcases lt_trichotomy (slots source) (slots user) with hlt | heq | hlt
  · exact Or.inl ⟨h, Or.inl hlt⟩
  · rcases Nat.lt_or_gt_of_ne h.1 with hbefore | hafter
    · exact Or.inl ⟨h, Or.inr ⟨heq, hbefore⟩⟩
    · exact Or.inr ⟨h.symm, Or.inr ⟨heq.symm, hafter⟩⟩
  · exact Or.inr ⟨h.symm, Or.inl hlt⟩

/-- Slots that keep an order of the shared function units have that order themselves. -/
theorem Respects.turns_iff (h : g.Respects (g.Turns first) slots) :
    g.Turns slots source user ↔ g.Turns first source user := by
  refine ⟨fun hturns => ?_, fun hturns => ⟨hturns.1, Or.inl (h.turns hturns)⟩⟩
  refine (hturns.1.turns_or first).resolve_right fun hback => ?_
  have hlt := h.turns hback
  rcases hturns.2 with hbefore | ⟨heq, -⟩ <;> omega

end Graph

end SlotScheduling
