import SlotScheduling.Proofs.Difference.Solutions
import SlotScheduling.Proofs.Graph.Changes

/-!
# Variables and slots

The variables of a system stand for units without slots.  A solution gives every
unit a value, which is the slot of the unit once the solution is placed.
-/

namespace SlotScheduling.ConstraintSystem

variable {sys sys' : ConstraintSystem} {g g' : Graph} {id : UnitId} {values : Nat → Int}

theorem variableOf?_eq_none : sys.variableOf? id = none ↔ id ∉ sys.unknowns := by
  simp [variableOf?]

theorem variableOf?_eq_some {index : Nat} (h : sys.variableOf? id = some index) :
    sys.unknowns[index]? = some id := by
  have hlist : sys.unknowns.toList.idxOf? id = some index := by
    rw [← List.idxOf?_toArray, Array.toArray_toList]
    exact h
  rw [List.idxOf?_eq_some_iff] at hlist
  obtain ⟨hlt, heq, _⟩ := hlist
  rw [← Array.getElem?_toList, List.getElem?_eq_getElem hlt]
  simpa using heq

theorem lt_size_of_variableOf? {index : Nat} (h : sys.variableOf? id = some index) :
    index < sys.unknowns.size :=
  (Array.getElem?_eq_some_iff.mp (variableOf?_eq_some h)).1

/-- The value of a unit: that of its variable, or else its slot. -/
def valueOf? (sys : ConstraintSystem) (g : Graph) (values : Nat → Int) (id : UnitId) :
    Option Int :=
  match sys.variableOf? id with
  | some index => some (values index)
  | none => (g.slot? id).map fun slot : Nat => (slot : Int)

theorem valueOf?_congr (h : sys'.unknowns = sys.unknowns) :
    sys'.valueOf? g values id = sys.valueOf? g values id := by
  simp only [valueOf?, variableOf?, h]

theorem term?_cases {found : Option Term} (h : sys.term? g id = .ok found) :
    (∃ index, sys.variableOf? id = some index ∧ found = some (.var index)) ∨
      sys.variableOf? id = none ∧ found = (g.slot? id).map fun slot : Nat => .const slot := by
  unfold term? at h
  cases hvariable : sys.variableOf? id with
  | some index =>
      rw [hvariable] at h
      exact Or.inl ⟨index, rfl, Checked.pure_eq_ok.mp h⟩
  | none =>
      rw [hvariable] at h
      obtain ⟨unit, hunit, h⟩ := Checked.bind_eq_ok.mp h
      rw [Graph.slot?_eq (Graph.unit_eq_ok.mp hunit)]
      refine Or.inr ⟨rfl, (Checked.pure_eq_ok.mp h).trans ?_⟩
      cases unit.slot <;> rfl

theorem map_eval_term? {found : Option Term} (h : sys.term? g id = .ok found)
    (values : Nat → Int) : found.map (·.eval values) = sys.valueOf? g values id := by
  unfold valueOf?
  rcases term?_cases h with ⟨index, hvariable, rfl⟩ | ⟨hvariable, rfl⟩
  · rw [hvariable]
    rfl
  · rw [hvariable, Option.map_map]
    rfl

theorem Extends.map_eval_term? {base : ConstraintSystem} (hbase : base.Extends sys)
    {found : Option Term} (h : sys.term? g id = .ok found) (values : Nat → Int) :
    found.map (·.eval values) = base.valueOf? g values id := by
  rw [ConstraintSystem.map_eval_term? h, valueOf?_congr hbase.keepsUnits]

theorem Extends.variableOf?_eq {base : ConstraintSystem} (hbase : base.Extends sys) :
    sys.variableOf? id = base.variableOf? id := by
  simp only [variableOf?, hbase.keepsUnits]

theorem variableOf?_eq_none_of_term? (h : sys.term? g id = .ok none) :
    sys.variableOf? id = none := by
  rcases term?_cases h with ⟨index, _, heq⟩ | ⟨hnone, _⟩
  · cases heq
  · exact hnone

theorem exists_variable_of_term? {term : Term} (h : sys.term? g id = .ok (some term))
    (hfree : g.slot? id = none) :
    ∃ index, sys.variableOf? id = some index ∧ term = .var index := by
  rcases term?_cases h with ⟨index, hindex, heq⟩ | ⟨_, heq⟩
  · cases heq
    exact ⟨index, hindex, rfl⟩
  · rw [hfree] at heq
    cases heq

theorem owned_of_term? {term : Term} (h : sys.term? g id = .ok (some term)) :
    term.Owned sys := by
  rcases term?_cases h with ⟨index, hvariable, heq⟩ | ⟨hvariable, heq⟩
  · cases heq
    exact lt_size_of_variableOf? hvariable
  · obtain ⟨slot, _, rfl⟩ := Option.map_eq_some_iff.mp heq.symm
    exact owned_const _

/-! ## The variables of free units -/

/-- The variables are the units of a list that have no slots, and there are no
constraints. -/
structure IsFree (sys : ConstraintSystem) (g : Graph) (units : List UnitId) : Prop where
  arcs : sys.arcs = []
  violated : sys.violated = none
  nodup : sys.unknowns.toList.Nodup
  slot : ∀ {id}, id ∈ sys.unknowns → id ∈ units ∧ g.slot? id = none
  mem : ∀ {id}, id ∈ units → g.slot? id = none → id ∈ sys.unknowns

/-- No more variables are there than units. -/
theorem IsFree.size_le {units : List UnitId} (h : sys.IsFree g units)
    (hunits : ∀ id ∈ units, id < g.units.size) : sys.unknowns.size ≤ g.units.size := by
  have hsubset : sys.unknowns.toList ⊆ List.range g.units.size := fun id hid =>
    List.mem_range.mpr (hunits id (h.slot (by simpa using hid)).1)
  have hlength := (h.nodup.subperm hsubset).length_le
  rwa [List.length_range, Array.length_toList] at hlength

theorem IsFree.closed {units : List UnitId} (h : sys.IsFree g units) : sys.Closed := by
  intro arc hmem
  rw [h.arcs] at hmem
  exact absurd hmem List.not_mem_nil

theorem IsFree.exists_index {units : List UnitId} (h : sys.IsFree g units) (hid : id ∈ units)
    (hslot : g.slot? id = none) : ∃ index, sys.variableOf? id = some index := by
  cases hvariable : sys.variableOf? id with
  | some index => exact ⟨index, rfl⟩
  | none => exact absurd (h.mem hid hslot) (variableOf?_eq_none.mp hvariable)

theorem IsFree.variableOf?_eq_none {units : List UnitId} (h : sys.IsFree g units)
    (hid : ¬(id ∈ units ∧ g.slot? id = none)) : sys.variableOf? id = none :=
  ConstraintSystem.variableOf?_eq_none.mpr fun hmem => hid (h.slot hmem)

theorem IsFree.exists_of_pos {units : List UnitId} (h : sys.IsFree g units)
    (hpos : 0 < sys.unknowns.size) : ∃ id ∈ units, g.slot? id = none :=
  ⟨sys.unknowns[0], h.slot (Array.getElem_mem hpos)⟩

theorem mem_unknowns_addVariable {other : UnitId} :
    other ∈ (sys.addVariable id).unknowns ↔ other = id ∨ other ∈ sys.unknowns := by
  rcases sys.addVariable_cases id with heq | ⟨_, heq⟩
  · unfold addVariable at heq ⊢
    split
    next hsome =>
      have hmem : id ∈ sys.unknowns := by
        by_contra hnone
        rw [variableOf?_eq_none.mpr hnone] at hsome
        cases hsome
      constructor
      · exact Or.inr
      · rintro (rfl | h)
        · exact hmem
        · exact h
    next => simp [or_comm]
  · rw [heq]
    simp [or_comm]

theorem nodup_addVariable (h : sys.unknowns.toList.Nodup) :
    (sys.addVariable id).unknowns.toList.Nodup := by
  rcases sys.addVariable_cases id with heq | ⟨hnone, heq⟩
  · rwa [heq]
  · rw [heq]
    have hfresh := variableOf?_eq_none.mp hnone
    rw [Array.toList_push]
    exact h.append (List.nodup_singleton id) (by simpa using hfresh)

theorem isFree_ofFree {units : List UnitId} (h : ofFree g units = .ok sys) :
    sys.IsFree g units := by
  have hall := Checked.foldlM_forall
    (P := fun sys => sys.arcs = [] ∧ sys.violated = none ∧ sys.unknowns.toList.Nodup ∧
      ∀ {id}, id ∈ sys.unknowns → id ∈ units ∧ g.slot? id = none)
    (Q := fun id sys => g.slot? id = none → id ∈ sys.unknowns) ?_ ?_ h
  · obtain ⟨⟨harcs, hviolated, hnodup, hslot⟩, hmem⟩ := hall
    exact ⟨harcs, hviolated, hnodup, hslot, fun {id} hid => hmem id hid⟩
  · intro id hid before after hbefore hround
    obtain ⟨harcs, hviolated, hnodup, hslot⟩ := hbefore
    obtain ⟨unit, hunit, hround⟩ := Checked.bind_eq_ok.mp hround
    have hunit := Graph.slot?_eq (Graph.unit_eq_ok.mp hunit)
    split at hround
    next hnone =>
      obtain rfl := Checked.pure_eq_ok.mp hround
      refine ⟨⟨?_, ?_, nodup_addVariable hnodup, ?_⟩, ?_, ?_⟩
      · rw [arcs_addVariable, harcs]
      · rcases before.addVariable_cases id with heq | ⟨_, heq⟩ <;> rw [heq] <;>
          exact hviolated
      · intro other hother
        rcases mem_unknowns_addVariable.mp hother with rfl | hother
        · exact ⟨hid, hunit.trans hnone⟩
        · exact hslot hother
      · exact fun _ => mem_unknowns_addVariable.mpr (Or.inl rfl)
      · exact fun other hother hslot =>
          mem_unknowns_addVariable.mpr (Or.inr (hother hslot))
    next hsome =>
      obtain rfl := Checked.pure_eq_ok.mp hround
      refine ⟨⟨harcs, hviolated, hnodup, hslot⟩, ?_, fun _ h => h⟩
      exact fun hnone => absurd (hunit.symm.trans hnone) hsome
  · exact ⟨rfl, rfl, List.nodup_nil, fun hmem => absurd hmem (by simp)⟩

/-! ## Rounds that add constraints -/

theorem Extends.meets_mono {meets : (Nat → Int) → Prop} (h : sys.Extends sys')
    (hmeets : ∀ values, sys.Satisfies values → meets values) :
    ∀ values, sys'.Satisfies values → meets values :=
  fun values hvalues => hmeets values (h.satisfies values hvalues)

section

variable {σ α : Type} (f : σ → ConstraintSystem) {step : σ → α → Checked σ} {items : List α}
  {first last : σ}

theorem extends_foldlM {Q : α → ConstraintSystem → Prop}
    (hmono : ∀ item sys sys', sys.Extends sys' → Q item sys → Q item sys')
    (hround : ∀ item before after, (f first).Extends (f before) →
      step before item = .ok after → (f before).Extends (f after) ∧ Q item (f after))
    (h : items.foldlM step first = .ok last) :
    (f first).Extends (f last) ∧ ∀ item ∈ items, Q item (f last) := by
  refine Checked.foldlM_forall (P := fun now => (f first).Extends (f now))
    (Q := fun item now => Q item (f now)) ?_ (Extends.refl _) h
  intro item _ before after hbefore hstep
  obtain ⟨hextends, hitem⟩ := hround item before after hbefore hstep
  exact ⟨hbefore.trans hextends, hitem, fun other => hmono other _ _ hextends⟩

/-- A loop adds up the constraints of its rounds. -/
theorem meets_foldlM {meets : α → (Nat → Int) → Prop}
    (hround : ∀ item before after, (f first).Extends (f before) →
      step before item = .ok after → (f before).Extends (f after) ∧
        ∀ values, (f after).Satisfies values → meets item values)
    (h : items.foldlM step first = .ok last) :
    (f first).Extends (f last) ∧
      ∀ item ∈ items, ∀ values, (f last).Satisfies values → meets item values :=
  extends_foldlM f (Q := fun item sys => ∀ values, sys.Satisfies values → meets item values)
    (fun _ _ _ hextends => hextends.meets_mono) hround h

end

/-! ## Rounds that add exactly their conditions -/

/-- The second system extends the first one, and its solutions are those of the first that
meet a condition. -/
structure Adds (sys sys' : ConstraintSystem) (meets : (Nat → Int) → Prop) : Prop where
  grows : sys.Extends sys'
  satisfies : ∀ values, sys'.Satisfies values ↔ sys.Satisfies values ∧ meets values

theorem Adds.nothing {meets : (Nat → Int) → Prop} (h : ∀ values, meets values) :
    sys.Adds sys meets :=
  ⟨Extends.refl sys, fun values => by simp [h values]⟩

theorem Adds.congr {meets meets' : (Nat → Int) → Prop} (h : sys.Adds sys' meets)
    (heq : ∀ values, meets values ↔ meets' values) : sys.Adds sys' meets' :=
  ⟨h.grows, fun values => by rw [h.satisfies, heq]⟩

theorem Adds.trans {sys'' : ConstraintSystem} {meets meets' : (Nat → Int) → Prop}
    (h : sys.Adds sys' meets) (h' : sys'.Adds sys'' meets') :
    sys.Adds sys'' fun values => meets values ∧ meets' values :=
  ⟨h.grows.trans h'.grows, fun values => by rw [h'.satisfies, h.satisfies, and_assoc]⟩

theorem adds_addEdge {target source : Term} {edge : DepEdge} {offset : Int}
    (h : sys.addEdge target source edge offset = .ok sys') (htarget : target.Owned sys)
    (hsource : source.Owned sys) :
    sys.Adds sys' fun values => edge.Admits offset (target.eval values - source.eval values) :=
  ⟨extends_addEdge h htarget hsource, fun _ => satisfies_addEdge h⟩

theorem adds_foldlM {α : Type} {step : ConstraintSystem → α → Checked ConstraintSystem}
    {items : List α} {first last : ConstraintSystem} {meets : α → (Nat → Int) → Prop}
    (hround : ∀ item before after, first.Extends before → step before item = .ok after →
      before.Adds after (meets item))
    (h : items.foldlM step first = .ok last) :
    first.Adds last fun values => ∀ item ∈ items, meets item values := by
  induction items generalizing first with
  | nil =>
      obtain rfl := Checked.pure_eq_ok.mp h
      exact Adds.nothing fun _ _ hmem => absurd hmem List.not_mem_nil
  | cons item rest ih =>
      rw [List.foldlM_cons] at h
      obtain ⟨middle, hmiddle, h⟩ := Checked.bind_eq_ok.mp h
      have hitem := hround item first middle (Extends.refl first) hmiddle
      have hrest := ih (fun other before after hbefore =>
        hround other before after (hitem.grows.trans hbefore)) h
      exact (hitem.trans hrest).congr fun values => by rw [List.forall_mem_cons]

/-! ## Placing a solution -/

/-- Every unit of the second graph has its value for a slot. -/
def Places (sys : ConstraintSystem) (values : Nat → Int) (g g' : Graph) : Prop :=
  ∀ id, (g'.slot? id).map (fun slot : Nat => (slot : Int)) = sys.valueOf? g values id

theorem Places.valueOf?_eq (h : sys.Places values g g') {slot : Nat}
    (hslot : g'.slot? id = some slot) : sys.valueOf? g values id = some (slot : Int) := by
  rw [← h, hslot, Option.map_some]

theorem Places.slot_eq (h : sys.Places values g g') {index slot : Nat}
    (hindex : sys.variableOf? id = some index) (hslot : g'.slot? id = some slot) :
    values index = slot := by
  have hvalue := h.valueOf?_eq hslot
  rw [valueOf?, hindex] at hvalue
  exact Option.some.inj hvalue

theorem Places.exists_slot (h : sys.Places values g g') {index : Nat}
    (hindex : sys.variableOf? id = some index) : ∃ slot, g'.slot? id = some slot := by
  have hvalue := h id
  rw [valueOf?, hindex] at hvalue
  obtain ⟨slot, hslot, _⟩ := Option.map_eq_some_iff.mp hvalue
  exact ⟨slot, hslot⟩

theorem Places.slot?_eq (h : sys.Places values g g') (hindex : sys.variableOf? id = none) :
    g'.slot? id = g.slot? id := by
  have hvalue := h id
  rw [valueOf?, hindex] at hvalue
  exact Option.map_injective Int.ofNat_injective hvalue

theorem Places.filterMap_slot?_eq (h : sys.Places values g g') (ids : List UnitId) :
    (ids.filterMap g'.slot?).map (fun slot : Nat => (slot : Int)) =
      ids.filterMap (sys.valueOf? g values) := by
  rw [List.map_filterMap]
  exact List.filterMap_congr fun id _ => h id

theorem places_placeAll {slots : List (UnitId × Nat)} (hnodup : sys.unknowns.toList.Nodup)
    (hunits : slots.map Prod.fst = sys.unknowns.toList) (h : g.placeAll slots = .ok g') :
    sys.Places (valuesOf slots) g g' := by
  intro id
  unfold valueOf?
  cases hvariable : sys.variableOf? id with
  | some index =>
      have hid := variableOf?_eq_some hvariable
      rw [← Array.getElem?_toList, ← hunits, List.getElem?_map] at hid
      obtain ⟨placement, hplacement, rfl⟩ := Option.map_eq_some_iff.mp hid
      have hmem : (placement.1, placement.2) ∈ slots := List.mem_of_getElem? hplacement
      rw [Graph.slot?_placeAll (hunits ▸ hnodup) hmem h]
      simp [valuesOf, hplacement]
  | none =>
      have hfresh : id ∉ slots.map Prod.fst := by
        rw [hunits]
        simpa using variableOf?_eq_none.mp hvariable
      simp only [Graph.slot?, Graph.getElem?_placeAll_of_not_mem hfresh h]

end SlotScheduling.ConstraintSystem
