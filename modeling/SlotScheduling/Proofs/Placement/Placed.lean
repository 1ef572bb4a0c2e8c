import SlotScheduling.Proofs.Placement.ControlSystem

/-!
# Placed control paths

What is known of a graph in which the earliest solution of the control path was
placed: the slots respect whatever the system of the control path asked for.
-/

namespace SlotScheduling

open ConstraintSystem

namespace ControlSystem

/-- The second graph is the first one with its free control units placed within
some bounds. -/
structure Placed (g : Graph) (bounds : ControlBounds) (g' : Graph) : Prop where
  frame : g'.frame = g.frame
  kept : ∀ {id slot}, g.slot? id = some slot → g'.slot? id = some slot
  untouched : ∀ {id}, id ∉ g.controlUnits → g'.slot? id = g.slot? id
  scheduled : ∀ {id}, id ∈ g.controlUnits → ∃ slot, g'.slot? id = some slot
  range : ∀ {id slot}, id ∈ g.controlUnits → g.slot? id = none → g'.slot? id = some slot →
    g.entrySlot ≤ slot ∧ slot < Word.count
  deps : ∀ {id unit dep x}, id ∈ g.controlUnits → g.units[id]? = some unit →
    dep ∈ unit.deps.entries → g'.slot? id = some x →
    ∃ offset?, bounds.offset? g unit.block dep.2.edge = .ok offset? ∧
      ∀ offset ∈ offset?, g.IsControl dep.1 → ∀ y, g'.slot? dep.1 = some y →
        dep.2.edge.Admits offset ((x : Int) - (y : Int))
  paths : ∀ {id unit dep offset control span x y}, id ∈ g.controlUnits →
    g.units[id]? = some unit → dep ∈ unit.deps.entries →
    bounds.offset? g unit.block dep.2.edge = .ok (some offset) →
    LookThrough.Spans g bounds control dep.1 span →
    g'.slot? control = some y → g'.slot? id = some x → (y : Int) + span + offset ≤ (x : Int)
  chains : ∀ {order chain}, bounds.order = some order → chain ∈ order.chains →
    (chain.units.filterMap g'.slot?).Pairwise (· < ·)
  windows : ∀ {order chain interval}, bounds.order = some order → chain ∈ order.chains →
    bounds.moduloWindow = true → bounds.interval? g chain.block = some interval →
    ∀ first ∈ (chain.units.filterMap g'.slot?).head?,
      ∀ last ∈ (chain.units.filterMap g'.slot?).getLast?, last < first + interval

variable {g g' : Graph} {bounds : ControlBounds} {base sys : ConstraintSystem}
  {slots : List (UnitId × Nat)}

theorem Describes.rooted (h : Describes base g bounds sys) : Arc.Rooted sys.arcs := by
  intro arc hmem hsource
  have hclosed := h.grows.closed h.free.closed
  obtain ⟨hne, _, htarget⟩ := hclosed arc hmem
  obtain ⟨root, hroot, hzero, hweight⟩ := h.root (by omega)
  exact ⟨root, hroot, hzero, le_trans (by decide) hweight⟩

theorem Describes.satisfies (h : Describes base g bounds sys) (hslots : sys.earliest = .ok slots) :
    sys.Satisfies (valuesOf slots) :=
  satisfies_earliest (h.grows.closed h.free.closed) h.rooted hslots

/-- The units that get slots are the free control units. -/
theorem Describes.mem_placed (h : Describes base g bounds sys) (hslots : sys.earliest = .ok slots)
    {id : UnitId} :
    id ∈ slots.map Prod.fst ↔ id ∈ g.controlUnits ∧ g.slot? id = none := by
  have hclosed := h.grows.closed h.free.closed
  rw [(earliest_eq_ok hclosed hslots).2.1, h.grows.keepsUnits, Array.mem_toList_iff]
  exact ⟨h.free.slot, fun hid => h.free.mem hid.1 hid.2⟩

theorem Describes.unknowns_ne_zero (h : Describes base g bounds sys) {id : UnitId}
    (hid : id ∈ g.controlUnits) (hnone : g.slot? id = none) : sys.unknowns.size ≠ 0 := by
  have hmem := h.free.mem hid hnone
  rw [h.grows.keepsUnits]
  intro hzero
  rw [Array.eq_empty_of_size_eq_zero hzero] at hmem
  simp at hmem

theorem Describes.places (h : Describes base g bounds sys) (hslots : sys.earliest = .ok slots)
    (hplace : g.placeAll slots = .ok g') : base.Places (valuesOf slots) g g' := by
  have hunits := (earliest_eq_ok (h.grows.closed h.free.closed) hslots).2.1
  rw [h.grows.keepsUnits] at hunits
  exact places_placeAll h.free.nodup hunits hplace

theorem Describes.placed (h : Describes base g bounds sys) (hslots : sys.earliest = .ok slots)
    (hplace : g.placeAll slots = .ok g') : Placed g bounds g' := by
  have hvalues := h.satisfies hslots
  have hplaces := h.places hslots hplace
  have hkept : ∀ {id}, ¬(id ∈ g.controlUnits ∧ g.slot? id = none) → g'.slot? id = g.slot? id :=
    fun hid => hplaces.slot?_eq (h.free.variableOf?_eq_none hid)
  refine ⟨Graph.frame_placeAll hplace, ?_, ?_, ?_, ?_, ?_, ?_, ?_, ?_⟩
  · intro id slot hid
    rw [hkept fun hfree => by simp [hid] at hfree, hid]
  · exact fun hid => hkept fun hfree => hid hfree.1
  · intro id hid
    cases hold : g.slot? id with
    | some slot =>
        refine ⟨slot, ?_⟩
        rw [hkept fun hfree => by simp [hold] at hfree, hold]
    | none =>
        obtain ⟨index, hindex⟩ := h.free.exists_index hid hold
        exact hplaces.exists_slot hindex
  · intro id slot hid hnone hplaced
    obtain ⟨index, hindex⟩ := h.free.exists_index hid hnone
    have hentry := (h.units _ hvalues id hid).1 index hindex
    have hvalue := hplaces.slot_eq hindex hplaced
    have hindexLt := lt_size_of_variableOf? hindex
    rw [← h.grows.keepsUnits] at hindexLt
    have hword := earliest_isWord (h.grows.closed h.free.closed) hslots hindexLt
    omega
  · intro id unit dep x hid hunit hdep hx
    obtain ⟨offset?, hoffset, hmeets⟩ :=
      (h.units _ hvalues id hid).2 unit hunit dep hdep x (hplaces.valueOf?_eq hx)
    refine ⟨offset?, hoffset, fun offset hsome hcontrol y hy => ?_⟩
    exact (hmeets offset hsome).1 hcontrol y (hplaces.valueOf?_eq hy)
  · intro id unit dep offset control span x y hid hunit hdep hoffset hspans hy hx
    obtain ⟨offset?, hoffset', hmeets⟩ :=
      (h.units _ hvalues id hid).2 unit hunit dep hdep x (hplaces.valueOf?_eq hx)
    rw [hoffset] at hoffset'
    cases hoffset'
    exact (hmeets offset rfl).2 control span hspans y (hplaces.valueOf?_eq hy)
  · intro order chain horder hchain
    have hsorted := (h.chains _ hvalues order horder chain hchain).1
    rw [← hplaces.filterMap_slot?_eq, List.pairwise_map] at hsorted
    exact hsorted.imp fun hlt => by omega
  · intro order chain interval horder hchain hwindow hinterval first hfirst last hlast
    have hfits := (h.chains _ hvalues order horder chain hchain).2 interval hwindow hinterval
    rw [← hplaces.filterMap_slot?_eq, List.head?_map, List.getLast?_map] at hfits
    have := hfits first (Option.mem_map_of_mem _ hfirst) last (Option.mem_map_of_mem _ hlast)
    omega

end ControlSystem

end SlotScheduling
