import SlotScheduling.Placement.IssueOrder
import SlotScheduling.Proofs.Graph.Blocks

/-!
# Who is in a chain

Control units of one block on the same function unit share a chain of the issue
order, unless the function unit is trivial.
-/

namespace SlotScheduling

namespace IssueOrder

variable {g : Graph} {id : UnitId} {unit : ScheduleUnit} {block : BlockId} {entrySlot : Nat}

theorem mem_insertKey {key other : Key} {keys : List Key} :
    other ∈ insertKey key keys ↔ other = key ∨ other ∈ keys := by
  induction keys with
  | nil => simp [insertKey]
  | cons head tail ih =>
      unfold insertKey
      split
      · simp
      · simp only [List.mem_cons, ih]
        exact or_left_comm

theorem mem_sortKeys {key : Key} {keys : List Key} : key ∈ sortKeys keys ↔ key ∈ keys := by
  induction keys with
  | nil => simp [sortKeys]
  | cons head tail ih =>
      rw [List.mem_cons, ← ih]
      exact mem_insertKey

theorem mem_chainOf {ids : List UnitId} {chain : IssueChain}
    (h : chainOf g block ids = .ok chain) (hid : id ∈ ids) :
    chain.block = block ∧ id ∈ chain.units := by
  obtain ⟨keys, hkeys, h⟩ := Checked.bind_eq_ok.mp h
  obtain rfl := Checked.pure_eq_ok.mp h
  obtain ⟨key, hmem, hkey⟩ := Checked.exists_mem_mapM hkeys hid
  obtain ⟨unit, _, hkey⟩ := Checked.bind_eq_ok.mp hkey
  obtain rfl := Checked.pure_eq_ok.mp hkey
  exact ⟨rfl, List.mem_map.mpr ⟨_, mem_sortKeys.mpr hmem, rfl⟩⟩

/-- The unit is in the group of its block and its function unit. -/
def Grouped (g : Graph) (id : UnitId) (table : Table (BlockId × FuncUnit) (List UnitId)) : Prop :=
  ∀ unit, g.units[id]? = some unit → unit.funcUnit.isTrivial = false →
    ∃ group, table.get? (unit.block, unit.funcUnit) = some group ∧ id ∈ group

theorem groups_sound {table : Table (BlockId × FuncUnit) (List UnitId)}
    (h : groups g = .ok table) (hid : id ∈ g.controlUnits) : Grouped g id table := by
  have hall := Checked.foldlM_forall (P := fun _ => True) (Q := Grouped g) ?_ trivial h
  · exact hall.2 id hid
  intro id _ before after _ hround
  obtain ⟨unit, hunit, hround⟩ := Checked.bind_eq_ok.mp hround
  rw [Graph.unit_eq_ok] at hunit
  split at hround
  next htrivial =>
    obtain rfl := Checked.pure_eq_ok.mp hround
    refine ⟨trivial, fun unit' hunit' hshared => ?_, fun other hother => hother⟩
    obtain rfl := Option.some.inj (hunit.symm.trans hunit')
    rw [htrivial] at hshared
    cases hshared
  next =>
    obtain rfl := Checked.pure_eq_ok.mp hround
    refine ⟨trivial, fun unit' hunit' _ => ?_, fun other hother unit' hunit' hshared => ?_⟩
    · obtain rfl := Option.some.inj (hunit.symm.trans hunit')
      rw [Table.get?_upsert, if_pos rfl]
      refine ⟨_, rfl, ?_⟩
      cases before.get? (unit.block, unit.funcUnit) <;> simp
    · obtain ⟨group, hgroup, hmem⟩ := hother unit' hunit' hshared
      rw [Table.get?_upsert]
      split
      · exact ⟨_, rfl, by simp [hgroup, hmem]⟩
      · exact ⟨group, hgroup, hmem⟩

theorem one_lt_length {ids : List UnitId} {u v : UnitId} (hu : u ∈ ids) (hv : v ∈ ids)
    (hne : u ≠ v) : 1 < ids.length := by
  match ids, hu, hv with
  | [_], hu, hv =>
      rw [List.mem_singleton] at hu hv
      exact absurd (hu.trans hv.symm) hne
  | _ :: _ :: _, _, _ => simp

/-- Two control units of one block on one function unit are in one chain. -/
theorem exists_chain_of_mem {order : IssueOrder} (h : build g = .ok order) {u v : UnitId}
    {unit unit' : ScheduleUnit} (hne : u ≠ v) (hu : u ∈ g.controlUnits)
    (hv : v ∈ g.controlUnits) (hunit : g.units[u]? = some unit)
    (hunit' : g.units[v]? = some unit') (hblock : unit.block = unit'.block)
    (hsame : unit.funcUnit = unit'.funcUnit) (hshared : unit.funcUnit.isTrivial = false) :
    ∃ chain ∈ order.chains, chain.block = unit.block ∧ u ∈ chain.units ∧ v ∈ chain.units := by
  obtain ⟨table, htable, h⟩ := Checked.bind_eq_ok.mp h
  obtain ⟨chains, hchains, h⟩ := Checked.bind_eq_ok.mp h
  obtain rfl := Checked.pure_eq_ok.mp h
  obtain ⟨group, hgroup, hmem⟩ := groups_sound htable hu unit hunit hshared
  obtain ⟨group', hgroup', hmem'⟩ := groups_sound htable hv unit' hunit' (hsame ▸ hshared)
  rw [← hblock, ← hsame, hgroup] at hgroup'
  obtain rfl := Option.some.inj hgroup'
  have hentry : ((unit.block, unit.funcUnit), group) ∈
      table.entries.filter fun entry => decide (1 < entry.2.length) := by
    refine List.mem_filter.mpr ⟨Table.mem_entries_of_get?_eq_some hgroup, ?_⟩
    simpa using one_lt_length hmem hmem' hne
  obtain ⟨chain, hchain, hordered⟩ := Checked.exists_mem_mapM hchains hentry
  obtain ⟨hchainBlock, huChain⟩ := mem_chainOf hordered hmem
  obtain ⟨_, hvChain⟩ := mem_chainOf hordered hmem'
  exact ⟨chain, hchain, hchainBlock, huChain, hvChain⟩

/-- In the graph of a single block, any two control units on one function unit are in
one chain. -/
theorem exists_chain {order : IssueOrder} (hg : g.OfBlock block entrySlot)
    (h : build g = .ok order) {u v : UnitId} {unit unit' : ScheduleUnit} (hne : u ≠ v)
    (hunit : g.units[u]? = some unit) (hcontrol : unit.control = true)
    (hunit' : g.units[v]? = some unit') (hcontrol' : unit'.control = true)
    (hsame : unit.funcUnit = unit'.funcUnit) (hshared : unit.funcUnit.isTrivial = false) :
    ∃ chain ∈ order.chains, chain.block = block ∧ u ∈ chain.units ∧ v ∈ chain.units := by
  have hblock : unit.block = unit'.block := (hg.block_eq hunit).trans (hg.block_eq hunit').symm
  obtain ⟨chain, hchain, hchainBlock, hu, hv⟩ :=
    exists_chain_of_mem h hne (hg.control.mpr ⟨unit, hunit, hcontrol⟩)
      (hg.control.mpr ⟨unit', hunit', hcontrol'⟩) hunit hunit' hblock hsame hshared
  exact ⟨chain, hchain, hchainBlock.trans (hg.units hunit).block, hu, hv⟩

end IssueOrder

end SlotScheduling
