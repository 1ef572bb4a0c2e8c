import Mathlib.Data.Prod.Lex
import SlotScheduling.Proofs.Graph.Tidy
import SlotScheduling.Proofs.Placement.IssueOrder

/-!
# The order of a chain

An issue order can always be made.  In the graph of a single block its chains hold control units
of one function unit each, in the order of their slots, and of their positions within a slot.
-/

namespace SlotScheduling.IssueOrder

variable {g : Graph} {id : UnitId} {block : BlockId} {entrySlot : Nat} {ids : List UnitId}
  {key other : Key} {keys : List Key}

/-! ## Sorted keys -/

theorem comesFirst_iff : comesFirst key other = true ↔ toLex key ≤ toLex other := by
  simp [comesFirst, Prod.Lex.toLex_le_toLex]

theorem perm_insertKey (key : Key) (keys : List Key) : (insertKey key keys).Perm (key :: keys) := by
  induction keys with
  | nil => exact .refl _
  | cons head tail ih =>
      unfold insertKey
      split
      · exact .refl _
      · exact (ih.cons head).trans (.swap key head tail)

theorem perm_sortKeys (keys : List Key) : (sortKeys keys).Perm keys := by
  induction keys with
  | nil => exact .refl _
  | cons head tail ih => exact (perm_insertKey head _).trans (ih.cons head)

theorem pairwise_insertKey (h : keys.Pairwise fun a b => comesFirst a b = true) :
    (insertKey key keys).Pairwise fun a b => comesFirst a b = true := by
  induction keys with
  | nil => exact List.pairwise_singleton _ _
  | cons head tail ih =>
      obtain ⟨hhead, htail⟩ := List.pairwise_cons.mp h
      unfold insertKey
      split
      next hfirst =>
        refine List.pairwise_cons.mpr ⟨fun last hlast => ?_, h⟩
        rcases List.mem_cons.mp hlast with rfl | hlast
        · exact hfirst
        · exact comesFirst_iff.mpr
            ((comesFirst_iff.mp hfirst).trans (comesFirst_iff.mp (hhead last hlast)))
      next hlater =>
        refine List.pairwise_cons.mpr ⟨fun last hlast => ?_, ih htail⟩
        rcases mem_insertKey.mp hlast with rfl | hlast
        · rw [comesFirst_iff, not_le] at hlater
          exact comesFirst_iff.mpr hlater.le
        · exact hhead last hlast

theorem pairwise_sortKeys (keys : List Key) :
    (sortKeys keys).Pairwise fun a b => comesFirst a b = true := by
  induction keys with
  | nil => exact .nil
  | cons head tail ih => exact pairwise_insertKey ih

/-! ## Chains -/

/-- The key of a unit in a graph. -/
def keyOf (g : Graph) (id : UnitId) : Key := ((g.slot? id).getD 0, id)

/-- One unit issues before the other, by their slots of now. -/
def Precedes (g : Graph) (u v : UnitId) : Prop := toLex (keyOf g u) < toLex (keyOf g v)

theorem exists_chainOf (hids : ∀ id ∈ ids, id < g.units.size) (hnodup : ids.Nodup) :
    ∃ chain, chainOf g block ids = .ok chain ∧ chain.block = block ∧ chain.units.Perm ids ∧
      chain.units.Pairwise (Precedes g) := by
  have hkeys : ids.mapM (fun id => return ((← g.unit id).slot.getD 0, id)) =
      (.ok (ids.map (keyOf g)) : Checked _) := by
    clear hnodup
    induction ids with
    | nil => rfl
    | cons id rest ih =>
        obtain ⟨hid, hrest⟩ := List.forall_mem_cons.mp hids
        have hunit := Array.getElem?_eq_getElem hid
        rw [List.mapM_cons, Graph.unit_eq_ok.mpr hunit, Checked.ok_bind, ih hrest]
        simp only [keyOf, List.map_cons, Graph.slot?_eq hunit]
        rfl
  refine ⟨_, by rw [chainOf, hkeys]; rfl, rfl, ?_, ?_⟩
  · have hperm := (perm_sortKeys (ids.map (keyOf g))).map Prod.snd
    rw [List.map_map] at hperm
    exact hperm.trans (by simp [Function.comp_def, keyOf])
  · have hperm := perm_sortKeys (ids.map (keyOf g))
    have hdistinct : (sortKeys (ids.map (keyOf g))).Pairwise fun a b => a.2 ≠ b.2 := by
      have hpairs : (ids.map (keyOf g)).Pairwise fun a b => a.2 ≠ b.2 :=
        List.pairwise_map.mpr hnodup
      exact hperm.symm.pairwise hpairs fun hne => hne.symm
    have hof : ∀ key ∈ sortKeys (ids.map (keyOf g)), key = keyOf g key.2 := by
      intro key hkey
      obtain ⟨id, -, rfl⟩ := List.mem_map.mp (hperm.mem_iff.mp hkey)
      rfl
    rw [List.pairwise_map]
    refine ((pairwise_sortKeys _).and hdistinct).imp_of_mem fun {a b} ha hb h => ?_
    rw [Precedes, ← hof a ha, ← hof b hb]
    refine (comesFirst_iff.mp h.1).lt_of_ne fun heq => h.2 ?_
    rw [toLex.injective heq]

/-! ## Groups -/

/-- What the groups of a table hold: distinct control units of their block and function unit that
are not waiting to be grouped. -/
def Gathers (g : Graph) (rest : List UnitId)
    (table : Table (BlockId × FuncUnit) (List UnitId)) : Prop :=
  ∀ entry ∈ table.entries, entry.2.Nodup ∧ ∀ id ∈ entry.2, id ∉ rest ∧
    ∃ unit, g.units[id]? = some unit ∧ unit.control = true ∧
      (unit.block, unit.funcUnit) = entry.1 ∧ unit.funcUnit.isTrivial = false

theorem Gathers.upsert {rest : List UnitId} {table : Table (BlockId × FuncUnit) (List UnitId)}
    {unit : ScheduleUnit} (h : Gathers g (id :: rest) table) (hid : id ∉ rest)
    (hunit : g.units[id]? = some unit) (hcontrol : unit.control = true)
    (hshared : unit.funcUnit.isTrivial = false) :
    Gathers g rest (table.upsert (unit.block, unit.funcUnit) [id] (· ++ [id])) := by
  have hold : ∀ entry ∈ table.entries, ∀ other ∈ entry.2, other ∉ rest ∧ other ≠ id := by
    intro entry hentry other hother
    have hnot := ((h entry hentry).2 other hother).1
    rw [List.mem_cons, not_or] at hnot
    exact ⟨hnot.2, hnot.1⟩
  have hkept : ∀ entry ∈ table.entries, entry.2.Nodup ∧ ∀ other ∈ entry.2, other ∉ rest ∧
      ∃ unit, g.units[other]? = some unit ∧ unit.control = true ∧
        (unit.block, unit.funcUnit) = entry.1 ∧ unit.funcUnit.isTrivial = false :=
    fun entry hentry => ⟨(h entry hentry).1, fun other hother =>
      ⟨(hold entry hentry other hother).1, ((h entry hentry).2 other hother).2⟩⟩
  intro entry hentry
  unfold Table.upsert at hentry
  split at hentry
  · rcases Table.mem_entries_modify hentry with hentry | ⟨group, hgroup, rfl⟩
    · exact hkept entry hentry
    · obtain ⟨hnodup, hmembers⟩ := hkept _ hgroup
      refine ⟨List.nodup_append.mpr ⟨hnodup, List.nodup_singleton id, ?_⟩, ?_⟩
      · intro other hother last hlast
        rw [List.mem_singleton.mp hlast]
        exact (hold _ hgroup other hother).2
      · intro other hother
        rcases List.mem_append.mp hother with hother | hother
        · exact hmembers other hother
        · obtain rfl := List.mem_singleton.mp hother
          exact ⟨hid, unit, hunit, hcontrol, rfl, hshared⟩
  · rcases Table.mem_entries_insert.mp hentry with rfl | ⟨hentry, -⟩
    · refine ⟨List.nodup_singleton id, fun other hother => ?_⟩
      obtain rfl := List.mem_singleton.mp hother
      exact ⟨hid, unit, hunit, hcontrol, rfl, hshared⟩
    · exact hkept entry hentry

theorem exists_groups (hg : g.Listed) : ∃ table, groups g = .ok table ∧ Gathers g [] table := by
  have hloop : ∀ {ids : List UnitId} {table : Table (BlockId × FuncUnit) (List UnitId)},
      ids.Nodup → (∀ id ∈ ids, g.IsControl id) → Gathers g ids table →
      ∃ table', ids.foldlM (fun table id => do
        let unit ← g.unit id
        if unit.funcUnit.isTrivial then return table
        else return table.upsert (unit.block, unit.funcUnit) [id] (· ++ [id])) table =
          (.ok table' : Checked _) ∧ Gathers g [] table' := by
    intro ids
    induction ids with
    | nil => exact fun {table} _ _ h => ⟨table, rfl, h⟩
    | cons id rest ih =>
        intro table hnodup hcontrol h
        obtain ⟨hfresh, hnodup⟩ := List.nodup_cons.mp hnodup
        obtain ⟨⟨unit, hunit, hisControl⟩, hrest⟩ := List.forall_mem_cons.mp hcontrol
        rw [List.foldlM_cons, Graph.unit_eq_ok.mpr hunit, Checked.ok_bind]
        cases hshared : unit.funcUnit.isTrivial with
        | true =>
            refine ih hnodup hrest fun entry hentry => ⟨(h entry hentry).1, fun other hother => ?_⟩
            obtain ⟨hnot, hspec⟩ := (h entry hentry).2 other hother
            exact ⟨fun hmem => hnot (List.mem_cons_of_mem id hmem), hspec⟩
        | false => exact ih hnodup hrest (h.upsert hfresh hunit hisControl hshared)
  exact hloop hg.controlNodup (fun id hid => hg.control.mp hid)
    fun entry hentry => absurd hentry List.not_mem_nil

/-- An issue order can be made, and this is what its chains are. -/
theorem exists_build (hg : g.OfBlock block entrySlot) : ∃ order, build g = .ok order ∧
    ∀ chain ∈ order.chains, chain.block = block ∧ chain.units.Pairwise (Precedes g) ∧
      (∀ id ∈ chain.units, g.IsControl id) ∧
      ∃ funcUnit : FuncUnit, funcUnit.isTrivial = false ∧ ∀ id ∈ chain.units,
        ∀ unit, g.units[id]? = some unit → unit.funcUnit = funcUnit := by
  obtain ⟨table, htable, hgathers⟩ := exists_groups hg.toListed
  have hchain : ∀ entry ∈ table.entries, ∃ chain, chainOf g entry.1.1 entry.2 = .ok chain ∧
      chain.block = entry.1.1 ∧ chain.units.Perm entry.2 ∧
      chain.units.Pairwise (Precedes g) := by
    intro entry hentry
    obtain ⟨hnodup, hmembers⟩ := hgathers entry hentry
    refine exists_chainOf (fun id hid => ?_) hnodup
    obtain ⟨-, unit, hunit, -⟩ := hmembers id hid
    exact Graph.lt_size_of_getElem? hunit
  obtain ⟨chains, hchains⟩ : ∃ chains,
      (table.entries.filter fun entry => decide (1 < entry.2.length)).mapM
        (fun entry => chainOf g entry.1.1 entry.2) = .ok chains :=
    Checked.exists_mapM_eq_ok fun entry hentry =>
      (hchain entry (List.mem_filter.mp hentry).1).imp fun _ h => h.1
  refine ⟨⟨chains⟩, ?_, fun chain hmem => ?_⟩
  · rw [build, htable, Checked.ok_bind]
    simp only [hchains, Checked.ok_bind]
    rfl
  · obtain ⟨entry, hentry, hbuilt⟩ := Checked.exists_of_mem_mapM hchains hmem
    obtain ⟨hentry, hlength⟩ := List.mem_filter.mp hentry
    obtain ⟨chain', hbuilt', hblock, hperm, hpairs⟩ := hchain entry hentry
    obtain rfl : chain' = chain := Except.ok.inj (hbuilt'.symm.trans hbuilt)
    obtain ⟨-, hmembers⟩ := hgathers entry hentry
    obtain ⟨first, hfirst⟩ := List.exists_mem_of_length_pos
      (Nat.lt_trans Nat.zero_lt_one (of_decide_eq_true hlength))
    obtain ⟨-, unit, hunit, -, hkey, hshared⟩ := hmembers first hfirst
    refine ⟨?_, hpairs, fun id hid => ?_, entry.1.2, ?_, fun id hid unit' hunit' => ?_⟩
    · rw [hblock, ← hkey]
      exact (hg.units hunit).block
    · obtain ⟨-, unit', hunit', hcontrol, -⟩ := hmembers id (hperm.mem_iff.mp hid)
      exact ⟨unit', hunit', hcontrol⟩
    · rw [← hkey]
      exact hshared
    · obtain ⟨-, found, hfound, -, hkey', -⟩ := hmembers id (hperm.mem_iff.mp hid)
      obtain rfl := Option.some.inj (hfound.symm.trans hunit')
      exact congrArg Prod.snd hkey'

end SlotScheduling.IssueOrder
