import Mathlib.Algebra.BigOperators.Group.Finset.Piecewise
import Mathlib.Data.Prod.Lex
import Mathlib.Order.Lattice.Nat
import SlotScheduling.Proofs.Pipeline.Feasible

/-!
# Sharing function units modulo an interval

As soon as the interval leaves a slot for every latency and every control unit, the units of a
function unit that is shared can issue in the order of a schedule that has been found for the
dependencies alone, all within one interval.
-/

namespace SlotScheduling.Graph

open Arc

variable {g : Graph} {block : BlockId} {entrySlot interval criticalPath : Nat}
  {id exit branch source user : UnitId} {slots : UnitId → Int}

/-- Two control units are bound to one function unit, which is not trivial. -/
def Shares (g : Graph) (source user : UnitId) : Prop :=
  source ≠ user ∧ ∃ unit unit', g.units[source]? = some unit ∧ g.units[user]? = some unit' ∧
    unit.control = true ∧ unit'.control = true ∧ unit.funcUnit = unit'.funcUnit ∧
    unit.funcUnit.isTrivial = false

/-- No move shares a function unit, or waits within an iteration for a unit that does. -/
def MovesUnshared (g : Graph) : Prop :=
  ∀ {source user move}, g.Shares source user → g.IsMove move →
    ¬Relation.ReflTransGen g.WaitsWithin source move

/-- The order in which units issue: by slot, and by position within a slot. -/
def Issues (slots : UnitId → Int) (source user : UnitId) : Prop :=
  slots source < slots user ∨ slots source = slots user ∧ source < user

theorem Shares.symm (h : g.Shares source user) : g.Shares user source := by
  obtain ⟨hne, unit, unit', hunit, hunit', hcontrol, hcontrol', hsame, hshared⟩ := h
  exact ⟨hne.symm, unit', unit, hunit', hunit, hcontrol', hcontrol, hsame.symm, hsame ▸ hshared⟩

theorem Shares.isControl (h : g.Shares source user) : g.IsControl source := by
  obtain ⟨-, unit, -, hunit, -, hcontrol, -⟩ := h
  exact ⟨unit, hunit, hcontrol⟩

theorem Shares.ne_of_trivial (h : g.Shares source user)
    (htrivial : ∀ {unit}, g.units[id]? = some unit → unit.funcUnit.isTrivial = true) :
    source ≠ id := by
  rintro rfl
  obtain ⟨-, unit, -, hunit, -, -, -, -, hshared⟩ := h
  rw [htrivial hunit] at hshared
  cases hshared

/-! ## Earliest slots -/

section

variable (hg : g.Looping block entrySlot exit branch)

include hg

/-- Where slots fit within some bound, the lowest ones leave nothing but the loop operation and the
exit later than the latencies together. -/
theorem Looping.le_of_least (hsum : g.latencySum ≤ interval)
    (hmeets : g.MeetsCycles block interval)
    (hslots : g.Fits exit interval slots) {last : Int} (hlast : slots exit ≤ last)
    (hleast : ∀ {slots'}, g.Fits exit interval slots' → slots' exit ≤ last →
      ∀ {id}, g.IsControl id → slots id ≤ slots' id)
    (hid : g.IsControl id) (hbranch : id ≠ branch) (hexit : id ≠ exit) :
    slots id ≤ g.entrySlot + g.latencySum := by
  obtain ⟨value, hsteady, hentry, hbounds, -⟩ := hg.exists_value fun _ => hmeets
  obtain ⟨bundle, hbundle, -⟩ := hg.exists_bundle_branch
  have hlatency := latency_le_latencySum hbundle
  have hfits := hsteady.fits_pinned hg (g.entrySlot + g.latencySum + interval) hentry
    (fun hid => (hbounds hid).1) (by have := (hbounds (hg.loop hg.loops)).2; omega)
    (by have := (hbounds hg.exitControl).2; omega)
    (fun hbundle' => by
      obtain rfl := Option.some.inj (hbundle.symm.trans hbundle')
      omega)
    fun hmove hdepends => by
      obtain ⟨bundle', hbundle'⟩ := dependsOn_iff_bundle?.mp hdepends
      have := (hbounds (hg.waits hbundle').1).2
      omega
  have hle := hleast (hslots.min hfits) ((min_le_left _ _).trans hlast) hid
  have hvalue := (hbounds hid).2
  have hpinned : pinned branch exit (g.entrySlot + interval)
      (g.entrySlot + g.latencySum + interval) value id = value id := by
    rw [pinned, if_neg hexit, if_neg hbranch]
  omega

open Classical in
/-- The latest slot among the control units that a unit waits for within an iteration, itself
included. -/
noncomputable def latestBefore (g : Graph) (slots : UnitId → Int) (id : UnitId) : Nat :=
  ((Finset.range g.units.size).filter fun control =>
    g.IsControl control ∧ Relation.ReflTransGen g.WaitsWithin control id).sup
      fun control => (slots control).toNat

omit hg in
theorem latestBefore_mono (h : g.WaitsWithin source user) (slots : UnitId → Int) :
    g.latestBefore slots source ≤ g.latestBefore slots user := by
  classical
  refine Finset.sup_mono fun control hcontrol => ?_
  obtain ⟨hrange, hcontrol, hwaits⟩ := Finset.mem_filter.mp hcontrol
  exact Finset.mem_filter.mpr ⟨hrange, hcontrol, hwaits.tail h⟩

/-- Among slots that fit, a control unit comes after all that it waits for. -/
theorem Looping.latestBefore_eq (hslots : g.Fits exit interval slots) (hid : g.IsControl id) :
    g.latestBefore slots id = (slots id).toNat := by
  classical
  refine le_antisymm (Finset.sup_le fun control hcontrol => ?_) ?_
  · obtain ⟨-, hcontrol, hwaits⟩ := Finset.mem_filter.mp hcontrol
    obtain ⟨length, hlength, hclimbs⟩ := exists_climbs hwaits
    have := (hslots.climbs hg hcontrol hclimbs).1 hid
    omega
  · exact Finset.le_sup (f := fun control => (slots control).toNat)
      (Finset.mem_filter.mpr ⟨Finset.mem_range.mpr hid.lt_size, hid, .refl⟩)

/-- Neither waiting within an iteration nor issuing in order ever comes back. -/
theorem Looping.exists_key (hslots : g.Fits exit interval slots) :
    ∃ key : UnitId → Nat ×ₗ Nat,
      (∀ {source user}, g.WaitsWithin source user → key source < key user) ∧
      ∀ {source user}, g.IsControl source → g.IsControl user → Issues slots source user →
        key source < key user := by
  refine ⟨fun id => toLex (g.latestBefore slots id, id), fun hwaits => ?_,
    fun hsource huser hissues => ?_⟩
  · have hforward : _ < _ := hg.forward hwaits.choose_spec.1 hwaits.choose_spec.2
    rcases (latestBefore_mono hwaits slots).lt_or_eq with hlt | heq
    · exact Prod.Lex.toLex_lt_toLex.mpr (Or.inl hlt)
    · exact Prod.Lex.toLex_lt_toLex.mpr (Or.inr ⟨heq, hforward⟩)
  · have := hslots.free hsource
    have := hslots.free huser
    rw [Prod.Lex.toLex_lt_toLex, hg.latestBefore_eq hslots hsource,
      hg.latestBefore_eq hslots huser]
    rcases hissues with hlt | ⟨heq, hlt⟩
    · exact Or.inl (show (slots _).toNat < (slots _).toNat by omega)
    · exact Or.inr ⟨by rw [heq], hlt⟩

/-! ## Slots in issue order -/

open Classical in
/-- The latencies into a unit, and a slot for each control unit but the entry. -/
noncomputable def capOf (g : Graph) (id : UnitId) : Nat :=
  g.latencyInto id + if g.IsControl id ∧ id ≠ g.entryRoot then 1 else 0

theorem Looping.sum_capOf : ∑ id ∈ Finset.range g.units.size, g.capOf id + 1 = g.allowance := by
  classical
  have hcontrols : (Finset.range g.units.size).filter
      (fun id => g.IsControl id ∧ id ≠ g.entryRoot) =
        g.controlUnits.toFinset.erase g.entryRoot := by
    ext id
    simp only [Finset.mem_filter, Finset.mem_range, Finset.mem_erase, List.mem_toFinset, hg.control]
    exact ⟨fun h => ⟨h.2.2, h.2.1⟩, fun h => ⟨h.2.lt_size, h.2, h.1⟩⟩
  have hroot : g.entryRoot ∈ g.controlUnits.toFinset :=
    List.mem_toFinset.mpr (hg.control.mpr hg.root)
  simp only [capOf, Finset.sum_add_distrib, sum_latencyInto]
  rw [← Finset.card_filter, hcontrols, add_assoc, Finset.card_erase_add_one hroot,
    List.toFinset_card_of_nodup hg.controlNodup, allowance]

omit hg in
theorem Climbs.of_unshared {orders : UnitId → UnitId → Prop} {first : UnitId} {length : Int}
    (horders : ∀ {source user}, orders source user → ∃ other, g.Shares user other)
    (h : Climbs g orders first id length)
    (hunshared : ∀ {user other}, g.Shares user other →
      ¬Relation.ReflTransGen g.WaitsWithin user id) :
    Climbs g (fun _ _ => False) first id length ∧
      Relation.ReflTransGen g.WaitsWithin first id := by
  induction h with
  | start => exact ⟨.start, .refl⟩
  | wait _ hbundle hlocal ih =>
      have hwaits : g.WaitsWithin _ _ := ⟨_, hbundle, hlocal⟩
      obtain ⟨hclimbs, hreaches⟩ := ih fun hshares hbefore =>
        hunshared hshares (hbefore.tail hwaits)
      exact ⟨hclimbs.wait hbundle hlocal, hreaches.tail hwaits⟩
  | turn _ horder _ =>
      obtain ⟨other, hshares⟩ := horders horder
      exact absurd .refl (hunshared hshares)

omit hg in
/-- The pairs that are put in order: those of the earliest slots, but for the loop operation, which
issues last. -/
def Ordered (g : Graph) (branch : UnitId) (slots : UnitId → Int) (source user : UnitId) : Prop :=
  g.Shares source user ∧ user ≠ branch ∧ Issues slots source user

open Classical in
/-- Units that share a function unit start one slot after the entry. -/
noncomputable def sharedFloor (g : Graph) (id : UnitId) : Int :=
  if ∃ other, g.Shares id other then g.entrySlot + 1 else g.floor g.allowance id

omit hg in
theorem sharedFloor_le (g : Graph) (id : UnitId) : g.sharedFloor id ≤ g.entrySlot + 1 := by
  have := g.floor_le g.allowance id
  unfold sharedFloor
  split <;> omega

omit hg in
theorem le_sharedFloor (hid : g.IsControl id) : (g.entrySlot : Int) ≤ g.sharedFloor id := by
  have := floor_of_isControl hid g.allowance
  unfold sharedFloor
  split <;> omega

/-- What shares a function unit is neither the entry nor the exit. -/
theorem Looping.ne_of_shares (h : g.Shares source user) : source ≠ g.entryRoot ∧ source ≠ exit :=
  ⟨h.ne_of_trivial fun hunit => (hg.entryUnit hunit).1,
    h.ne_of_trivial fun hunit => (hg.exitUnit hunit).1⟩

/-- Values that grow along all dependencies at a large interval, and along the pairs in order. -/
theorem Looping.exists_ordered_value (hsum : g.allowance ≤ interval)
    (hslots : g.Fits exit interval slots) :
    ∃ value, Steady g interval (g.Ordered branch slots) g.sharedFloor (g.allowance - 1) value ∧
      value g.entryRoot = g.entrySlot ∧
      ∀ {id}, g.IsControl id → (g.entrySlot : Int) ≤ value id ∧
        value id ≤ g.entrySlot + g.allowance := by
  have hcap := hg.sum_capOf
  have hcaps : g.Caps (g.Ordered branch slots) g.capOf := by
    refine ⟨fun hbundle => ?_, fun {source user} horder => ?_⟩
    · exact (latency_le_latencyInto hbundle).trans (Nat.le_add_right _ _)
    · have hshares := horder.1.symm
      rw [capOf, if_pos ⟨hshares.isControl, (hg.ne_of_shares hshares).1⟩]
      exact Nat.le_add_left _ _
  obtain ⟨key, hkeyWaits, hkeyIssues⟩ := hg.exists_key hslots
  obtain ⟨value, hsteady⟩ := exists_steady hcaps hg.toOfBlock interval
    (fun horder => ⟨horder.1.isControl.lt_size, horder.1.symm.isControl.lt_size⟩)
    (fun node cycle => totalWeight_closed_le hcaps hg.toOfBlock hkeyWaits
      (fun horder => hkeyIssues horder.1.isControl horder.1.symm.isControl horder.2.2)
      fun _ => by omega) g.sharedFloor
  rw [show ∑ id ∈ Finset.range g.units.size, g.capOf id = g.allowance - 1 by omega] at hsteady
  refine ⟨value, hsteady, ?_, fun {id} hid => ?_⟩
  · have hunshared : ¬∃ other, g.Shares g.entryRoot other := fun ⟨other, hshares⟩ =>
      (hg.ne_of_shares hshares).1 rfl
    rw [hsteady.roots hg.root.lt_size hg.first fun horder =>
      hunshared ⟨_, horder.1.symm⟩, sharedFloor, if_neg hunshared, floor_of_isControl hg.root]
  · obtain ⟨first, -, length, hvalue, hle, -⟩ := hsteady.climbs hid.lt_size
    have := g.sharedFloor_le first
    exact ⟨(le_sharedFloor hid).trans (hsteady.above hid.lt_size), by omega⟩

/-- Moves that no shared function unit holds up are no later than in the earliest slots. -/
theorem Steady.move_le {value : UnitId → Int} (hinterval : g.allowance < interval)
    (hslots : g.Fits exit interval slots)
    (hsteady : Steady g interval (g.Ordered branch slots) g.sharedFloor (g.allowance - 1) value)
    (hid : g.IsControl id)
    (hunshared : ∀ {source user}, g.Shares source user →
      ¬Relation.ReflTransGen g.WaitsWithin source id) :
    value id ≤ slots id := by
  obtain ⟨first, hfirst, length, hvalue, hle, hclimbs | ⟨-, hsaved⟩⟩ := hsteady.climbs hid.lt_size
  · obtain ⟨hclimbs, hbefore⟩ := hclimbs.of_unshared (fun horder => ⟨_, horder.1.symm⟩) hunshared
    have hfloor : g.sharedFloor first = g.floor g.allowance first :=
      if_neg fun ⟨_, hshares⟩ => hunshared hshares hbefore
    have := hslots.floor_add_le hg g.allowance hfirst hclimbs (by omega) hid
    omega
  · have := g.sharedFloor_le first
    have := hslots.free hid
    omega

/-- Where the lowest slots that fit at a large interval end in time, there are slots that end in
time as well and keep the units of every shared function unit in their order, within one
interval. -/
theorem Looping.exists_fits_in_order (hmoves : g.MovesUnshared)
    (hinterval : interval = g.allowance + 1) (hmeets : g.MeetsCycles block interval)
    (hslots : g.Fits exit interval slots) (hlast : slots exit ≤ g.entrySlot + criticalPath)
    (hleast : ∀ {slots'}, g.Fits exit interval slots' →
      slots' exit ≤ g.entrySlot + criticalPath → ∀ {id}, g.IsControl id → slots id ≤ slots' id) :
    ∃ slots', g.Fits exit interval slots' ∧ slots' exit ≤ g.entrySlot + criticalPath ∧
      (∀ {id}, g.IsControl id → slots' id ≤ g.entrySlot + criticalPath) ∧
      ∀ {source user}, g.Shares source user → Issues slots source user →
        slots' source < slots' user ∧ slots' user - slots' source < interval := by
  have hsum : g.latencySum ≤ g.allowance := Nat.le_add_right _ _
  have hbranchSlot : slots branch = g.entrySlot + interval := hslots.loop (by omega) hg.loops
  obtain ⟨bundle, hbundle, hwaits⟩ := hg.exists_bundle_branch
  have hbranchWaits := hwaits hslots
  obtain ⟨value, hsteady, hentry, hbounds⟩ := hg.exists_ordered_value (by omega) hslots
  have hbranch := hbounds (hg.loop hg.loops)
  have hexit := hbounds hg.exitControl
  have hfits := hsteady.fits_pinned hg (g.entrySlot + criticalPath) hentry
    (fun hid => (hbounds hid).1) (by omega) (by omega)
    (fun hbundle' => by
      obtain rfl := Option.some.inj (hbundle.symm.trans hbundle')
      omega)
    fun {source} hmove hdepends => by
      obtain ⟨bundle', hbundle'⟩ := dependsOn_iff_bundle?.mp hdepends
      have := hsteady.move_le hg (by omega) hslots (hg.waits hbundle').1
        fun hshares => hmoves hshares hmove
      have := hslots.moves hmove hdepends
      omega
  refine ⟨_, hfits, (if_pos rfl).le, fun {id} hid => ?_, fun {source user} hshares hissues => ?_⟩
  · have := (hbounds hid).2
    unfold pinned
    split
    · exact le_rfl
    · split <;> omega
  · -- The loop operation issues last.
    have hsourceBranch : source ≠ branch := by
      rintro rfl
      have := hg.le_of_least (by omega) hmeets hslots hlast hleast hshares.symm.isControl
        hshares.1.symm (hg.ne_of_shares hshares.symm).2
      unfold Issues at hissues
      omega
    have habove := hsteady.above hshares.isControl.lt_size
    have hsource := hbounds hshares.isControl
    rw [sharedFloor, if_pos ⟨_, hshares⟩] at habove
    simp only [pinned, if_neg (hg.ne_of_shares hshares).2, if_neg hsourceBranch,
      if_neg (hg.ne_of_shares hshares.symm).2]
    split
    · omega
    · next huserBranch =>
      have := hsteady.turns ⟨hshares, huserBranch, hissues⟩
      have := hbounds hshares.symm.isControl
      omega

end

end SlotScheduling.Graph
