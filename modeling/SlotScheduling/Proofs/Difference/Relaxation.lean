import Mathlib.Tactic.Linarith
import SlotScheduling.Proofs.Difference.Walks

/-!
# Relaxation of path lengths

Relaxing an arc never shortens a length.  What one sweep and a whole run keep
follows from what a single relaxation keeps: lengths stay below every
potential, and lengths that are not rounded are weights of walks.  Lengths that
are settled form a potential of their own, and those that rounding cannot have
changed are the least one.
-/

namespace SlotScheduling

/-- Rounding that never crosses an integer up to `limit`, and so keeps it. -/
structure KeepsUpTo (keep : Int → Int) (limit : Int) : Prop where
  le_keep : ∀ m x, -limit ≤ m → m ≤ limit → m ≤ x → m ≤ keep x
  keep_le : ∀ m x, -limit ≤ m → m ≤ limit → x ≤ m → keep x ≤ m

namespace KeepsUpTo

variable {keep : Int → Int} {limit : Int}

theorem le_of_keep_le (hkeep : KeepsUpTo keep limit) {x m : Int}
    (hlow : -limit ≤ m) (hhigh : m < limit) (h : keep x ≤ m) : x ≤ m := by
  by_contra hlt
  have := hkeep.le_keep (m + 1) x (by omega) (by omega) (by omega)
  omega

theorem le_of_le_keep (hkeep : KeepsUpTo keep limit) {x m : Int}
    (hlow : -limit < m) (hhigh : m ≤ limit) (h : m ≤ keep x) : m ≤ x := by
  by_contra hlt
  have := hkeep.keep_le (m - 1) x (by omega) (by omega) (by omega)
  omega

end KeepsUpTo

theorem Arc.mem_sweepOrder {nodes : Nat} {arcs : List Arc} {arc : Arc} :
    arc ∈ sweepOrder nodes arcs ↔ arc ∈ arcs ∧ arc.source < nodes := by
  simp only [sweepOrder, List.mem_flatMap, List.mem_range, List.mem_filter,
    decide_eq_true_eq]
  constructor
  · rintro ⟨node, hlt, hmem, rfl⟩
    exact ⟨hmem, hlt⟩
  · rintro ⟨hmem, hlt⟩
    exact ⟨arc.source, hlt, hmem, rfl⟩

namespace Lengths

/-- Every length that was known is known, and is no shorter. -/
def NoShorter (before after : Lengths) : Prop :=
  ∀ node x, before.at? node = some x → ∃ y, after.at? node = some y ∧ x ≤ y

/-- No known length exceeds the value of its node. -/
def Below (lengths : Lengths) (value : Nat → Int) : Prop :=
  ∀ node x, lengths.at? node = some x → x ≤ value node

theorem NoShorter.refl (lengths : Lengths) : lengths.NoShorter lengths :=
  fun _ x hx => ⟨x, hx, le_rfl⟩

theorem NoShorter.trans {first second third : Lengths}
    (h : first.NoShorter second) (h' : second.NoShorter third) :
    first.NoShorter third := by
  intro node x hx
  obtain ⟨y, hy, hxy⟩ := h node x hx
  obtain ⟨z, hz, hyz⟩ := h' node y hy
  exact ⟨z, hz, hxy.trans hyz⟩

theorem at?_lt {lengths : Lengths} {node : Nat} {x : Int}
    (hx : lengths.at? node = some x) : node < lengths.size := by
  by_contra hge
  simp [at?, Array.getElem?_eq_none (Nat.le_of_not_lt hge)] at hx

theorem at?_set (lengths : Lengths) (node other : Nat) (x : Int) :
    Lengths.at? (lengths.setIfInBounds node (some x)) other =
      if node = other ∧ node < lengths.size then some x else lengths.at? other := by
  simp only [at?, Array.getD_eq_getD_getElem?, Array.getElem?_setIfInBounds]
  by_cases hnode : node = other
  · subst hnode
    by_cases hlt : node < lengths.size <;> simp [hlt]
  · simp [hnode]

@[simp] theorem size_start (nodes : Nat) : Array.size (start nodes) = nodes := by
  simp [start]

theorem at?_start {nodes node : Nat} {x : Int} :
    (start nodes).at? node = some x ↔ node = 0 ∧ 0 < nodes ∧ x = 0 := by
  rw [start, at?_set]
  by_cases hnode : 0 = node
  · subst hnode
    by_cases hpos : 0 < nodes
    · simp [hpos, eq_comm]
    · simp [hpos, at?]
  · simp only [hnode, false_and, if_false, eq_comm (a := node)]
    simp only [at?, Array.getD_eq_getD_getElem?, Array.getElem?_replicate]
    split <;> simp

variable {keep : Int → Int} {arcs : List Arc}

/-! ## One relaxation -/

/-- What relaxing an arc does: nothing, or a longer length at its target. -/
theorem relax_cases (keep : Int → Int) (lengths : Lengths) (arc : Arc) :
    relax keep lengths arc = lengths ∨
      ∃ x, lengths.at? arc.source = some x ∧
        (∀ known, lengths.at? arc.target = some known →
          known < keep (x + arc.weight)) ∧
        relax keep lengths arc =
          lengths.setIfInBounds arc.target (some (keep (x + arc.weight))) := by
  unfold relax improvement?
  cases hsource : lengths.at? arc.source with
  | none => exact Or.inl rfl
  | some x =>
      cases htarget : lengths.at? arc.target with
      | none => exact Or.inr ⟨x, rfl, by simp, rfl⟩
      | some known =>
          by_cases hless : known < keep (x + arc.weight)
          · exact Or.inr ⟨x, rfl, by simpa using hless, by simp [hless]⟩
          · exact Or.inl (by simp [hless])

@[simp] theorem size_relax (lengths : Lengths) (arc : Arc) :
    Array.size (relax keep lengths arc) = Array.size lengths := by
  rcases relax_cases keep lengths arc with h | ⟨x, _, _, h⟩ <;> simp [h]

theorem noShorter_relax (keep : Int → Int) (lengths : Lengths) (arc : Arc) :
    lengths.NoShorter (relax keep lengths arc) := by
  rcases relax_cases keep lengths arc with h | ⟨x, hsource, hless, h⟩
  · rw [h]
    exact NoShorter.refl lengths
  · intro node y hy
    rw [h, at?_set]
    by_cases hnode : arc.target = node ∧ arc.target < lengths.size
    · rw [if_pos hnode]
      exact ⟨_, rfl, (hless y (hnode.1 ▸ hy)).le⟩
    · rw [if_neg hnode]
      exact ⟨y, hy, le_rfl⟩

theorem relax_target (keep : Int → Int) {lengths : Lengths} {arc : Arc} {x : Int}
    (hsource : lengths.at? arc.source = some x) (hlt : arc.target < lengths.size) :
    ∃ y, (relax keep lengths arc).at? arc.target = some y ∧
      keep (x + arc.weight) ≤ y := by
  unfold relax improvement?
  rw [hsource]
  cases htarget : lengths.at? arc.target with
  | none =>
      simp only
      rw [at?_set, if_pos ⟨rfl, hlt⟩]
      exact ⟨_, rfl, le_rfl⟩
  | some known =>
      by_cases hless : known < keep (x + arc.weight)
      · simp only [if_pos hless]
        rw [at?_set, if_pos ⟨rfl, hlt⟩]
        exact ⟨_, rfl, le_rfl⟩
      · simp only [if_neg hless]
        exact ⟨known, htarget, by omega⟩

theorem relax_below {limit : Int} (hkeep : KeepsUpTo keep limit)
    {value : Nat → Int} {lengths : Lengths} (hbelow : lengths.Below value) {arc : Arc}
    (harc : value arc.source + arc.weight ≤ value arc.target)
    (hlow : -limit ≤ value arc.target) (hhigh : value arc.target ≤ limit) :
    (relax keep lengths arc).Below value := by
  rcases relax_cases keep lengths arc with h | ⟨x, hsource, _, h⟩
  · rwa [h]
  · intro node y hy
    rw [h, at?_set] at hy
    by_cases hnode : arc.target = node ∧ arc.target < lengths.size
    · rw [if_pos hnode, Option.some.injEq] at hy
      have hx := hbelow arc.source x hsource
      rw [← hy, ← hnode.1]
      exact hkeep.keep_le _ _ hlow hhigh (by omega)
    · rw [if_neg hnode] at hy
      exact hbelow node y hy

/-! ## Sweeps and runs -/

/-- What every relaxation of an arc keeps, a sweep keeps. -/
theorem sweep_induction {P : Lengths → Prop}
    (hrelax : ∀ lengths arc, arc ∈ arcs → P lengths → P (relax keep lengths arc))
    {lengths : Lengths} (h : P lengths) : P (sweep keep arcs lengths) :=
  List.foldlRecOn arcs (relax keep) h fun lengths h arc hmem => hrelax lengths arc hmem h

theorem settle_induction {P : Lengths → Prop}
    (hrelax : ∀ lengths arc, arc ∈ arcs → P lengths → P (relax keep lengths arc))
    (rounds : Nat) {lengths : Lengths} (h : P lengths) :
    P (settle keep arcs rounds lengths) := by
  induction rounds generalizing lengths with
  | zero => exact h
  | succ rounds ih =>
      unfold settle
      split
      · exact h
      · exact ih (sweep_induction hrelax h)

theorem noShorter_foldl (keep : Int → Int) (more : List Arc) (lengths : Lengths) :
    lengths.NoShorter (more.foldl (relax keep) lengths) := by
  induction more generalizing lengths with
  | nil => exact NoShorter.refl lengths
  | cons arc rest ih => exact (noShorter_relax keep lengths arc).trans (ih _)

theorem noShorter_settle (rounds : Nat) (lengths : Lengths) :
    lengths.NoShorter (settle keep arcs rounds lengths) :=
  settle_induction (P := lengths.NoShorter)
    (fun _ arc _ h => h.trans (noShorter_relax keep _ arc)) rounds (NoShorter.refl lengths)

theorem size_settle (rounds : Nat) (lengths : Lengths) :
    Array.size (settle keep arcs rounds lengths) = Array.size lengths :=
  settle_induction (P := fun lengths' => Array.size lengths' = Array.size lengths)
    (fun _ arc _ h => (size_relax _ arc).trans h) rounds rfl

theorem sweep_below {limit : Int} (hkeep : KeepsUpTo keep limit)
    {value : Nat → Int} (hvalue : Arc.IsPotential arcs value)
    (hlow : ∀ node, -limit ≤ value node) (hhigh : ∀ node, value node ≤ limit)
    {lengths : Lengths} (hbelow : lengths.Below value) :
    (sweep keep arcs lengths).Below value :=
  sweep_induction (P := fun lengths => lengths.Below value)
    (fun _ arc hmem h =>
      relax_below hkeep h (hvalue arc hmem) (hlow arc.target) (hhigh arc.target))
    hbelow

theorem isSettled_iff {lengths : Lengths} :
    lengths.isSettled keep arcs = true ↔
      ∀ arc ∈ arcs, ∀ x, lengths.at? arc.source = some x →
        ∃ y, lengths.at? arc.target = some y ∧ keep (x + arc.weight) ≤ y := by
  unfold isSettled
  rw [List.all_eq_true]
  refine forall₂_congr fun arc _ => ?_
  unfold improvement?
  cases hsource : lengths.at? arc.source with
  | none => simp
  | some x =>
      cases htarget : lengths.at? arc.target with
      | none => simp
      | some known =>
          simp

theorem settle_eq (keep : Int → Int) (arcs : List Arc) (rounds : Nat)
    (lengths : Lengths) :
    ∃ sweeps, settle keep arcs rounds lengths = (sweep keep arcs)^[sweeps] lengths ∧
      ((settle keep arcs rounds lengths).isSettled keep arcs = true ∨ sweeps = rounds) := by
  induction rounds generalizing lengths with
  | zero => exact ⟨0, rfl, Or.inr rfl⟩
  | succ rounds ih =>
      unfold settle
      split
      next hsettled => exact ⟨0, rfl, Or.inl hsettled⟩
      next =>
        obtain ⟨sweeps, heq, hend⟩ := ih (sweep keep arcs lengths)
        exact ⟨sweeps + 1, heq, hend.imp_right (congrArg (· + 1))⟩

/-! ## Settled lengths -/

/-- The lengths are so small that rounding has changed none of them. -/
def Small (limit : Int) (lengths : Lengths) : Prop :=
  ∀ node x, lengths.at? node = some x → -limit < x ∧ x < limit

/-- The property holds of every node that has its final length already. -/
def HoldsWhereFinal (lengths : Lengths) (P : Nat → Prop) (final : Lengths) : Prop :=
  ∀ node x, lengths.at? node = some x → final.at? node = some x → P node

section Final

variable {limit : Int} {P : Nat → Prop} {final : Lengths}
  (hkeep : KeepsUpTo keep limit)
  (hsettled : final.isSettled keep arcs = true) (hsmall : final.Small limit)

include hkeep hsettled hsmall

/-- Settled lengths grow along every arc by at least its weight. -/
theorem le_of_isSettled {arc : Arc} (hmem : arc ∈ arcs) {x : Int}
    (hx : final.at? arc.source = some x) :
    ∃ y, final.at? arc.target = some y ∧ x + arc.weight ≤ y := by
  obtain ⟨y, hy, hle⟩ := isSettled_iff.mp hsettled arc hmem x hx
  obtain ⟨hlow, hhigh⟩ := hsmall arc.target y hy
  exact ⟨y, hy, hkeep.le_of_keep_le hlow.le hhigh hle⟩

variable
  (htight : ∀ arc ∈ arcs, ∀ x, P arc.source → final.at? arc.source = some x →
    final.at? arc.target = some (x + arc.weight) → P arc.target)

include htight

/-- A node gets its final length from a node that has its own already. -/
theorem holdsWhereFinal_relax {lengths : Lengths} {arc : Arc} (hmem : arc ∈ arcs)
    (hnext : (relax keep lengths arc).NoShorter final)
    (hholds : lengths.HoldsWhereFinal P final) :
    (relax keep lengths arc).HoldsWhereFinal P final := by
  intro node z hz hfinal
  rcases relax_cases keep lengths arc with h | ⟨x, hsource, _, h⟩
  · exact hholds node z (h ▸ hz) hfinal
  · rw [h, at?_set] at hz
    by_cases hnode : arc.target = node ∧ arc.target < lengths.size
    · rw [if_pos hnode, Option.some.injEq] at hz
      obtain ⟨rfl, _⟩ := hnode
      obtain ⟨y, hy, hxy⟩ :=
        (noShorter_relax keep lengths arc).trans hnext arc.source x hsource
      obtain ⟨z', hz', hupper⟩ := le_of_isSettled hkeep hsettled hsmall hmem hy
      have hzz : z' = z := Option.some.inj (hz'.symm.trans hfinal)
      obtain ⟨hlow, hhigh⟩ := hsmall arc.target z hfinal
      have hlower : z ≤ x + arc.weight := hkeep.le_of_le_keep hlow hhigh.le hz.ge
      have hyx : y = x := by omega
      have hexact : z = x + arc.weight := by omega
      rw [hyx] at hy
      exact htight arc hmem x (hholds arc.source x hsource hy) hy (hexact ▸ hfinal)
    · rw [if_neg hnode] at hz
      exact hholds node z hz hfinal

theorem holdsWhereFinal_foldl {more : List Arc} (hsub : more ⊆ arcs)
    {lengths : Lengths} (hnext : (more.foldl (relax keep) lengths).NoShorter final)
    (hholds : lengths.HoldsWhereFinal P final) :
    (more.foldl (relax keep) lengths).HoldsWhereFinal P final := by
  induction more generalizing lengths with
  | nil => exact hholds
  | cons arc rest ih =>
      have hrest : rest ⊆ arcs := fun other h => hsub (List.mem_cons_of_mem arc h)
      have hstep : (relax keep lengths arc).NoShorter final :=
        (noShorter_foldl keep rest _).trans hnext
      exact ih hrest hnext
        (holdsWhereFinal_relax hkeep hsettled hsmall htight
          (hsub List.mem_cons_self) hstep hholds)

theorem holdsWhereFinal_settle {rounds : Nat} {lengths : Lengths}
    (hfinal : settle keep arcs rounds lengths = final)
    (hholds : lengths.HoldsWhereFinal P final) : final.HoldsWhereFinal P final := by
  induction rounds generalizing lengths with
  | zero => exact hfinal ▸ hholds
  | succ rounds ih =>
      unfold settle at hfinal
      split at hfinal
      next => exact hfinal ▸ hholds
      next =>
        have hnext : (sweep keep arcs lengths).NoShorter final :=
          hfinal ▸ noShorter_settle rounds (sweep keep arcs lengths)
        exact ih hfinal
          (holdsWhereFinal_foldl hkeep hsettled hsmall htight
            (List.Subset.refl arcs) hnext hholds)

/-- Whatever spreads along the arcs that are tight in the end, and holds of the
first node if that is not improved, holds of every node that is reached. -/
theorem reached_of_tight {nodes rounds : Nat}
    (hfinal : settle keep arcs rounds (start nodes) = final)
    (hfirst : final.at? 0 = some 0 → P 0) {node : Nat} {x : Int}
    (hx : final.at? node = some x) : P node := by
  refine holdsWhereFinal_settle hkeep hsettled hsmall htight hfinal ?_ node x hx hx
  intro other y hy hlast
  obtain ⟨rfl, _, rfl⟩ := at?_start.mp hy
  exact hfirst hlast

end Final

section Solution

variable {limit : Int} {nodes rounds : Nat} {final : Lengths}
  (hkeep : KeepsUpTo keep limit)
  (hsettled : final.isSettled keep arcs = true) (hsmall : final.Small limit)
  (hfinal : settle keep arcs rounds (start nodes) = final)

include hkeep hsettled hsmall hfinal

/-- Small settled lengths start at zero: nothing improves the first node. -/
theorem at?_zero_of_isSettled (hnodes : 0 < nodes) : final.at? 0 = some 0 := by
  obtain ⟨x, hx, _⟩ : ∃ x, final.at? 0 = some x ∧ 0 ≤ x :=
    hfinal ▸ noShorter_settle rounds (start nodes) 0 0
      (at?_start.mpr ⟨rfl, hnodes, rfl⟩)
  exact reached_of_tight (P := fun _ => final.at? 0 = some 0) hkeep hsettled hsmall
    (fun _ _ _ h _ _ => h) hfinal (fun h => h) hx

/-- Small settled lengths are below every potential that is not negative at the
first node. -/
theorem below_of_isSettled {value : Nat → Int}
    (hvalue : Arc.IsPotential arcs value) (hzero : 0 ≤ value 0) :
    final.Below value := by
  intro node x hx
  refine reached_of_tight (P := fun node => ∀ x, final.at? node = some x → x ≤ value node)
    hkeep hsettled hsmall ?_ hfinal ?_ hx x hx
  · intro arc hmem x hsource hx htarget y hy
    have hyx : y = x + arc.weight := Option.some.inj (hy.symm.trans htarget)
    have hle := hsource x hx
    have harc := hvalue arc hmem
    omega
  · intro hfirst y hy
    have : y = 0 := Option.some.inj (hy.symm.trans hfirst)
    omega

end Solution

end Lengths

end SlotScheduling
