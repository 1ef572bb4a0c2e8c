import Mathlib.Data.Finset.Card
import Mathlib.Data.Finset.Range
import SlotScheduling.Proofs.Graph.Dangling
import SlotScheduling.Proofs.Graph.Tidy

/-!
# Units that roots need

Once it is spread from all roots, a unit does not dangle if and only if some root depends on it
within its block, directly or through other units.  The order of the roots and the flags from which
it all began do not matter.
-/

namespace SlotScheduling.Graph

variable {g h h' : Graph} {id source root : UnitId} {block : BlockId}
  {roots rest work : List UnitId}

/-- The second unit depends on the first one, which is of the same block. -/
def Supplies (g : Graph) (source user : UnitId) : Prop :=
  ∃ unit producer, g.units[user]? = some unit ∧ source ∈ unit.deps.keys ∧
    g.units[source]? = some producer ∧ producer.block = unit.block

/-- The unit is a root, or a root depends on it within its block. -/
inductive NeededBy (g : Graph) (roots : List UnitId) : UnitId → Prop
  | root {id : UnitId} : id ∈ roots → NeededBy g roots id
  | source {id source : UnitId} : NeededBy g roots id → g.Supplies source id →
      NeededBy g roots source

theorem Supplies.of_outline_eq (hsupplies : h.Supplies source id) (hsame : h.outline = g.outline) :
    g.Supplies source id := by
  obtain ⟨unit, producer, hunit, hsource, hproducer, hblock⟩ := hsupplies
  obtain ⟨unit', hunit', houtline⟩ := exists_of_outline_eq hsame hunit
  obtain ⟨producer', hproducer', houtline'⟩ := exists_of_outline_eq hsame hproducer
  have hsame := congrArg ScheduleUnit.block houtline
  have hsame' := congrArg ScheduleUnit.block houtline'
  exact ⟨unit', producer', hunit', ScheduleUnit.keys_eq_of_outline_eq houtline ▸ hsource,
    hproducer', hsame'.symm.trans (hblock.trans hsame)⟩

theorem NeededBy.of_outline_eq (hneeded : h.NeededBy roots id) (hsame : h.outline = g.outline) :
    g.NeededBy roots id := by
  induction hneeded with
  | root hroot => exact .root hroot
  | source _ hsupplies ih => exact .source ih (hsupplies.of_outline_eq hsame)

theorem NeededBy.of_frame_eq (hneeded : h.NeededBy roots id) (hframe : h.frame = g.frame) :
    g.NeededBy roots id :=
  hneeded.of_outline_eq (outline_eq_of_skeleton_eq (skeleton_eq_of_frame_eq hframe))

/-- The units that dangle, among all places of the graph. -/
def danglingIds (g : Graph) : Finset UnitId :=
  (Finset.range g.units.size).filter fun id => ¬g.IsNeeded id

theorem isNeeded_setDangling {other : UnitId} (hset : h.setDangling id false = .ok h') :
    h'.IsNeeded other ↔ id = other ∨ h.IsNeeded other := by
  refine ⟨fun hneeded => ?_, fun hcases => ?_⟩
  · rw [IsNeeded, getElem?_changeUnit hset] at hneeded
    by_cases heq : id = other
    · exact Or.inl heq
    · rw [if_neg heq] at hneeded
      exact Or.inr hneeded
  · rcases hcases with rfl | hneeded
    · exact (undangles_setDangling hset).2
    · exact (undangles_setDangling hset).1.needed hneeded

theorem card_danglingIds_setDangling (hset : h.setDangling id false = .ok h')
    (hdangling : ¬h.IsNeeded id) : h'.danglingIds.card < h.danglingIds.card := by
  obtain ⟨hlt, hchanged⟩ := changeUnit_eq_ok.mp hset
  have hsize : h'.units.size = h.units.size := by simp [hchanged]
  refine Finset.card_lt_card ⟨fun other hother => ?_, fun hsubset => ?_⟩
  · simp only [danglingIds, Finset.mem_filter, hsize, isNeeded_setDangling hset, not_or] at hother ⊢
    exact ⟨hother.1, hother.2.2⟩
  · have hmem : id ∈ h.danglingIds := by simpa [danglingIds] using ⟨hlt, hdangling⟩
    simpa [danglingIds, isNeeded_setDangling hset] using hsubset hmem

/-! ## Spreading from a work list -/

/-- On the way from the first graph, it has been spread to all sources of the units of the second
one that do not dangle, apart from those of the work list and from later roots. -/
structure Spreading (g : Graph) (roots : List UnitId) (block : BlockId) (rest : List UnitId)
    (h : Graph) (work : List UnitId) : Prop where
  frame : h.frame = g.frame
  sound : ∀ {id}, h.IsNeeded id → g.NeededBy roots id
  listed : ∀ id ∈ work, h.IsNeeded id ∧ ∀ {unit}, h.units[id]? = some unit → unit.block = block
  closed : ∀ {id}, h.IsNeeded id → id ∈ work ∨ id ∈ rest ∨ ∀ {source}, g.Supplies source id →
    h.IsNeeded source

/-- One more unit does not dangle. -/
theorem Spreading.setDangling (hspread : Spreading g roots block rest h work)
    (hid : g.NeededBy roots id)
    (hblock : ∀ {unit}, h.units[id]? = some unit → unit.block = block)
    (hset : h.setDangling id false = .ok h') : Spreading g roots block rest h' (id :: work) := by
  have hstep := (undangles_setDangling hset).1
  have hblocks : ∀ {other : UnitId} {unit : ScheduleUnit}, h'.units[other]? = some unit →
      ∃ old, h.units[other]? = some old ∧ old.block = unit.block := by
    intro other unit hunit
    obtain ⟨old, hold, hagree⟩ := exists_of_frame_eq hstep.frame hunit
    exact ⟨old, hold, hagree.block.symm⟩
  refine ⟨hstep.frame.trans hspread.frame, fun {other} hneeded => ?_, fun other hother => ?_,
    fun {other} hneeded => ?_⟩
  · rcases (isNeeded_setDangling hset).mp hneeded with rfl | hneeded
    · exact hid
    · exact hspread.sound hneeded
  · rcases List.mem_cons.mp hother with rfl | hother
    · refine ⟨(undangles_setDangling hset).2, fun hunit => ?_⟩
      obtain ⟨old, hold, hsame⟩ := hblocks hunit
      exact hsame ▸ hblock hold
    · refine ⟨hstep.needed (hspread.listed other hother).1, fun hunit => ?_⟩
      obtain ⟨old, hold, hsame⟩ := hblocks hunit
      exact hsame ▸ (hspread.listed other hother).2 hold
  · rcases (isNeeded_setDangling hset).mp hneeded with rfl | hneeded
    · exact Or.inl List.mem_cons_self
    · rcases hspread.closed hneeded with hwork | hrest | hclosed
      · exact Or.inl (List.mem_cons_of_mem _ hwork)
      · exact Or.inr (Or.inl hrest)
      · exact Or.inr (Or.inr fun hsupplies => hstep.needed (hclosed hsupplies))

/-- The first unit of the work list is on its turn. -/
theorem Spreading.take (hspread : Spreading g roots block rest h (id :: work)) :
    Spreading g roots block (id :: rest) h work := by
  refine { hspread with
    listed := fun other hother => hspread.listed other (List.mem_cons_of_mem _ hother)
    closed := fun hneeded => ?_ }
  rcases hspread.closed hneeded with hwork | hrest | hclosed
  · rcases List.mem_cons.mp hwork with rfl | hwork
    · exact Or.inr (Or.inl List.mem_cons_self)
    · exact Or.inl hwork
  · exact Or.inr (Or.inl (List.mem_cons_of_mem _ hrest))
  · exact Or.inr (Or.inr hclosed)

/-- A unit is done once none of its sources dangles. -/
theorem Spreading.leave (hspread : Spreading g roots block (id :: rest) h work)
    (hsources : ∀ {source}, g.Supplies source id → h.IsNeeded source) :
    Spreading g roots block rest h work := by
  refine { hspread with closed := fun hneeded => ?_ }
  rcases hspread.closed hneeded with hwork | hrest | hclosed
  · exact Or.inl hwork
  · rcases List.mem_cons.mp hrest with rfl | hrest
    · exact Or.inr (Or.inr hsources)
    · exact Or.inr (Or.inl hrest)
  · exact Or.inr (Or.inr hclosed)

/-- The sources of one unit join the work list, if they did dangle. -/
theorem Spreading.exists_undangleSources {unit : ScheduleUnit} {sources : List UnitId}
    (hg : g.WellFormed) (hspread : Spreading g roots block (id :: rest) h work)
    (hid : g.NeededBy roots id) (hunit : g.units[id]? = some unit) (hblock : unit.block = block)
    (hsources : ∀ source ∈ sources, source ∈ unit.deps.keys) :
    ∃ h' work', undangleSources block h work sources = .ok (h', work') ∧
      Spreading g roots block (id :: rest) h' work' ∧
      h'.danglingIds.card + work'.length ≤ h.danglingIds.card + work.length := by
  suffices hloop : ∃ last, undangleSources block h work sources = .ok last ∧
      Spreading g roots block (id :: rest) last.1 last.2 ∧
        last.1.danglingIds.card + last.2.length ≤ h.danglingIds.card + work.length by
    obtain ⟨⟨h', work'⟩, hrun, hkept⟩ := hloop
    exact ⟨h', work', hrun, hkept⟩
  refine Checked.exists_foldlM (fun source hsource ⟨now, todo⟩ ⟨hnow, hcard⟩ => ?_)
    ⟨hspread, Nat.le_refl _⟩
  dsimp only at hnow hcard ⊢
  obtain ⟨dep, hdep, rfl⟩ := List.mem_map.mp (hsources source hsource)
  obtain ⟨producer, hproducer⟩ := hg.exists_source hunit hdep
  obtain ⟨old, hold, hagree⟩ := exists_of_frame_eq hnow.frame.symm hproducer
  rw [unit_eq_ok.mpr hold, Checked.ok_bind]
  split
  next hdangles =>
    obtain ⟨hflag, hsame⟩ := (Bool.and_eq_true _ _).mp hdangles
    rw [decide_eq_true_eq] at hsame
    obtain ⟨next, hset⟩ : ∃ next, now.setDangling dep.1 false = .ok next :=
      ⟨_, changeUnit_eq_ok.mpr ⟨lt_size_of_getElem? hold, rfl⟩⟩
    rw [hset, Checked.ok_bind]
    have hdangling : ¬now.IsNeeded dep.1 := by simp [IsNeeded, hold, hflag]
    have hsupplies : g.Supplies dep.1 id := ⟨unit, producer, hunit, hsources _ hsource, hproducer,
      hagree.block.trans (hsame.trans hblock.symm)⟩
    refine ⟨_, rfl, hnow.setDangling (.source hid hsupplies) (fun hunit' => ?_) hset, ?_⟩
    · exact Option.some.inj (hold.symm.trans hunit') ▸ hsame
    · have hless := card_danglingIds_setDangling hset hdangling
      simp only [List.length_cons] at hcard ⊢
      omega
  next => exact ⟨_, rfl, hnow, hcard⟩

/-- Each round takes one unit off the work list, and a unit that joins it does not dangle any
more. -/
theorem Spreading.exists_undangleFrom {rounds : Nat} (hg : g.WellFormed)
    (hspread : Spreading g roots block rest h work)
    (hrounds : h.danglingIds.card + work.length ≤ rounds) :
    ∃ h', undangleFrom block rounds h work = .ok h' ∧ Spreading g roots block rest h' [] := by
  induction rounds generalizing h work with
  | zero =>
      obtain rfl := List.eq_nil_of_length_eq_zero (by omega : work.length = 0)
      exact ⟨h, rfl, hspread⟩
  | succ rounds ih =>
      cases work with
      | nil => exact ⟨h, rfl, hspread⟩
      | cons id work =>
          obtain ⟨⟨unit, hunit, hneeded⟩, hblock⟩ := hspread.listed id List.mem_cons_self
          obtain ⟨unit', hunit', hagree⟩ := exists_of_frame_eq hspread.frame hunit
          have hsame : unit'.block = block := hagree.block.symm.trans (hblock hunit)
          have hkeys : ∀ source ∈ unit.deps.keys, source ∈ unit'.deps.keys :=
            fun _ hsource => hagree.deps ▸ hsource
          obtain ⟨next, todo, hsources, hnext, hcard⟩ := hspread.take.exists_undangleSources hg
            (hspread.sound ⟨unit, hunit, hneeded⟩) hunit' hsame hkeys
          have hdone : Spreading g roots block rest next todo := by
            refine hnext.leave fun {source} hsupplies => ?_
            obtain ⟨user, producer, huser, hsource, hproducer, hwithin⟩ := hsupplies
            obtain rfl := Option.some.inj (huser.symm.trans hunit')
            refine (undangleSources_sound hsources).2 source (hagree.deps ▸ hsource)
              fun {old} hold => ?_
            obtain ⟨new, hnew, hagree'⟩ := exists_of_frame_eq hspread.frame hold
            obtain rfl := Option.some.inj (hproducer.symm.trans hnew)
            exact hagree'.block.trans (hwithin.trans hsame)
          simp only [List.length_cons] at hrounds
          obtain ⟨last, hlast, hend⟩ := ih hdone (by omega)
          refine ⟨last, ?_, hend⟩
          rw [undangleFrom, unit_eq_ok.mpr hunit, Checked.ok_bind, hsources, Checked.ok_bind]
          exact hlast

/-! ## Spreading from all roots -/

theorem Spreading.exists_undangle (hg : g.WellFormed)
    (hspread : Spreading g roots block (root :: rest) h []) (hroot : root ∈ roots)
    (hlt : root < g.units.size) :
    ∃ h', h.undangle root = .ok h' ∧ h'.IsNeeded root ∧
      ∃ block', Spreading g roots block' rest h' [] := by
  obtain ⟨unit, hunit, _⟩ :=
    exists_of_frame_eq hspread.frame.symm (Array.getElem?_eq_getElem hlt)
  obtain ⟨marked, hset⟩ : ∃ marked, h.setDangling root false = .ok marked :=
    ⟨_, changeUnit_eq_ok.mpr ⟨lt_size_of_getElem? hunit, rfl⟩⟩
  have hmarked : Spreading g roots unit.block rest marked [root] := by
    have hempty : Spreading g roots unit.block (root :: rest) h [] :=
      { hspread with listed := fun _ hmem => absurd hmem List.not_mem_nil }
    have hspread' := hempty.setDangling (.root hroot)
      (fun hunit' => congrArg ScheduleUnit.block (Option.some.inj (hunit'.symm.trans hunit))) hset
    refine { hspread' with closed := fun hneeded => ?_ }
    rcases hspread'.closed hneeded with hwork | hrest | hclosed
    · exact Or.inl hwork
    · rcases List.mem_cons.mp hrest with rfl | hrest
      · exact Or.inl List.mem_cons_self
      · exact Or.inr (Or.inl hrest)
    · exact Or.inr (Or.inr hclosed)
  have hrounds : marked.danglingIds.card + 1 ≤ marked.units.size + 1 := by
    have hcard := Finset.card_filter_le (Finset.range marked.units.size) (¬marked.IsNeeded ·)
    rw [Finset.card_range] at hcard
    exact Nat.succ_le_succ hcard
  obtain ⟨h', hrun, hend⟩ := hmarked.exists_undangleFrom hg hrounds
  have hundangle : h.undangle root = .ok h' := by
    rw [undangle, unit_eq_ok.mpr hunit, Checked.ok_bind, hset, Checked.ok_bind, hrun]
  have hneeded := (undangles_undangleFrom hrun).needed (undangles_setDangling hset).2
  exact ⟨h', hundangle, hneeded, _, hend⟩

/-- It spreads from the roots to all that they need, if no other unit was needed before. -/
theorem exists_undangleAll (hg : g.WellFormed) (hroots : ∀ root ∈ roots, root < g.units.size)
    (hneeded : ∀ {id}, g.IsNeeded id → id ∈ roots) :
    ∃ h, roots.foldlM undangle g = .ok h ∧ ∀ {id}, h.IsNeeded id ↔ g.NeededBy roots id := by
  have hall : ∀ (todo : List UnitId) {block : BlockId} {h : Graph}, (∀ root ∈ todo, root ∈ roots) →
      Spreading g roots block todo h [] →
      ∃ last, todo.foldlM undangle h = .ok last ∧ (∀ {id}, h.IsNeeded id → last.IsNeeded id) ∧
        (∀ root ∈ todo, last.IsNeeded root) ∧ ∃ block', Spreading g roots block' [] last [] := by
    intro todo
    induction todo with
    | nil =>
        intro block h _ hspread
        exact ⟨h, rfl, fun hid => hid, fun _ hmem => absurd hmem List.not_mem_nil, block, hspread⟩
    | cons root todo ih =>
        intro block h htodo hspread
        have hroot := htodo root List.mem_cons_self
        obtain ⟨next, hnext, hdone, block', hrest⟩ :=
          hspread.exists_undangle hg hroot (hroots root hroot)
        obtain ⟨last, hlast, hkept, hroots', hend⟩ :=
          ih (fun other hother => htodo other (List.mem_cons_of_mem _ hother)) hrest
        refine ⟨last, by rw [List.foldlM_cons, hnext, Checked.ok_bind, hlast],
          fun hid => hkept ((undangle_sound hnext).1.needed hid), fun other hother => ?_, hend⟩
        rcases List.mem_cons.mp hother with rfl | hother
        · exact hkept hdone
        · exact hroots' other hother
  have hstart : Spreading g roots g.entryBlock roots g [] :=
    ⟨rfl, fun hid => .root (hneeded hid), fun _ hmem => absurd hmem List.not_mem_nil,
      fun hid => Or.inr (Or.inl (hneeded hid))⟩
  obtain ⟨last, hlast, _, hroots', block', hend⟩ := hall roots (fun _ hroot => hroot) hstart
  refine ⟨last, hlast, hend.sound, fun hid => ?_⟩
  induction hid with
  | root hroot => exact hroots' _ hroot
  | source _ hsupplies ih =>
      rcases hend.closed ih with hwork | hrest | hclosed
      · exact absurd hwork List.not_mem_nil
      · exact absurd hrest List.not_mem_nil
      · exact hclosed hsupplies

end SlotScheduling.Graph
