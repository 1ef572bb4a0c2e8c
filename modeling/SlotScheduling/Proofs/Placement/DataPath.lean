import SlotScheduling.Proofs.Graph.Dangling
import SlotScheduling.Proofs.Placement.ControlPath
import SlotScheduling.Proofs.Placement.DataSystem

/-!
# The placed data path

Around a control path whose slots are known, every data-path unit is placed.  The
units that do not dangle, among them all that are frozen, respect their
dependencies and their uses; the others go to the last slot of their block.  In
the graph of a single block a unit that a control unit needs does not dangle.
-/

namespace SlotScheduling.DataPath

open ConstraintSystem SlotScheduling.Graph

variable {g g' : Graph} {block : BlockId} {entrySlot lowest : Nat} {id : UnitId}
  {options : SchedulingOptions} {now last : Journaled Graph} {result : PUnit}

/-- Every control unit has a slot that is a word and not below a bound. -/
def HasControlPath (lowest : Nat) (g : Graph) : Prop :=
  ∀ id, g.IsControl id → ∃ slot, g.slot? id = some slot ∧ lowest ≤ slot ∧ slot < Word.count

/-- Every frozen data-path unit is at a fixed distance, no longer than a slot, from a control
unit that is not the exit. -/
def Braced (g : Graph) : Prop :=
  ∀ {id}, g.IsData id → g.IsFrozen id → ∃ anchor bundle distance, g.IsControl anchor ∧
    g.exitRoot ≠ some anchor ∧
    (g.bundle? id anchor = some bundle ∨ g.bundle? anchor id = some bundle) ∧
    bundle.edge = .fixedTiming distance ∧ distance < Word.count

theorem HasControlPath.of_frame_eq (h : HasControlPath lowest g) (hframe : g'.frame = g.frame)
    (hslots : ∀ {id}, g.IsControl id → g'.slot? id = g.slot? id) : HasControlPath lowest g' := by
  intro id hid
  have hcontrol := (isControl_iff_of_frame_eq hframe).mp hid
  rw [hslots hcontrol]
  exact h id hcontrol

theorem Braced.of_frame_eq (h : Braced g) (hframe : g'.frame = g.frame) : Braced g' := by
  intro id hdata hfrozen
  obtain ⟨anchor, bundle, distance, hanchor, hexit, hbundle, hedge⟩ :=
    h ((isData_iff_of_frame_eq hframe).mp hdata) ((isFrozen_of_frame_eq hframe).mp hfrozen)
  rw [← bundle?_of_frame_eq hframe] at hbundle
  have hroot : g'.exitRoot = g.exitRoot :=
    eq_of_skeleton_eq (·.exitRoot) (skeleton_eq_of_frame_eq hframe) fun _ => rfl
  exact ⟨anchor, bundle, distance, (isControl_iff_of_frame_eq hframe).mpr hanchor, hroot ▸ hexit,
    hbundle, hedge⟩

/-! ## Preparation -/

theorem resetData_sound (hg : g.Listed) (h : g.resetData = .ok g') :
    g'.frame = g.frame ∧ (∀ {id}, g.IsControl id → g'.slot? id = g.slot? id) ∧
      ∀ {id}, g.IsData id → g'.slot? id = none := by
  refine ⟨frame_changeUnits h fun _ => rfl, fun {id} hid => ?_, fun {id} hid => ?_⟩
  · have hnot : id ∉ g.dataUnits := fun hmem => hid.not_isData (hg.data.mp hmem)
    rw [slot?, getElem?_changeUnits_of_not_mem hnot h, slot?]
  · rw [slot?, getElem?_changeUnits_of_mem (hg.data.mpr hid) h fun _ => rfl]
    cases g.units[id]? <;> rfl

theorem placeDangling_cases {placed : Bool} (h : placeDangling g id = .ok (g', placed)) :
    ∃ unit, g.units[id]? = some unit ∧
      ((unit.fixedTiming = true ∧ g.setDangling id false = .ok g') ∨
        (unit.fixedTiming = false ∧ unit.dangling = false ∧ g' = g) ∨
        unit.fixedTiming = false ∧ unit.dangling = true ∧
          ∃ slot, g.endSlot unit.block = .ok (some slot) ∧
            g.changeUnit id (·.place slot) = .ok g') := by
  obtain ⟨unit, hunit, h⟩ := Checked.bind_eq_ok.mp h
  refine ⟨unit, unit_eq_ok.mp hunit, ?_⟩
  cases hfixed : unit.fixedTiming with
  | true =>
      simp only [hfixed, if_true, Bool.not_true, Bool.and_false, Bool.false_eq_true,
        if_false] at h
      obtain ⟨changed, hchanged, h⟩ := Checked.bind_eq_ok.mp h
      cases h
      exact Or.inl ⟨rfl, hchanged⟩
  | false =>
      simp only [hfixed, Bool.not_false, Bool.and_true, Bool.false_eq_true, if_false,
        pure_bind] at h
      cases hdangling : unit.dangling with
      | true =>
          rw [hdangling, if_pos rfl] at h
          obtain ⟨slot, hslot, h⟩ := Checked.bind_eq_ok.mp h
          obtain ⟨changed, hchanged, h⟩ := Checked.bind_eq_ok.mp h
          cases h
          exact Or.inr (Or.inr ⟨rfl, rfl, slot, lastSlot_eq_ok hslot, hchanged⟩)
      | false =>
          rw [hdangling, if_neg Bool.false_ne_true] at h
          cases h
          exact Or.inr (Or.inl ⟨rfl, rfl, rfl⟩)

/-- What is known of a graph once the units that dangle are placed. -/
structure Prepared (g g' : Graph) : Prop where
  frame : g'.frame = g.frame
  control : ∀ {id}, g.IsControl id → g'.slot? id = g.slot? id
  needed : ∀ {id}, g.IsNeeded id → g'.IsNeeded id
  frozen : ∀ {id}, g.IsData id → g.IsFrozen id → g'.IsNeeded id
  free : ∀ {id}, g.IsData id → g'.IsNeeded id → g'.slot? id = none
  dangling : ∀ {id : UnitId} {unit : ScheduleUnit}, g.units[id]? = some unit →
    unit.control = false → ¬g'.IsNeeded id →
    ∃ slot, g.endSlot unit.block = .ok (some slot) ∧ g'.slot? id = some slot

/-- What holds all along while the units that dangle are placed. -/
structure Preparing (g g' : Graph) : Prop where
  frame : g'.frame = g.frame
  control : ∀ {id}, g.IsControl id → g'.slot? id = g.slot? id
  needed : ∀ {id}, g.IsNeeded id → g'.IsNeeded id
  free : ∀ {id}, g.IsData id → g'.IsNeeded id ∨ g.IsFrozen id → g'.slot? id = none

/-- What holds of a unit once it had its turn. -/
structure Treated (g : Graph) (id : UnitId) (g' : Graph) : Prop where
  frozen : g.IsFrozen id → g'.IsNeeded id
  dangling : ∀ {unit}, g.units[id]? = some unit → ¬g'.IsNeeded id →
    ∃ slot, g.endSlot unit.block = .ok (some slot) ∧ g'.slot? id = some slot

theorem placeDangling_sound {middle : Graph} (hg : g.Listed) (hbefore : Preparing g middle)
    (hid : g.IsData id) {placed : Bool} (h : placeDangling middle id = .ok (g', placed)) :
    Preparing g g' ∧ Treated g id g' ∧ ∀ other, Treated g other middle → Treated g other g' := by
  obtain ⟨unit, hunit, hcases⟩ := placeDangling_cases h
  have hfrozen : g.IsFrozen id ↔ unit.fixedTiming = true := by
    rw [← isFrozen_of_frame_eq hbefore.frame, IsFrozen, hunit]
    simp
  have hneeded : middle.IsNeeded id ↔ unit.dangling = false := by
    rw [IsNeeded, hunit]
    simp
  rcases hcases with ⟨hfixed, hset⟩ | ⟨hfixed, hdangling, rfl⟩ |
    ⟨hfixed, hdangling, slot, hend, hplace⟩
  · obtain ⟨hundangles, hdone⟩ := undangles_setDangling hset
    refine ⟨⟨hundangles.frame.trans hbefore.frame, fun hother => ?_, fun hother => ?_, ?_⟩,
      ⟨fun _ => hdone, fun _ hnot => absurd hdone hnot⟩,
      fun other hother => ⟨fun h => ?_, fun hother' h => ?_⟩⟩
    · exact (hundangles.slots _).trans (hbefore.control hother)
    · exact hundangles.needed (hbefore.needed hother)
    · intro other hother hcase
      rw [hundangles.slots]
      refine hbefore.free hother (hcase.elim (fun hneeds => ?_) Or.inr)
      by_cases heq : id = other
      · exact Or.inr (heq ▸ hfrozen.mpr hfixed)
      · have hsame := getElem?_changeUnit hset other
        rw [if_neg heq] at hsame
        rw [IsNeeded, hsame] at hneeds
        exact Or.inl hneeds
    · exact hundangles.needed (hother.frozen h)
    · rw [hundangles.slots]
      exact hother.dangling hother' fun hneeds => h (hundangles.needed hneeds)
  · refine ⟨hbefore, ⟨fun h => ?_, fun _ hnot => absurd (hneeded.mpr hdangling) hnot⟩,
      fun _ hother => hother⟩
    rw [hfrozen.mp h] at hfixed
    cases hfixed
  · have hstep : g'.frame = middle.frame := frame_changeUnit hplace fun _ => rfl
    have hslot := slot?_changeUnit_place hplace
    have hsame : ∀ {other}, g'.IsNeeded other ↔ middle.IsNeeded other :=
      isNeeded_changeUnit hplace fun _ => rfl
    have hunfrozen : ¬g.IsFrozen id := by simp [hfrozen, hfixed]
    have hunneeded : ¬middle.IsNeeded id := by simp [hneeded, hdangling]
    obtain ⟨start, hstart, hagree⟩ := exists_of_frame_eq hbefore.frame hunit
    have hlast : g.endSlot start.block = .ok (some slot) := by
      rw [← endSlot_eq_of_frame_eq hg hbefore.frame hbefore.control, ← hagree.block, hend]
    refine ⟨⟨hstep.trans hbefore.frame, fun {other} hother => ?_, fun hother => ?_,
      fun {other} hother hcase => ?_⟩,
      ⟨fun h => absurd h hunfrozen, fun {unit'} hunit' _ => ⟨slot, ?_, ?_⟩⟩,
      fun other hother => ⟨fun h => ?_, fun {unit'} hunit' h => ?_⟩⟩
    · have hne : id ≠ other := fun heq => hother.not_isData (heq ▸ hid)
      rw [hslot, if_neg hne, hbefore.control hother]
    · exact hsame.mpr (hbefore.needed hother)
    · rw [hsame] at hcase
      have hne : id ≠ other := by
        rintro rfl
        exact hcase.elim hunneeded hunfrozen
      rw [hslot, if_neg hne, hbefore.free hother hcase]
    · obtain rfl := Option.some.inj (hunit'.symm.trans hstart)
      exact hlast
    · rw [hslot, if_pos rfl]
    · exact hsame.mpr (hother.frozen h)
    · rw [hsame] at h
      rw [hslot]
      split
      next heq =>
        subst heq
        obtain rfl := Option.some.inj (hunit'.symm.trans hstart)
        exact ⟨slot, hlast, rfl⟩
      next => exact hother.dangling hunit' h

theorem placeAllDangling_sound (hg : now.state.Listed)
    (hfree : ∀ {id}, now.state.IsData id → now.state.slot? id = none) {count : Nat}
    (h : placeAllDangling now.state.dataUnits now = .ok count last) :
    Prepared now.state last.state := by
  have hall := Step.foldlM_forall (P := fun _ after => Preparing now.state after)
    (Q := fun id after => Treated now.state id after) ?_ ?_ h
  · obtain ⟨hprepared, htreated⟩ := hall
    refine ⟨hprepared.frame, hprepared.control, hprepared.needed, fun {id} hid => ?_,
      fun hid hneeds => hprepared.free hid (Or.inl hneeds), fun {id unit} hunit hdata => ?_⟩
    · exact (htreated id (hg.data.mpr hid)).frozen
    · exact (htreated id (hg.data.mpr ⟨unit, hunit, hdata⟩)).dangling hunit
  · intro id hid count count' before after hbefore hround
    simp only [Step.current_bind, Step.lift_bind_eq_ok] at hround
    obtain ⟨⟨g', placed⟩, hplace, hround⟩ := hround
    rw [Step.replace_bind, Step.pure_eq_ok] at hround
    obtain ⟨_, rfl⟩ := hround
    exact placeDangling_sound hg hbefore (hg.data.mp hid) hplace
  · exact ⟨rfl, fun _ => rfl, fun h => h, fun hid _ => hfree hid⟩

/-! ## Solution -/

/-- The second graph is the first one with its free data-path units placed. -/
structure Solved (g g' : Graph) : Prop where
  frame : g'.frame = g.frame
  needed : ∀ {id}, g'.IsNeeded id ↔ g.IsNeeded id
  kept : ∀ {id slot}, g.slot? id = some slot → g'.slot? id = some slot
  placed : ∀ {id}, g.IsData id → g.slot? id = none →
    ∃ slot, g'.slot? id = some slot ∧ slot < Word.count
  started : ∀ {id unit first slot}, g.units[id]? = some unit → unit.control = false →
    unit.slot = none → unit.fixedTiming = false → g.startSlot unit.block = .ok (some first) →
    g'.slot? id = some slot → first ≤ slot
  deps : ∀ {id unit dep x}, g.units[id]? = some unit → unit.control = false →
    unit.slot = none → dep ∈ unit.deps.entries → g'.slot? id = some x →
    ∃ offset?, dep.2.edge.offset? (g.interval? unit.block) = .ok offset? ∧
      ∀ offset ∈ offset?, ∀ y, g'.slot? dep.1 = some y →
        dep.2.edge.Admits offset ((x : Int) - (y : Int))
  uses : ∀ {id unit user consumer bundle offset x y}, g.units[id]? = some unit →
    unit.control = false → unit.slot = none → user ∈ unit.uses →
    g.units[user]? = some consumer → consumer.slot.isSome → consumer.dep? id = some bundle →
    bundle.edge.offset? (g.interval? consumer.block) = .ok (some offset) →
    g'.slot? id = some x → g'.slot? user = some y →
    bundle.edge.Admits offset ((y : Int) - (x : Int))

section

variable {base sys : ConstraintSystem} {slots : List (UnitId × Nat)}

/-- The braces of a graph with a placed control path are there for the data path. -/
theorem Braced.isBraced (h : Braced g) (hg : g.WellFormed) (hcontrol : HasControlPath lowest g)
    {unit : ScheduleUnit} (hunit : g.units[id]? = some unit) (hdata : unit.control = false)
    (hfixed : unit.fixedTiming = true) : IsBraced g id unit := by
  obtain ⟨anchor, bundle, distance, hanchor, _, hbundle, hedge, hword⟩ :=
    h ⟨unit, hunit, hdata⟩ ⟨unit, hunit, hfixed⟩
  obtain ⟨slot, hslot, _⟩ := hcontrol anchor hanchor
  have hbrace : IsBrace g bundle.edge anchor := by
    rw [hedge]
    exact ⟨rfl, rfl, hword, slot, hslot⟩
  rcases hbundle with hbundle | hbundle
  · rw [bundle?_eq hunit] at hbundle
    exact Or.inl ⟨_, Table.mem_entries_of_get?_eq_some hbundle, hbrace⟩
  · obtain ⟨consumer, hconsumer, hdep⟩ := exists_of_bundle? hbundle
    obtain ⟨unit', hunit', huse⟩ :=
      hg.linked.mp ⟨consumer, hconsumer, Table.mem_keys_iff.mpr ⟨bundle, hdep⟩⟩
    obtain rfl := Option.some.inj (hunit.symm.trans hunit')
    exact Or.inr ⟨anchor, huse, consumer, bundle, hconsumer, hdep, hbrace⟩

theorem Describes.exists_variable (h : Describes base g options sys) (hg : g.Listed)
    {unit : ScheduleUnit} (hunit : g.units[id]? = some unit) (hdata : unit.control = false)
    (hslot : unit.slot = none) :
    id ∈ g.dataUnits ∧ ∃ index, base.variableOf? id = some index := by
  have hmem := hg.data.mpr ⟨unit, hunit, hdata⟩
  exact ⟨hmem, h.free.exists_index hmem ((slot?_eq hunit).trans hslot)⟩

/-- With some unit to place, the system has the arcs that its solver needs. -/
theorem Describes.anchored_of_pos (h : Describes base g options sys) (hg : g.WellFormed)
    (hcontrol : HasControlPath lowest g) (hbraced : Braced g) (hpos : 0 < sys.unknowns.size) :
    Anchored options sys.arcs := by
  rw [h.grows.keepsUnits] at hpos
  obtain ⟨id, hdata, hslot⟩ := h.free.exists_of_pos hpos
  obtain ⟨unit, hunit, hflag⟩ := hg.data.mp hdata
  have hfree : unit.slot = none := (slot?_eq hunit).symm.trans hslot
  obtain ⟨_, index, hindex⟩ := h.exists_variable hg.toListed hunit hflag hfree
  refine h.anchored _ unit index hdata hunit hfree ?_ hindex
  cases hfixed : unit.fixedTiming with
  | false => exact Or.inl rfl
  | true => exact Or.inr (hbraced.isBraced hg hcontrol hunit hflag hfixed)

theorem Describes.satisfies (h : Describes base g options sys)
    (hanchored : Anchored options sys.arcs)
    (hslots : (if options.dataPathLate then sys.latest else sys.earliest) = .ok slots) :
    sys.Satisfies (valuesOf slots) ∧ slots.map Prod.fst = sys.unknowns.toList ∧
      ∀ index < sys.unknowns.size, valuesOf slots index < Word.count := by
  have hclosed := h.grows.closed h.free.closed
  obtain ⟨⟨root, hroot, hzero, hweight⟩, hlate⟩ := hanchored
  split at hslots
  next hflag =>
    obtain ⟨arc, hmem, htarget, hweight⟩ := hlate hflag
    refine ⟨satisfies_latest hclosed (fun _ _ _ => ?_) hslots, (latest_eq_ok hclosed hslots).2.1,
      fun index hindex => latest_isWord hclosed hslots hindex⟩
    exact ⟨arc.reverse, List.mem_map_of_mem hmem, htarget, le_trans (by decide) hweight⟩
  next hflag =>
    refine ⟨satisfies_earliest hclosed (fun _ _ _ => ?_) hslots,
      (earliest_eq_ok hclosed hslots).2.1, fun index hindex =>
        (earliest_isWord hclosed hslots hindex).2⟩
    exact ⟨root, hroot, hzero, le_trans (by decide) hweight⟩

theorem Describes.solved (h : Describes base g options sys) (hg : g.WellFormed)
    (hanchored : Anchored options sys.arcs)
    (hslots : (if options.dataPathLate then sys.latest else sys.earliest) = .ok slots)
    (hplace : g.placeAll slots = .ok g') : Solved g g' := by
  obtain ⟨hvalues, hunits, hwords⟩ := h.satisfies hanchored hslots
  rw [h.grows.keepsUnits] at hunits
  have hplaces := places_placeAll (g := g) h.free.nodup hunits hplace
  have hmeets : ∀ {id unit}, g.units[id]? = some unit → unit.control = false →
      unit.slot = none → ∃ index, base.variableOf? id = some index ∧
        MeetsUnit base g options (valuesOf slots) id := by
    intro id unit hunit hdata hfree
    obtain ⟨hmem, index, hindex⟩ := h.exists_variable hg.toListed hunit hdata hfree
    exact ⟨index, hindex, h.units hvalues id hmem⟩
  refine ⟨frame_placeAll hplace, isNeeded_placeAll hplace, ?_, ?_, ?_, ?_, ?_⟩
  · intro id slot hid
    have hnone : base.variableOf? id = none :=
      h.free.variableOf?_eq_none fun hfree => by simp [hid] at hfree
    rw [hplaces.slot?_eq hnone, hid]
  · rintro id ⟨unit, hunit, hdata⟩ hfree
    obtain ⟨index, hindex, _⟩ := hmeets hunit hdata ((slot?_eq hunit).symm.trans hfree)
    obtain ⟨slot, hslot⟩ := hplaces.exists_slot hindex
    refine ⟨slot, hslot, ?_⟩
    have hlt := lt_size_of_variableOf? hindex
    rw [← h.grows.keepsUnits] at hlt
    have hword := hwords index hlt
    rw [hplaces.slot_eq hindex hslot] at hword
    omega
  · intro id unit first slot hunit hdata hfree hunfrozen hfirst hslot
    obtain ⟨index, hindex, hmeets⟩ := hmeets hunit hdata hfree
    obtain ⟨⟨first', hfirst', hlow⟩, _⟩ := (hmeets unit index hunit hfree hindex).1 hunfrozen
    obtain rfl := Except.ok.inj (hfirst.symm.trans hfirst')
    rw [hplaces.slot_eq hindex hslot, Option.getD_some] at hlow
    omega
  · intro id unit dep x hunit hdata hfree hdep hx
    obtain ⟨index, hindex, hmeets⟩ := hmeets hunit hdata hfree
    obtain ⟨offset?, hoffset, hdeps⟩ := (hmeets unit index hunit hfree hindex).2.1 dep hdep
    rw [← hplaces.slot_eq hindex hx]
    exact ⟨offset?, hoffset, fun offset hsome y hy =>
      hdeps offset hsome y (hplaces.valueOf?_eq hy)⟩
  · intro id unit user consumer bundle offset x y hunit hdata hfree huser hconsumer hsome hdep
      hoffset hx hy
    obtain ⟨index, hindex, hmeets⟩ := hmeets hunit hdata hfree
    obtain ⟨offset?, hoffset', huses⟩ := (hmeets unit index hunit hfree hindex).2.2 user huser
      consumer bundle hconsumer hsome hdep
    obtain rfl := Except.ok.inj (hoffset'.symm.trans hoffset)
    have huses := huses offset rfl y (hplaces.valueOf?_eq hy)
    rwa [← hplaces.slot_eq hindex hx]

end

theorem solve_sound {system : ConstraintSystem} (hg : g.WellFormed)
    (hcontrol : HasControlPath lowest g) (hwords : HasWords g) (hbraced : Braced g)
    (hsystem : build g options = .ok system)
    (hsolve : 0 < system.unknowns.size → ∃ slots,
      (if options.dataPathLate then system.latest else system.earliest) = .ok slots ∧
        g.placeAll slots = .ok g')
    (hskip : ¬0 < system.unknowns.size → g' = g) : Solved g g' := by
  obtain ⟨base, hdescribes⟩ := exists_describes hwords hsystem
  by_cases hpos : 0 < system.unknowns.size
  · obtain ⟨slots, hslots, hplace⟩ := hsolve hpos
    exact hdescribes.solved hg (hdescribes.anchored_of_pos hg hcontrol hbraced hpos) hslots hplace
  · rw [hskip hpos]
    -- Without variables, every unit of the data path has a slot.
    have hnone : ∀ {id : UnitId} {unit : ScheduleUnit}, g.units[id]? = some unit →
        unit.control = false → unit.slot = none → False := by
      intro id unit hunit hdata hfree
      obtain ⟨_, index, hindex⟩ := hdescribes.exists_variable hg.toListed hunit hdata hfree
      have hlt := lt_size_of_variableOf? hindex
      rw [hdescribes.grows.keepsUnits] at hpos
      omega
    refine ⟨rfl, Iff.rfl, fun h => h, ?_, ?_, ?_, ?_⟩
    · rintro id ⟨unit, hunit, hdata⟩ hfree
      exact (hnone hunit hdata ((slot?_eq hunit).symm.trans hfree)).elim
    · intro id unit first slot hunit hdata hfree
      exact (hnone hunit hdata hfree).elim
    · intro id unit dep x hunit hdata hfree
      exact (hnone hunit hdata hfree).elim
    · intro id unit user consumer bundle offset x y hunit hdata hfree
      exact (hnone hunit hdata hfree).elim

end SlotScheduling.DataPath
