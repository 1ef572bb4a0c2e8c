import SlotScheduling.Proofs.Graph.ControlSide
import SlotScheduling.Proofs.Graph.Needed
import SlotScheduling.Proofs.Placement.Classes

/-!
# What the data path sees

The data path places its units without a look at classes, and then decides the classes of all that
are not frozen.  Classes of earlier schedules leave no trace.
-/

namespace SlotScheduling

/-- The unit without its class if it is listed. -/
def ScheduleUnit.unclassed (ids : List UnitId) (id : UnitId) (unit : ScheduleUnit) :
    ScheduleUnit :=
  { unit with valueClass := if id ∈ ids then none else unit.valueClass }

theorem ScheduleUnit.eq_of_frame_eq {unit unit' : ScheduleUnit} (hframe : unit.frame = unit'.frame)
    (hslot : unit.slot = unit'.slot) (hdangling : unit.dangling = unit'.dangling)
    (hclass : unit.valueClass = unit'.valueClass) : unit = unit' := by
  cases unit
  cases unit'
  simp_all [frame]

/-- The graph without the classes of the listed units. -/
def Graph.unclassed (ids : List UnitId) (g : Graph) : Graph :=
  { g with units := g.units.mapIdx (ScheduleUnit.unclassed ids) }

namespace Graph

variable {g g' : Graph} {ids : List UnitId} {id : UnitId} {block : BlockId}

/-- Nothing but what a scheduler decides can differ between graphs with one frame. -/
theorem unclassed_eq {h : Graph} (hframe : h.frame = g.frame)
    (hslots : ∀ id < g.units.size, h.slot? id = g.slot? id)
    (hneeded : ∀ id, h.IsNeeded id ↔ g.IsNeeded id)
    (hclasses : ∀ id < g.units.size, id ∉ ids → h.class? id = g.class? id) :
    h.unclassed ids = g.unclassed ids := by
  have hunits : h.units.mapIdx (ScheduleUnit.unclassed ids) =
      g.units.mapIdx (ScheduleUnit.unclassed ids) := by
    refine Array.ext_getElem? fun id => ?_
    rw [Array.getElem?_mapIdx, Array.getElem?_mapIdx]
    refine map_getElem?_eq_of_frame_eq hframe fun {unit unit'} hunit hunit' hsame => ?_
    have hlt := lt_size_of_getElem? hunit
    have hslot := hslots id hlt
    have hflag := hneeded id
    rw [slot?_eq hunit, slot?_eq hunit'] at hslot
    simp only [IsNeeded, hunit, hunit', Option.some.injEq, exists_eq_left'] at hflag
    have hdangling : unit'.dangling = unit.dangling :=
      Bool.eq_iff_iff.mpr (by simpa using not_congr hflag)
    refine ScheduleUnit.eq_of_frame_eq hsame hslot hdangling ?_
    simp only [ScheduleUnit.unclassed]
    split
    next => rfl
    next hid => simpa [class?, hunit, hunit'] using hclasses id hlt hid
  rw [unclassed, hunits, eq_of_frame_eq hframe, unclassed]

theorem unclassed_nil : g.unclassed [] = g := by
  have hunits : g.units.mapIdx (ScheduleUnit.unclassed []) = g.units := by
    refine Array.ext_getElem? fun id => ?_
    rw [Array.getElem?_mapIdx]
    cases g.units[id]? <;> rfl
  rw [unclassed, hunits]

theorem unit_unclassed :
    (g.unclassed ids).unit id = ScheduleUnit.unclassed ids id <$> g.unit id := by
  rw [Graph.unit, Graph.unit, unclassed, Array.getElem?_mapIdx]
  cases g.units[id]? <;> rfl

theorem unit_unclassed_bind {α : Type} {next : ScheduleUnit → Checked α} :
    ((g.unclassed ids).unit id >>= next) =
      g.unit id >>= fun unit => next (unit.unclassed ids id) := by
  rw [unit_unclassed, bind_map_left]

theorem startSlot_unclassed : (g.unclassed ids).startSlot block = g.startSlot block := by
  have hholder : (g.unclassed ids).holder? (.entry block) = g.holder? (.entry block) := rfl
  simp only [startSlot, hholder, unit_unclassed_bind]
  rfl

theorem endSlot_unclassed : (g.unclassed ids).endSlot block = g.endSlot block := by
  have hend : ∀ g : Graph, g.endSlot block = (fun slots => (slots.filterMap id).max?) <$>
      g.controlUnits.mapM fun id =>
        (fun unit => if unit.block = block then unit.slot else none) <$> g.unit id := by
    intro g
    rw [Checked.mapM_map, endSlot]
    simp only [map_eq_pure_bind, bind_assoc, pure_bind, List.filterMap_filter, List.filterMap_map,
      decide_eq_true_eq]
    rfl
  rw [hend, hend]
  have hcontrolUnits : (g.unclassed ids).controlUnits = g.controlUnits := rfl
  simp only [hcontrolUnits, unit_unclassed, Functor.map_map]
  rfl

/-- A change of one unit can also decide a class that does not show. -/
theorem changeUnit_unclassed_of {ids' : List UnitId} {change : ScheduleUnit → ScheduleUnit}
    (hchange : ∀ unit, change (ScheduleUnit.unclassed ids id unit) =
      (change unit).unclassed ids' id)
    (hothers : ∀ other, id ≠ other → (other ∈ ids ↔ other ∈ ids')) :
    (g.unclassed ids).changeUnit id change = unclassed ids' <$> g.changeUnit id change := by
  rw [changeUnit, changeUnit, unclassed, Array.size_mapIdx]
  split
  · refine congrArg Except.ok ?_
    simp only [unclassed]
    congr 1
    refine Array.ext_getElem? fun other => ?_
    simp only [Array.getElem?_modify, Array.getElem?_mapIdx]
    split
    next heq =>
      subst heq
      cases g.units[id]? <;> simp [hchange]
    next hne =>
      have hsame : ScheduleUnit.unclassed ids other = ScheduleUnit.unclassed ids' other := by
        funext unit
        simp only [ScheduleUnit.unclassed, hothers other hne]
      rw [hsame]
  · rfl

theorem changeUnit_unclassed {change : ScheduleUnit → ScheduleUnit}
    (hchange : ∀ unit, change (ScheduleUnit.unclassed ids id unit) =
      (change unit).unclassed ids id) :
    (g.unclassed ids).changeUnit id change = unclassed ids <$> g.changeUnit id change :=
  changeUnit_unclassed_of hchange fun _ _ => Iff.rfl

theorem placeAll_unclassed {placements : List (UnitId × Nat)} :
    (g.unclassed ids).placeAll placements = unclassed ids <$> g.placeAll placements := by
  induction placements generalizing g with
  | nil => rfl
  | cons placement rest ih =>
      have hplace : (g.unclassed ids).changeUnit placement.1 (·.place placement.2) =
          unclassed ids <$> g.changeUnit placement.1 (·.place placement.2) :=
        changeUnit_unclassed fun _ => rfl
      simp only [placeAll, List.foldlM_cons, hplace, bind_map_left, map_bind] at ih ⊢
      exact Checked.bind_congr fun next _ => ih

end Graph

/-! ## Constraints -/

namespace DataPath

open SlotScheduling.Graph

variable {g : Graph} {ids : List UnitId} {id : UnitId} {block : BlockId} {unit : ScheduleUnit}
  {options : SchedulingOptions} {system : ConstraintSystem} {term : Term}

theorem term?_unclassed : system.term? (g.unclassed ids) id = system.term? g id := by
  simp only [ConstraintSystem.term?, unit_unclassed_bind]
  rfl

theorem lastSlot_unclassed : lastSlot (g.unclassed ids) id block = lastSlot g id block := by
  rw [lastSlot, endSlot_unclassed, lastSlot]

theorem addWindow_unclassed :
    addWindow (g.unclassed ids) options id (unit.unclassed ids id) term system =
      addWindow g options id unit term system := by
  simp only [addWindow, startSlot_unclassed, lastSlot_unclassed]
  rfl

theorem addDep_unclassed : addDep (g.unclassed ids) (unit.unclassed ids id) term =
    addDep g unit term := by
  funext system dep
  simp only [addDep, term?_unclassed]
  rfl

theorem addUse_unclassed : addUse (g.unclassed ids) id term = addUse g id term := by
  funext system user
  simp only [addUse, unit_unclassed_bind, term?_unclassed]
  rfl

theorem addUnit_unclassed : addUnit (g.unclassed ids) options = addUnit g options := by
  funext system id
  simp only [addUnit, unit_unclassed_bind, term?_unclassed, addWindow_unclassed, addDep_unclassed,
    addUse_unclassed]
  rfl

theorem build_unclassed : build (g.unclassed ids) options = build g options := by
  have hdataUnits : (g.unclassed ids).dataUnits = g.dataUnits := rfl
  have hfree : ConstraintSystem.ofFree (g.unclassed ids) g.dataUnits =
      ConstraintSystem.ofFree g g.dataUnits := by
    simp only [ConstraintSystem.ofFree, unit_unclassed_bind]
    rfl
  rw [build, hdataUnits, hfree, addUnit_unclassed, build]

/-! ## Placements -/

theorem placeDangling_unclassed : placeDangling (g.unclassed ids) id =
    Prod.map (unclassed ids) (fun placed => placed) <$> placeDangling g id := by
  have hset : (g.unclassed ids).setDangling id false = unclassed ids <$> g.setDangling id false :=
    changeUnit_unclassed fun _ => rfl
  have hplace : ∀ (g : Graph) slot, (g.unclassed ids).changeUnit id (·.place slot) =
      unclassed ids <$> g.changeUnit id (·.place slot) :=
    fun _ _ => changeUnit_unclassed fun _ => rfl
  simp only [placeDangling, unit_unclassed_bind, map_bind]
  refine Checked.bind_congr fun unit _ => ?_
  have hfixed : (unit.unclassed ids id).fixedTiming = unit.fixedTiming := rfl
  have hdangling : (unit.unclassed ids id).dangling = unit.dangling := rfl
  have hblock : (unit.unclassed ids id).block = unit.block := rfl
  rw [hfixed, hdangling, hblock]
  cases unit.fixedTiming <;> cases unit.dangling <;>
    simp [hset, hplace, lastSlot_unclassed, map_bind]

/-! ## Classes -/

theorem waitsForProducer_unclassed {slot : Nat} {sources : List UnitId} :
    waitsForProducer (g.unclassed ids) block slot sources =
      waitsForProducer g block slot sources := by
  induction sources with
  | nil => rfl
  | cons source rest ih =>
      simp only [waitsForProducer, unit_unclassed_bind, ih]
      rfl

theorem classOf_unclassed :
    classOf (g.unclassed ids) options (unit.unclassed ids id) = classOf g options unit := by
  simp only [classOf, waitsForProducer_unclassed]
  rfl

/-- The class that a unit had does not matter for the one it gets. -/
theorem classify_unclassed (hid : id ∉ ids)
    (hunfrozen : ∀ unit, g.units[id]? = some unit → unit.fixedTiming = false) :
    classify options (g.unclassed (id :: ids)) id = unclassed ids <$> classify options g id := by
  simp only [classify, unit_unclassed_bind, map_bind]
  refine Checked.bind_congr fun unit hunit => ?_
  have hfixed := hunfrozen unit (unit_eq_ok.mp hunit)
  have hfixed' : (unit.unclassed (id :: ids) id).fixedTiming = false := hfixed
  simp only [hfixed, hfixed', classOf_unclassed, Bool.false_and, Bool.false_eq_true, if_false,
    map_bind]
  refine Checked.bind_congr fun valueClass _ => changeUnit_unclassed_of (fun unit => ?_) ?_
  · simp [ScheduleUnit.unclassed, hid]
  · exact fun other hne => List.mem_cons.trans (or_iff_right hne.symm)

theorem classifyAll_unclassed (hids : ids.Nodup)
    (hunfrozen : ∀ id ∈ ids, ∀ unit, g.units[id]? = some unit → unit.fixedTiming = false) :
    ids.foldlM (classify options) (g.unclassed ids) = ids.foldlM (classify options) g := by
  induction ids generalizing g with
  | nil => rw [unclassed_nil]
  | cons id rest ih =>
      rw [List.nodup_cons] at hids
      rw [List.foldlM_cons, List.foldlM_cons,
        classify_unclassed hids.1 (hunfrozen id List.mem_cons_self), bind_map_left]
      refine Checked.bind_congr fun next hnext => ih hids.2 fun other hother unit hunit => ?_
      obtain ⟨unit', hunit', hagree⟩ := exists_of_frame_eq (classify_sound hnext).1 hunit
      exact hagree.fixedTiming.trans
        (hunfrozen other (List.mem_cons_of_mem _ hother) unit' hunit')

/-! ## Graphs that differ in classes alone -/

/-- The graphs differ in nothing but the classes of the listed units. -/
def SameUnclassed (ids : List UnitId) (g h : Graph) : Prop := h.unclassed ids = g.unclassed ids

theorem SameUnclassed.eq_of_unclassed {α : Type} {h : Graph} (hsame : SameUnclassed ids g h)
    {f : Graph → α} (hf : ∀ g : Graph, f (g.unclassed ids) = f g) : f h = f g := by
  rw [← hf h, hsame, hf g]

theorem SameUnclassed.frame_eq {h : Graph} (hsame : SameUnclassed ids g h) : h.frame = g.frame := by
  refine hsame.eq_of_unclassed fun g => ?_
  simp only [frame, unclassed]
  congr 1
  refine Array.ext_getElem? fun id => ?_
  simp only [Array.getElem?_map, Array.getElem?_mapIdx, Option.map_map]
  rfl

theorem parallel_placeAllDangling (list : List UnitId) :
    Step.Parallel (SameUnclassed ids) (placeAllDangling list) (placeAllDangling list) := by
  apply Step.parallel_foldlM
  intro count id
  refine Step.parallel_current_bind fun g h hsame => ?_
  have hplace : Prod.map (unclassed ids) (fun placed => placed) <$> placeDangling h id =
      Prod.map (unclassed ids) (fun placed => placed) <$> placeDangling g id := by
    rw [← placeDangling_unclassed, hsame, placeDangling_unclassed]
  refine Step.parallel_lift_map_bind hplace fun ⟨g', placed⟩ ⟨h', placed'⟩ hplaced => ?_
  have hgraph : SameUnclassed ids g' h' := congrArg Prod.fst hplaced
  obtain rfl : placed' = placed := congrArg Prod.snd hplaced
  exact (Step.parallel_replace hgraph).bind fun _ => Step.parallel_pure _

theorem parallel_position :
    Step.Parallel (SameUnclassed ids) (position options) (position options) := by
  unfold position
  refine Step.parallel_current_bind fun g h hsame => ?_
  have hdataUnits : h.dataUnits = g.dataUnits := hsame.eq_of_unclassed fun _ => rfl
  rw [hdataUnits]
  apply (parallel_placeAllDangling _).bind
  intro dangling
  refine Step.parallel_current_bind fun g' h' hsame' => ?_
  have hbuild : build h' options = build g' options :=
    hsame'.eq_of_unclassed (f := (build · options)) fun _ => build_unclassed
  rw [hbuild]
  apply (Step.parallel_lift _).bind
  intro system
  apply (Step.parallel_note _ _ _).bind
  intro _
  apply Step.parallel_ite
  · apply (Step.parallel_lift _).bind
    intro slots
    refine Step.parallel_updateChecked_map fun g h hsame => ?_
    rw [← placeAll_unclassed, hsame, placeAll_unclassed]
  · exact Step.parallel_pure _

/-! ## Graphs with one control side -/

theorem isControl_of_needed_resetData (hg : g.Listed) (hreset : g.resetData = .ok g')
    (hneeded : g'.IsNeeded id) : g.IsControl id := by
  obtain ⟨unit, hunit, hflag⟩ := hneeded
  obtain ⟨unit', hunit', hagree⟩ := exists_of_frame_eq (resetData_sound hg hreset).1 hunit
  refine ⟨unit', hunit', Bool.eq_true_of_not_eq_false fun hdata => ?_⟩
  have hget := getElem?_changeUnits_of_mem (hg.data.mpr ⟨unit', hunit', hdata⟩) hreset fun _ => rfl
  rw [hunit, hunit'] at hget
  obtain rfl := Option.some.inj hget
  cases hflag

/-- What is left of earlier schedules, once the data path is cleared and it is known what the
control path needs, are classes of data-path units. -/
theorem exists_sameUnclassed {h cleared undangled : Graph} (hg : g.WellFormed)
    (hframe : h.frame = g.frame) (hslots : ∀ {id}, g.IsControl id → h.slot? id = g.slot? id)
    (hclasses : ∀ {id}, g.IsControl id → h.class? id = g.class? id)
    (hreset : g.resetData = .ok cleared)
    (hundangle : cleared.controlUnits.foldlM undangle cleared = .ok undangled) :
    ∃ cleared' undangled', h.resetData = .ok cleared' ∧
      cleared'.controlUnits.foldlM undangle cleared' = .ok undangled' ∧
      SameUnclassed g.dataUnits undangled undangled' := by
  have hh : h.WellFormed :=
    hg.of_outline_eq (outline_eq_of_skeleton_eq (skeleton_eq_of_frame_eq hframe))
  obtain ⟨cleared', hreset'⟩ : ∃ cleared', h.resetData = .ok cleared' :=
    exists_changeUnits fun id hid => (hh.data.mp hid).lt_size
  obtain ⟨hcleared, hcontrol, hdata⟩ := resetData_sound hg.toListed hreset
  obtain ⟨hcleared', hcontrol', hdata'⟩ := resetData_sound hh.toListed hreset'
  -- It spreads from the control units alone, as the reset makes all others dangle.
  have hspread : ∀ {g g' : Graph}, g.WellFormed → g.resetData = .ok g' →
      ∃ k, g'.controlUnits.foldlM undangle g' = .ok k ∧
        ∀ {id}, k.IsNeeded id ↔ g'.NeededBy g'.controlUnits id := by
    intro g g' hg hreset
    have hframe := (resetData_sound hg.toListed hreset).1
    have hg' := hg.of_outline_eq (outline_eq_of_skeleton_eq (skeleton_eq_of_frame_eq hframe))
    refine exists_undangleAll hg' (fun root hroot => (hg'.control.mp hroot).lt_size)
      fun hneeded => ?_
    have hid := isControl_of_needed_resetData hg.toListed hreset hneeded
    exact hg'.control.mpr ((isControl_iff_of_frame_eq hframe).mpr hid)
  obtain ⟨_, hrun, hneeded⟩ := hspread hg hreset
  obtain rfl := Except.ok.inj (hundangle.symm.trans hrun)
  obtain ⟨undangled', hundangle', hneeded'⟩ := hspread hh hreset'
  have hsteps := (undangleAll_sound hundangle).1
  have hsteps' := (undangleAll_sound hundangle').1
  have hframes : cleared'.frame = cleared.frame := hcleared'.trans (hframe.trans hcleared.symm)
  have hroots : cleared'.controlUnits = cleared.controlUnits :=
    eq_of_skeleton_eq (·.controlUnits) (skeleton_eq_of_frame_eq hframes) fun _ => rfl
  have hsize : undangled.units.size = g.units.size :=
    size_eq_of_skeleton_eq (skeleton_eq_of_frame_eq (hsteps.frame.trans hcleared))
  refine ⟨cleared', undangled', hreset', hundangle', unclassed_eq ?_ (fun id hid => ?_)
    (fun id => ?_) fun id hid hdataUnit => ?_⟩
  · exact hsteps'.frame.trans (hframes.trans hsteps.frame.symm)
  · rw [hsteps'.slots, hsteps.slots]
    rcases isControl_or_isData (hsize ▸ hid) with hisControl | hisData
    · rw [hcontrol hisControl, hcontrol' ((isControl_iff_of_frame_eq hframe).mpr hisControl),
        hslots hisControl]
    · rw [hdata hisData, hdata' ((isData_iff_of_frame_eq hframe).mpr hisData)]
  · rw [hneeded, hneeded', hroots]
    exact ⟨fun h => h.of_frame_eq hframes, fun h => h.of_frame_eq hframes.symm⟩
  · rw [hsteps'.classes, hsteps.classes, class?_changeUnits hreset' fun _ => rfl,
      class?_changeUnits hreset fun _ => rfl]
    rcases isControl_or_isData (hsize ▸ hid) with hisControl | hisData
    · exact hclasses hisControl
    · exact absurd (hg.data.mpr hisData) hdataUnit

/-- The data path of a block comes out the same around control paths that are the same. -/
theorem schedule_eq_ok_of_sameControl {start : Graph} {entrySlot : Nat} {threshold : Option Level}
    {now now' last : Journaled Graph} {result : PUnit} (hstart : start.OfBlock block entrySlot)
    (hnow : Alike threshold (SameControl start fun t t' => t' = t) now now')
    (h : schedule options now = .ok result last) :
    ∃ last', schedule options now' = .ok result last' ∧ Alike threshold Eq last last' := by
  have hg := hstart.of_skeleton_eq hnow.state.skeleton
  have hframe : now'.state.frame = now.state.frame := by
    have hframe := hnow.state.frame_eq
    rwa [← hnow.state.intervals] at hframe
  rw [schedule_eq] at h ⊢
  obtain ⟨cleared, hreset, h⟩ := Step.updateChecked_bind_eq_ok.mp h
  obtain ⟨undangled, hundangle, h⟩ := Step.updateChecked_bind_eq_ok.mp h
  obtain ⟨cleared', undangled', hreset', hundangle', hsame⟩ := exists_sameUnclassed
    hg.toWellFormed hframe hnow.state.slot?_eq hnow.state.class?_eq hreset hundangle
  obtain ⟨_, placed, hposition, h⟩ := Step.bind_eq_ok.mp h
  obtain ⟨classified, hclassify, rfl⟩ := Step.updateChecked_eq_ok.mp h
  obtain ⟨placed', hposition', hplaced⟩ := parallel_position.of_eq_ok
    (⟨hsame, hnow.left, hnow.right⟩ : Alike threshold (SameUnclassed now.state.dataUnits)
      ⟨undangled, now.journal⟩ ⟨undangled', now'.journal⟩) hposition
  have hkept : placed.state.frame = now.state.frame := by
    have hplaced : placed.state.frame = undangled.frame :=
      (keeps_position options).of_eq_ok hposition
    rw [hplaced, (undangleAll_sound hundangle).1.frame, (resetData_sound hg.toListed hreset).1]
  have hdataUnits : placed.state.dataUnits = now.state.dataUnits :=
    eq_of_skeleton_eq (·.dataUnits) (skeleton_eq_of_frame_eq hkept) fun _ => rfl
  have hdataUnits' : placed'.state.dataUnits = placed.state.dataUnits :=
    hplaced.state.eq_of_unclassed fun _ => rfl
  have hunfrozen : ∀ {g : Graph}, g.frame = now.state.frame → ∀ id ∈ now.state.dataUnits,
      ∀ unit, g.units[id]? = some unit → unit.fixedTiming = false := fun hframe _ _ _ hunit =>
    ((hg.of_frame_eq hframe).units hunit).unfrozen
  have hclassify' : placed'.state.dataUnits.foldlM (classify options) placed'.state =
      .ok classified := by
    rw [hdataUnits', hdataUnits, ← classifyAll_unclassed hg.dataNodup
      (hunfrozen (hplaced.state.frame_eq.trans hkept)), hplaced.state,
      classifyAll_unclassed hg.dataNodup (hunfrozen hkept), ← hdataUnits, hclassify]
  refine ⟨⟨classified, placed'.journal⟩, ?_, rfl, hplaced.left, hplaced.right⟩
  exact Step.updateChecked_bind_eq_ok.mpr ⟨cleared', hreset', Step.updateChecked_bind_eq_ok.mpr
    ⟨undangled', hundangle', Step.bind_eq_ok.mpr ⟨_, placed', hposition',
      Step.updateChecked_eq_ok.mpr ⟨classified, hclassify', rfl⟩⟩⟩⟩

end DataPath

end SlotScheduling
