import SlotScheduling.Proofs.Graph.Blocks
import SlotScheduling.Proofs.Graph.Ends
import SlotScheduling.Proofs.Journals
import SlotScheduling.Proofs.Pipeline.Skeletons

/-!
# Control sides

The control side of a graph is what is left without all that only the data path decides.  The
changes that belong to the control path do the same on graphs with one control side.
-/

namespace SlotScheduling

namespace ScheduleUnit

/-- The unit without what only the data path decides. -/
def controlSide (unit : ScheduleUnit) : ScheduleUnit :=
  { unit with
    slot := if unit.control then unit.slot else none
    dangling := true
    valueClass := if unit.control then unit.valueClass else none }

variable {unit : ScheduleUnit}

@[simp] theorem controlSide_block : unit.controlSide.block = unit.block := rfl

@[simp] theorem controlSide_funcUnit : unit.controlSide.funcUnit = unit.funcUnit := rfl

@[simp] theorem controlSide_control : unit.controlSide.control = unit.control := rfl

@[simp] theorem controlSide_isData : unit.controlSide.isData = unit.isData := rfl

@[simp] theorem controlSide_phi : unit.controlSide.phi = unit.phi := rfl

@[simp] theorem controlSide_deps : unit.controlSide.deps = unit.deps := rfl

@[simp] theorem controlSide_dep? : unit.controlSide.dep? = unit.dep? := rfl

@[simp] theorem controlSide_uses : unit.controlSide.uses = unit.uses := rfl

@[simp] theorem controlSide_fixedTiming : unit.controlSide.fixedTiming = unit.fixedTiming := rfl

theorem controlSide_slot (h : unit.control = true) : unit.controlSide.slot = unit.slot := if_pos h

theorem slot_eq_of_controlSide_eq {unit' : ScheduleUnit} (h : unit'.controlSide = unit.controlSide)
    (hcontrol : unit.control = true) : unit'.slot = unit.slot := by
  have hcontrol' : unit'.control = unit.control := by simpa using congrArg ScheduleUnit.control h
  rw [← controlSide_slot hcontrol, ← h, controlSide_slot (hcontrol'.trans hcontrol)]

theorem valueClass_eq_of_controlSide_eq {unit' : ScheduleUnit}
    (h : unit'.controlSide = unit.controlSide) (hcontrol : unit.control = true) :
    unit'.valueClass = unit.valueClass := by
  have hcontrol' : unit'.control = unit.control := by simpa using congrArg ScheduleUnit.control h
  have hclass := congrArg ScheduleUnit.valueClass h
  simpa [controlSide, hcontrol', hcontrol] using hclass

theorem place_controlSide {slot : Nat} (h : unit.control = true) :
    unit.controlSide.place slot = (unit.place slot).controlSide := by
  simp [place, controlSide, h]

theorem unplace_controlSide (h : unit.control = true) :
    unit.controlSide.unplace = unit.unplace.controlSide := by
  simp [unplace, controlSide, h]

end ScheduleUnit

/-- The graph without what only the data path decides, and without intervals. -/
def Graph.controlSide (g : Graph) : Graph :=
  { g with units := g.units.map ScheduleUnit.controlSide, intervals := {} }

namespace Graph

variable {g : Graph} {id : UnitId} {block : BlockId}

@[simp] theorem controlSide_units : g.controlSide.units = g.units.map ScheduleUnit.controlSide :=
  rfl

theorem unit_controlSide : g.controlSide.unit id = ScheduleUnit.controlSide <$> g.unit id := by
  rw [Graph.unit, Graph.unit, controlSide_units, Array.getElem?_map]
  cases g.units[id]? <;> rfl

theorem unit_controlSide_bind {α : Type} {next : ScheduleUnit → Checked α} :
    (g.controlSide.unit id >>= next) = g.unit id >>= fun unit => next unit.controlSide := by
  rw [unit_controlSide, bind_map_left]

theorem getElem?_controlSide :
    g.controlSide.units[id]? = g.units[id]?.map ScheduleUnit.controlSide := by
  rw [controlSide_units, Array.getElem?_map]

/-! ## Changes -/

theorem changeUnit_controlSide {change : ScheduleUnit → ScheduleUnit}
    (hchange : ∀ unit, g.units[id]? = some unit →
      change unit.controlSide = (change unit).controlSide) :
    g.controlSide.changeUnit id change = Graph.controlSide <$> g.changeUnit id change := by
  rw [changeUnit, changeUnit, controlSide_units, Array.size_map]
  split
  · refine congrArg Except.ok ?_
    simp only [controlSide]
    congr 1
    refine Array.ext_getElem? fun other => ?_
    simp only [Array.getElem?_modify, Array.getElem?_map]
    split
    next heq =>
      subst heq
      cases hunit : g.units[id]? with
      | none => rfl
      | some unit => simp [hchange unit hunit]
    next => rfl
  · rfl

theorem place_controlSide {slot : Nat} (hid : g.IsControl id) :
    g.controlSide.changeUnit id (·.place slot) =
      Graph.controlSide <$> g.changeUnit id (·.place slot) := by
  obtain ⟨unit, hunit, hcontrol⟩ := hid
  refine changeUnit_controlSide fun unit' hunit' => ScheduleUnit.place_controlSide ?_
  exact Option.some.inj (hunit.symm.trans hunit') ▸ hcontrol

theorem foldlM_controlSide {α : Type} {P : Graph → Prop} {list : List α}
    {round : Graph → α → Checked Graph}
    (h : ∀ item ∈ list, ∀ now, P now →
      round now.controlSide item = Graph.controlSide <$> round now item ∧
        ∀ next, round now item = .ok next → P next) (hg : P g) :
    list.foldlM round g.controlSide = Graph.controlSide <$> list.foldlM round g := by
  induction list generalizing g with
  | nil => rfl
  | cons item rest ih =>
      obtain ⟨hsame, hkept⟩ := h item List.mem_cons_self g hg
      rw [List.foldlM_cons, List.foldlM_cons, hsame, bind_map_left, map_bind]
      exact Checked.bind_congr fun next hnext =>
        ih (fun other hmem => h other (List.mem_cons_of_mem _ hmem)) (hkept next hnext)

theorem changeUnits_controlSide {change : ScheduleUnit → ScheduleUnit} {ids : List UnitId}
    (hids : ∀ id ∈ ids, g.IsControl id) (hkept : ∀ unit, (change unit).control = unit.control)
    (hchange : ∀ unit : ScheduleUnit, unit.control = true →
      change unit.controlSide = (change unit).controlSide) :
    g.controlSide.changeUnits ids change = Graph.controlSide <$> g.changeUnits ids change := by
  refine foldlM_controlSide (P := fun now => ∀ id ∈ ids, now.IsControl id)
    (fun id hid now hnow => ⟨?_, fun next hnext other hother => ?_⟩) hids
  · obtain ⟨unit, hunit, hcontrol⟩ := hnow id hid
    refine changeUnit_controlSide fun unit' hunit' => hchange unit' ?_
    exact Option.some.inj (hunit.symm.trans hunit') ▸ hcontrol
  · exact (isControl_changeUnit hnext hkept).mpr (hnow other hother)

theorem placeAll_controlSide {placements : List (UnitId × Nat)}
    (hids : ∀ placement ∈ placements, g.IsControl placement.1) :
    g.controlSide.placeAll placements = Graph.controlSide <$> g.placeAll placements := by
  refine foldlM_controlSide (P := fun now => ∀ placement ∈ placements, now.IsControl placement.1)
    (fun placement hmem now hnow =>
      ⟨place_controlSide (hnow placement hmem), fun next hnext other hother => ?_⟩) hids
  exact (isControl_changeUnit hnext fun _ => rfl).mpr (hnow other hother)

theorem clearControl_controlSide (hg : g.Listed) (hroot : g.IsControl g.entryRoot) :
    g.controlSide.clearControl = Graph.controlSide <$> g.clearControl := by
  have hcontrolUnits : g.controlSide.controlUnits = g.controlUnits := rfl
  have hunplace : g.controlSide.changeUnits g.controlUnits (·.unplace) =
      Graph.controlSide <$> g.changeUnits g.controlUnits (·.unplace) :=
    changeUnits_controlSide (fun _ hid => hg.control.mp hid) (fun _ => rfl)
      fun _ => ScheduleUnit.unplace_controlSide
  rw [clearControl, hcontrolUnits, hunplace, clearControl, bind_map_left, map_bind]
  refine Checked.bind_congr fun cleared hcleared => place_controlSide ?_
  have hframe : cleared.frame = g.frame := frame_changeUnits hcleared fun _ => rfl
  exact (isControl_iff_of_frame_eq hframe).mpr hroot

theorem widenExit_controlSide (interval : Nat) :
    g.controlSide.widenExit interval = Graph.controlSide <$> g.widenExit interval := by
  have hexitRoot : g.controlSide.exitRoot = g.exitRoot := rfl
  rw [widenExit, hexitRoot, widenExit]
  cases g.exitRoot with
  | none => rfl
  | some exit =>
      simp only [unit_controlSide_bind, ScheduleUnit.controlSide_phi, ScheduleUnit.controlSide_deps,
        map_bind]
      refine Checked.bind_congr fun unit _ => Checked.bind_congr fun phis _ => ?_
      exact foldlM_controlSide (P := fun _ => True) (fun phi _ now _ =>
        ⟨changeUnit_controlSide fun _ _ => rfl, fun _ _ => trivial⟩) trivial

/-! ## Graphs with one frame -/

/-- Nothing but the units can differ between graphs with one frame. -/
theorem eq_of_frame_eq {h : Graph} (hframe : h.frame = g.frame) : h = { g with units := h.units } :=
  congrArg (fun g' : Graph => { g' with units := h.units }) hframe

/-- Units of graphs with one frame look the same if they do so wherever only decisions of a
scheduler differ. -/
theorem map_getElem?_eq_of_frame_eq {h : Graph} {α : Type} {look : ScheduleUnit → α}
    (hframe : h.frame = g.frame)
    (hlook : ∀ {unit unit'}, g.units[id]? = some unit → h.units[id]? = some unit' →
      unit'.frame = unit.frame → look unit' = look unit) :
    h.units[id]?.map look = g.units[id]?.map look := by
  have hget := congrArg (fun g' : Graph => g'.units[id]?) hframe
  simp only [frame, Array.getElem?_map] at hget
  cases hunit' : h.units[id]? with
  | none =>
      rw [hunit'] at hget
      rw [Option.map_eq_none_iff.mp hget.symm]
  | some unit' =>
      rw [hunit'] at hget
      obtain ⟨unit, hunit, hsame⟩ := Option.map_eq_some_iff.mp hget.symm
      rw [hunit, Option.map_some, Option.map_some, hlook hunit hunit' hsame.symm]

/-- The control side is all that shows, besides the frame, what was decided for control units. -/
theorem controlSide_eq {h : Graph} (hframe : h.frame = g.frame)
    (hslots : ∀ {id}, g.IsControl id → h.slot? id = g.slot? id)
    (hclasses : ∀ {id}, g.IsControl id → h.class? id = g.class? id) :
    h.controlSide = g.controlSide := by
  have hunits : h.units.map ScheduleUnit.controlSide = g.units.map ScheduleUnit.controlSide := by
    refine Array.ext_getElem? fun id => ?_
    rw [Array.getElem?_map, Array.getElem?_map]
    refine map_getElem?_eq_of_frame_eq hframe fun {unit unit'} hunit hunit' hsame => ?_
    have hflag : unit'.control = unit.control := (ScheduleUnit.agrees_of_frame_eq hsame).control
    cases hcontrol : unit.control with
    | false =>
        have hside : ∀ {unit : ScheduleUnit}, unit.control = false →
            unit.controlSide = unit.frame := by
          intro unit hdata
          simp [ScheduleUnit.controlSide, ScheduleUnit.frame, hdata]
        rw [hside hcontrol, hside (hflag.trans hcontrol), hsame]
    | true =>
        have hslot := hslots ⟨unit, hunit, hcontrol⟩
        have hclass : unit'.valueClass = unit.valueClass := by
          simpa [class?, hunit, hunit'] using hclasses ⟨unit, hunit, hcontrol⟩
        rw [slot?_eq hunit, slot?_eq hunit'] at hslot
        have hside : ∀ {unit : ScheduleUnit}, unit.control = true →
            unit.controlSide = { unit.frame with
              slot := unit.slot
              valueClass := unit.valueClass } := by
          intro unit hcontrol
          simp [ScheduleUnit.controlSide, ScheduleUnit.frame, hcontrol]
        rw [hside hcontrol, hside (hflag.trans hcontrol), hsame, hslot, hclass]
  rw [controlSide, hunits, eq_of_frame_eq hframe, controlSide]

/-! ## Graphs with one control side -/

theorem skeleton_controlSide (g : Graph) : g.controlSide.skeleton = g.skeleton := by
  simp only [skeleton, controlSide]
  congr 1
  refine Array.ext_getElem? fun id => ?_
  simp only [Array.getElem?_mapIdx, Array.getElem?_map, Option.map_map]
  rfl

/-- Two graphs with the skeleton of a third one that do not differ in what the control path sees.
Their intervals are in a relation. -/
structure SameControl (start : Graph) (P : Table BlockId Nat → Table BlockId Nat → Prop)
    (g h : Graph) : Prop where
  skeleton : g.skeleton = start.skeleton
  intervals : P g.intervals h.intervals
  side : h.controlSide = g.controlSide

variable {start h : Graph} {P : Table BlockId Nat → Table BlockId Nat → Prop} {entrySlot : Nat}

theorem SameControl.skeleton' (hsame : SameControl start P g h) : h.skeleton = start.skeleton := by
  rw [← skeleton_controlSide, hsame.side, skeleton_controlSide, hsame.skeleton]

theorem SameControl.mono {P' : Table BlockId Nat → Table BlockId Nat → Prop}
    (hsame : SameControl start P g h) (hintervals : ∀ {t t'}, P t t' → P' t t') :
    SameControl start P' g h :=
  { hsame with intervals := hintervals hsame.intervals }

/-- What is read off the control side is the same for both graphs. -/
theorem SameControl.eq_of_controlSide {α : Type} (hsame : SameControl start P g h) {f : Graph → α}
    (hf : ∀ g : Graph, g.skeleton = start.skeleton → f g.controlSide = f g) : f h = f g := by
  rw [← hf h hsame.skeleton', hsame.side, hf g hsame.skeleton]

/-- A change that does the same on control sides keeps them the same. -/
theorem parallel_change {change : Graph → Checked Graph}
    (hkept : ∀ {g g' : Graph}, change g = .ok g' → g'.setup = g.setup)
    (hside : ∀ g : Graph, g.skeleton = start.skeleton →
      change g.controlSide = Graph.controlSide <$> change g) :
    Step.Parallel (SameControl start P) (Step.updateChecked change)
      (Step.updateChecked change) := by
  refine Step.parallel_updateChecked fun g h hsame => ?_
  have hchanges : Graph.controlSide <$> change h = Graph.controlSide <$> change g := by
    rw [← hside h hsame.skeleton', hsame.side, hside g hsame.skeleton]
  cases hchange : change g <;> cases hchange' : change h <;> rw [hchange, hchange'] at hchanges
  next failure failure' =>
    cases hchanges
    exact Or.inl ⟨failure, rfl, rfl⟩
  next => cases hchanges
  next => cases hchanges
  next last last' =>
    have hsetup : last.setup = g.setup := hkept hchange
    have hsetup' : last'.setup = h.setup := hkept hchange'
    have hintervals : last.intervals = g.intervals := congrArg Prod.snd hsetup
    have hintervals' : last'.intervals = h.intervals := congrArg Prod.snd hsetup'
    have hskeleton : last.skeleton = g.skeleton := congrArg Prod.fst hsetup
    exact Or.inr ⟨last, last', rfl, rfl, hskeleton.trans hsame.skeleton,
      hintervals ▸ hintervals' ▸ hsame.intervals, Except.ok.inj hchanges⟩

theorem isControl_of_start (hid : start.IsControl id) (hskeleton : g.skeleton = start.skeleton) :
    g.IsControl id :=
  isControl_of_outline_eq (outline_eq_of_skeleton_eq hskeleton).symm hid

theorem parallel_placeAll {slots : List (UnitId × Nat)}
    (hslots : ∀ id ∈ slots.map Prod.fst, start.IsControl id) :
    Step.Parallel (SameControl start P) (Step.updateChecked (·.placeAll slots))
      (Step.updateChecked (·.placeAll slots)) :=
  parallel_change (fun hplace => setup_eq_of_frame_eq (frame_placeAll hplace))
    fun _ hskeleton => placeAll_controlSide fun _ hmem =>
      isControl_of_start (hslots _ (List.mem_map_of_mem hmem)) hskeleton

theorem SameControl.exists_unit (hsame : SameControl start P g h) {unit : ScheduleUnit}
    (hunit : g.units[id]? = some unit) :
    ∃ unit', h.units[id]? = some unit' ∧ unit'.controlSide = unit.controlSide := by
  have hunits := congrArg (fun g : Graph => g.units[id]?) hsame.side
  simp only [getElem?_controlSide, hunit, Option.map_some] at hunits
  exact Option.map_eq_some_iff.mp hunits

theorem SameControl.slot?_eq (hsame : SameControl start P g h) (hid : g.IsControl id) :
    h.slot? id = g.slot? id := by
  obtain ⟨unit, hunit, hcontrol⟩ := hid
  obtain ⟨unit', hunit', hside⟩ := hsame.exists_unit hunit
  rw [Graph.slot?_eq hunit, Graph.slot?_eq hunit',
    ScheduleUnit.slot_eq_of_controlSide_eq hside hcontrol]

theorem SameControl.class?_eq (hsame : SameControl start P g h) (hid : g.IsControl id) :
    h.class? id = g.class? id := by
  obtain ⟨unit, hunit, hcontrol⟩ := hid
  obtain ⟨unit', hunit', hside⟩ := hsame.exists_unit hunit
  rw [class?, hunit', class?, hunit]
  exact ScheduleUnit.valueClass_eq_of_controlSide_eq hside hcontrol

/-- Graphs with one control side have one frame, but for their intervals. -/
theorem SameControl.frame_eq (hsame : SameControl start P g h) :
    { h with intervals := g.intervals }.frame = g.frame := by
  have hframe : ∀ g : Graph, g.controlSide.frame = { g.frame with intervals := {} } := by
    intro g
    simp only [frame, controlSide, Array.map_map]
    rfl
  have hside := congrArg frame hsame.side
  rw [hframe, hframe] at hside
  exact congrArg (fun g' : Graph => { g' with intervals := g.intervals }) hside

theorem SameControl.endSlot_eq (hsame : SameControl start P g h) (hg : g.Listed) (block : BlockId) :
    h.endSlot block = g.endSlot block := by
  have hslots : ∀ {id}, g.IsControl id →
      { h with intervals := g.intervals }.slot? id = g.slot? id := hsame.slot?_eq
  have hends : { h with intervals := g.intervals }.endSlot block = g.endSlot block :=
    endSlot_eq_of_frame_eq hg hsame.frame_eq hslots
  exact hends

section

variable (hstart : start.OfBlock block entrySlot)

include hstart

/-- A restart does the same to graphs with one control side. -/
theorem parallel_resetControl (interval : Nat) :
    Step.Parallel (SameControl start P) (resetControl interval) (resetControl interval) := by
  have hlisted : ∀ {g : Graph}, g.skeleton = start.skeleton → g.Listed := fun hskeleton =>
    hstart.toListed.of_outline_eq (outline_eq_of_skeleton_eq hskeleton)
  have hclear : Step.Parallel (SameControl start P) (Step.updateChecked clearControl)
      (Step.updateChecked clearControl) :=
    parallel_change (fun hclear => setup_eq_of_frame_eq (clearControl_cases hclear).1)
      fun g hskeleton => clearControl_controlSide (hlisted hskeleton)
        (isControl_of_start hstart.root hskeleton)
  have hwiden : Step.Parallel (SameControl start P) (Step.updateChecked (widenExit · interval))
      (Step.updateChecked (widenExit · interval)) := by
    refine parallel_change (fun hwiden => ?_) fun _ _ => widenExit_controlSide interval
    obtain ⟨hskeleton, hintervals, _⟩ := widenExit_cases hwiden
    rw [setup, hskeleton, hintervals, setup]
  unfold resetControl
  apply hclear.bind
  intro _
  apply Step.parallel_ite
  · refine Step.parallel_current_bind fun g h hsame => ?_
    have hloopOp : h.loopOp = g.loopOp := hsame.eq_of_controlSide fun _ _ => rfl
    have hentryBlock : h.entryBlock = g.entryBlock := hsame.eq_of_controlSide fun _ _ => rfl
    have hentrySlot : h.entrySlot = g.entrySlot := hsame.eq_of_controlSide fun _ _ => rfl
    rw [hloopOp, hentryBlock, hentrySlot]
    cases hloop : g.loopOp with
    | none => exact Step.parallel_fail_bind _ _ _
    | some loopOp =>
        apply (Step.parallel_lift _).bind
        intro slot
        have hcontrol : start.IsControl loopOp := hstart.loop
          ((eq_of_skeleton_eq (·.loopOp) hsame.skeleton fun _ => rfl).symm.trans hloop)
        refine Step.Parallel.bind (parallel_change (fun hplace => ?_) fun g hskeleton =>
          place_controlSide (isControl_of_start hcontrol hskeleton)) fun _ => hwiden
        exact setup_eq_of_frame_eq (frame_changeUnit hplace fun _ => rfl)
  · exact hwiden

/-- Moves of graphs with one control side and one interval are delayed alike. -/
theorem parallel_delayPhis (hintervals : ∀ {t t'}, P t t' → t' = t) :
    Step.Parallel (SameControl start P) delayPhis delayPhis := by
  have hdelay : ∀ ends id, start.IsControl id →
      Step.Parallel (SameControl start P) (delayPhi ends id) (delayPhi ends id) := by
    intro ends id hid
    unfold delayPhi
    refine Step.parallel_current_bind fun g h hsame => ?_
    obtain ⟨unit, hunit, hcontrol⟩ := isControl_of_start hid hsame.skeleton
    obtain ⟨unit', hunit', hside⟩ := hsame.exists_unit hunit
    refine Step.parallel_lift_ok_bind (unit_eq_ok.mpr hunit) (unit_eq_ok.mpr hunit') ?_
    have hphi : unit'.phi = unit.phi := by simpa using congrArg ScheduleUnit.phi hside
    have hblock : unit'.block = unit.block := by simpa using congrArg ScheduleUnit.block hside
    have hinterval : h.interval? = g.interval? := by
      unfold interval?
      rw [hintervals hsame.intervals]
    rw [hphi, hblock, hinterval, ScheduleUnit.slot_eq_of_controlSide_eq hside hcontrol]
    split
    · split
      · exact Step.parallel_pure _
      · split
        · exact Step.parallel_fail _
        · apply (Step.parallel_lift _).bind
          intro moved
          refine Step.parallel_ite (Step.parallel_fail _) (parallel_change (fun hplace => ?_)
            fun g hskeleton => place_controlSide (isControl_of_start hid hskeleton))
          exact setup_eq_of_frame_eq (frame_changeUnit hplace fun _ => rfl)
    · exact Step.parallel_pure _
  unfold delayPhis
  refine Step.parallel_current_bind fun g h hsame => ?_
  have hlisted := hstart.toListed.of_outline_eq (outline_eq_of_skeleton_eq hsame.skeleton)
  have hcontrolUnits : h.controlUnits = g.controlUnits := hsame.eq_of_controlSide fun _ _ => rfl
  simp only [hsame.endSlot_eq hlisted, hintervals hsame.intervals, hcontrolUnits]
  apply Step.Parallel.bind
  · apply Step.parallel_mapM
    intro block
    exact (Step.parallel_lift _).bind fun _ => Step.parallel_pure _
  · exact fun ends => Step.parallel_forM fun id hid => hdelay ends id
      (isControl_of_outline_eq (outline_eq_of_skeleton_eq hsame.skeleton) (hlisted.control.mp hid))

end

end Graph

end SlotScheduling
