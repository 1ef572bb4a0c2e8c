import Mathlib.Data.List.Nodup
import SlotScheduling.Graph.Slots
import SlotScheduling.Proofs.Loops

/-!
# Changes of units

What a change of some units does to the graph.  Most of the scheduler only
decides slots, whether units dangle, and classes of values: it leaves the frame
of the graph as it is.  The search for a pipelined schedule also changes the
latencies of edges to the exit, but not the skeleton of the graph.
-/

namespace SlotScheduling

namespace ScheduleUnit

/-- The unit without what a scheduler decides. -/
def frame (unit : ScheduleUnit) : ScheduleUnit :=
  { unit with slot := none, dangling := true, valueClass := none }

/-- The unit without latencies of its dependencies, either. -/
def skeleton (unit : ScheduleUnit) : ScheduleUnit :=
  { unit.frame with
    deps := ⟨unit.deps.entries.map fun dep => (dep.1, dep.2.withLatency 0)⟩ }

/-- The units agree in what no scheduler decides. -/
structure Agrees (unit unit' : ScheduleUnit) : Prop where
  lead : unit.lead = unit'.lead
  fused : unit.fused = unit'.fused
  block : unit.block = unit'.block
  funcUnit : unit.funcUnit = unit'.funcUnit
  control : unit.control = unit'.control
  phi : unit.phi = unit'.phi
  deps : unit.deps = unit'.deps
  uses : unit.uses = unit'.uses
  fixedTiming : unit.fixedTiming = unit'.fixedTiming

theorem agrees_of_frame_eq {unit unit' : ScheduleUnit} (h : unit.frame = unit'.frame) :
    unit.Agrees unit' := by
  unfold frame at h
  injection h
  constructor <;> assumption

theorem control_of_skeleton_eq {unit unit' : ScheduleUnit} (h : unit.skeleton = unit'.skeleton) :
    unit.control = unit'.control := by
  simpa [skeleton, frame] using congrArg ScheduleUnit.control h

theorem block_of_skeleton_eq {unit unit' : ScheduleUnit} (h : unit.skeleton = unit'.skeleton) :
    unit.block = unit'.block := by
  simpa [skeleton, frame] using congrArg ScheduleUnit.block h

theorem funcUnit_of_skeleton_eq {unit unit' : ScheduleUnit}
    (h : unit.skeleton = unit'.skeleton) : unit.funcUnit = unit'.funcUnit := by
  simpa [skeleton, frame] using congrArg ScheduleUnit.funcUnit h

end ScheduleUnit

namespace Graph

/-- The graph without what a scheduler decides about its units. -/
def frame (g : Graph) : Graph := { g with units := g.units.map ScheduleUnit.frame }

/-- The graph without the latencies of the dependencies of its exit and without
intervals, either. -/
def skeleton (g : Graph) : Graph :=
  { g with
    units := g.units.mapIdx fun id unit =>
      if g.exitRoot = some id then unit.skeleton else unit.frame
    intervals := {} }

/-- The slot of a unit, if there is such a unit and it has one. -/
def slot? (g : Graph) (id : UnitId) : Option Nat := g.units[id]?.bind (·.slot)

/-- The edges that lead from one unit to another. -/
def bundle? (g : Graph) (target source : UnitId) : Option EdgeBundle :=
  g.units[target]?.bind (·.dep? source)

/-- The class of the result of a unit, if it has one. -/
def class? (g : Graph) (id : UnitId) : Option ValueClass := g.units[id]?.bind (·.valueClass)

/-- The unit exists and comes from a block whose schedule is frozen. -/
def IsFrozen (g : Graph) (id : UnitId) : Prop :=
  ∃ unit, g.units[id]? = some unit ∧ unit.fixedTiming = true

variable {g g' : Graph} {id : UnitId} {unit : ScheduleUnit}

theorem intervals_of_frame_eq (h : g'.frame = g.frame) : g'.intervals = g.intervals := by
  simpa [frame] using congrArg Graph.intervals h

theorem interval?_of_frame_eq (h : g'.frame = g.frame) : g'.interval? = g.interval? := by
  unfold interval?
  rw [intervals_of_frame_eq h]

theorem loopOp_of_frame_eq (h : g'.frame = g.frame) : g'.loopOp = g.loopOp := by
  simpa [frame] using congrArg Graph.loopOp h

theorem entrySlot_of_frame_eq (h : g'.frame = g.frame) : g'.entrySlot = g.entrySlot := by
  simpa [frame] using congrArg Graph.entrySlot h

theorem eq_of_skeleton_eq {α : Type} (f : Graph → α) (h : g'.skeleton = g.skeleton)
    (hf : ∀ g, f g.skeleton = f g) : f g' = f g := by
  rw [← hf, h, hf]

theorem unit_eq_ok : g.unit id = .ok unit ↔ g.units[id]? = some unit := by
  unfold Graph.unit
  cases g.units[id]? <;> simp [faulty]

theorem lt_size_of_getElem? (h : g.units[id]? = some unit) : id < g.units.size :=
  (Array.getElem?_eq_some_iff.mp h).1

theorem slot?_eq (h : g.units[id]? = some unit) : g.slot? id = unit.slot := by
  simp [slot?, h]

theorem changeUnit_eq_ok {change : ScheduleUnit → ScheduleUnit} :
    g.changeUnit id change = .ok g' ↔
      id < g.units.size ∧ g' = { g with units := g.units.modify id change } := by
  unfold changeUnit
  split
  next h => simp [h, eq_comm]
  next h => simp [h, faulty]

theorem getElem?_changeUnit {change : ScheduleUnit → ScheduleUnit}
    (h : g.changeUnit id change = .ok g') (other : UnitId) :
    g'.units[other]? =
      if id = other then g.units[other]?.map change else g.units[other]? := by
  obtain ⟨_, rfl⟩ := changeUnit_eq_ok.mp h
  exact Array.getElem?_modify

theorem exists_changeUnit {change : ScheduleUnit → ScheduleUnit}
    (h : g.changeUnit id change = .ok g') {other : UnitId} {P : ScheduleUnit → Prop} :
    (∃ unit, g'.units[other]? = some unit ∧ P unit) ↔
      ∃ unit, g.units[other]? = some unit ∧ P (if id = other then change unit else unit) := by
  rw [getElem?_changeUnit h]
  split
  next => simp
  next => rfl

theorem exists_changeUnit_iff {change : ScheduleUnit → ScheduleUnit}
    (h : g.changeUnit id change = .ok g') {other : UnitId} {P : ScheduleUnit → Prop}
    (hP : ∀ unit, P (change unit) ↔ P unit) :
    (∃ unit, g'.units[other]? = some unit ∧ P unit) ↔
      ∃ unit, g.units[other]? = some unit ∧ P unit := by
  rw [exists_changeUnit h]
  refine exists_congr fun unit => and_congr_right fun _ => ?_
  split
  · exact hP unit
  · rfl

theorem skeleton_eq_of_frame_eq (h : g'.frame = g.frame) : g'.skeleton = g.skeleton := by
  have hskeleton : ∀ g : Graph, g.frame.skeleton = g.skeleton := by
    intro g
    simp only [skeleton, frame]
    congr 1
    refine Array.ext_getElem? fun id => ?_
    simp only [Array.getElem?_mapIdx, Array.getElem?_map, Option.map_map]
    rfl
  rw [← hskeleton g', h, hskeleton g]

theorem map_modify_eq {α : Type} {f : ScheduleUnit → α} {units : Array ScheduleUnit}
    {change : ScheduleUnit → ScheduleUnit} (hchange : ∀ unit, f (change unit) = f unit) :
    (units.modify id change).map f = units.map f := by
  refine Array.ext_getElem? fun other => ?_
  rw [Array.getElem?_map, Array.getElem?_modify, Array.getElem?_map]
  split
  · cases units[other]? <;> simp [hchange]
  · rfl

theorem frame_changeUnit {change : ScheduleUnit → ScheduleUnit}
    (h : g.changeUnit id change = .ok g')
    (hchange : ∀ unit, (change unit).frame = unit.frame) : g'.frame = g.frame := by
  obtain ⟨_, rfl⟩ := changeUnit_eq_ok.mp h
  simp only [frame, map_modify_eq hchange]

theorem skeleton_changeUnit {change : ScheduleUnit → ScheduleUnit}
    (hexit : g.exitRoot = some id) (h : g.changeUnit id change = .ok g')
    (hchange : ∀ unit, (change unit).skeleton = unit.skeleton) :
    g'.skeleton = g.skeleton := by
  obtain ⟨_, rfl⟩ := changeUnit_eq_ok.mp h
  simp only [skeleton]
  congr 1
  refine Array.ext_getElem? fun other => ?_
  simp only [Array.getElem?_mapIdx, Array.getElem?_modify]
  by_cases heq : id = other
  · subst heq
    cases g.units[id]? <;> simp [hexit, hchange]
  · simp only [if_neg heq]

theorem frame_changeUnits {change : ScheduleUnit → ScheduleUnit} {ids : List UnitId}
    (h : g.changeUnits ids change = .ok g')
    (hchange : ∀ unit, (change unit).frame = unit.frame) : g'.frame = g.frame :=
  Checked.foldlM_induction (P := fun g' => g'.frame = g.frame)
    (fun _ _ _ _ hframe hround => (frame_changeUnit hround hchange).trans hframe) rfl h

/-- Units that are there can be changed. -/
theorem exists_changeUnits {change : ScheduleUnit → ScheduleUnit} {ids : List UnitId}
    (hids : ∀ id ∈ ids, id < g.units.size) : ∃ g', g.changeUnits ids change = .ok g' := by
  refine (Checked.exists_foldlM (P := fun now : Graph => now.units.size = g.units.size)
    (fun id hid now hsize => ?_) rfl).imp fun _ h => h.1
  exact ⟨_, changeUnit_eq_ok.mpr ⟨hsize ▸ hids id hid, rfl⟩, by simpa using hsize⟩

theorem frame_placeAll {placements : List (UnitId × Nat)}
    (h : g.placeAll placements = .ok g') : g'.frame = g.frame := by
  refine Checked.foldlM_induction (P := fun g' => g'.frame = g.frame)
    (fun placement _ g₁ g₂ hframe hround => ?_) rfl h
  have hplaced : g₂.frame = g₁.frame := frame_changeUnit hround fun _ => rfl
  exact hplaced.trans hframe

theorem class?_changeUnit {change : ScheduleUnit → ScheduleUnit}
    (h : g.changeUnit id change = .ok g')
    (hchange : ∀ unit, g.units[id]? = some unit → (change unit).valueClass = unit.valueClass) :
    g'.class? = g.class? := by
  funext other
  simp only [class?, getElem?_changeUnit h]
  split
  next heq =>
    subst heq
    cases hunit : g.units[id]? with
    | none => rfl
    | some unit => exact hchange unit hunit
  next => rfl

theorem class?_changeUnits {change : ScheduleUnit → ScheduleUnit} {ids : List UnitId}
    (h : g.changeUnits ids change = .ok g')
    (hchange : ∀ unit, (change unit).valueClass = unit.valueClass) : g'.class? = g.class? :=
  Checked.foldlM_induction (P := fun g' => g'.class? = g.class?)
    (fun _ _ _ _ hsame hround => (class?_changeUnit hround fun unit _ => hchange unit).trans hsame)
    rfl h

theorem class?_placeAll {placements : List (UnitId × Nat)} (h : g.placeAll placements = .ok g') :
    g'.class? = g.class? := by
  refine Checked.foldlM_induction (P := fun g' => g'.class? = g.class?)
    (fun placement _ g₁ g₂ hsame hround => ?_) rfl h
  have hplaced : g₂.class? = g₁.class? := class?_changeUnit hround fun _ _ => rfl
  exact hplaced.trans hsame

/-! ## Units of graphs with the same frame -/

theorem exists_of_frame_eq (h : g'.frame = g.frame) (hunit : g'.units[id]? = some unit) :
    ∃ unit', g.units[id]? = some unit' ∧ unit.Agrees unit' := by
  have hmap : g'.units.map ScheduleUnit.frame = g.units.map ScheduleUnit.frame :=
    congrArg Graph.units h
  have hget := congrArg (fun units => units[id]?) hmap
  simp only [Array.getElem?_map, hunit, Option.map_some] at hget
  obtain ⟨unit', hunit', heq⟩ := Option.map_eq_some_iff.mp hget.symm
  exact ⟨unit', hunit', ScheduleUnit.agrees_of_frame_eq heq.symm⟩

theorem bundle?_eq (hunit : g.units[id]? = some unit) (source : UnitId) :
    g.bundle? id source = unit.dep? source := by
  simp [bundle?, hunit]

theorem exists_of_bundle? {source : UnitId} {bundle : EdgeBundle}
    (h : g.bundle? id source = some bundle) :
    ∃ unit, g.units[id]? = some unit ∧ unit.dep? source = some bundle :=
  Option.bind_eq_some_iff.mp h

theorem bundle?_of_frame_eq (h : g'.frame = g.frame) : g'.bundle? = g.bundle? := by
  have hbundle : ∀ g : Graph, g.frame.bundle? = g.bundle? := by
    intro g
    funext target source
    simp only [bundle?, frame, Array.getElem?_map]
    cases g.units[target]? <;> rfl
  rw [← hbundle g', h, hbundle g]

theorem isFrozen_of_frame_eq (h : g'.frame = g.frame) : g'.IsFrozen id ↔ g.IsFrozen id := by
  have hfrozen : ∀ {g g' : Graph}, g'.frame = g.frame → g'.IsFrozen id → g.IsFrozen id := by
    rintro g g' h ⟨unit, hunit, hfixed⟩
    obtain ⟨unit', hunit', hagree⟩ := exists_of_frame_eq h hunit
    exact ⟨unit', hunit', hagree.fixedTiming ▸ hfixed⟩
  exact ⟨hfrozen h, hfrozen h.symm⟩

/-- Only the exit can differ in more than what a scheduler decides. -/
theorem exists_of_skeleton_eq (h : g'.skeleton = g.skeleton)
    (hunit : g'.units[id]? = some unit) :
    ∃ unit', g.units[id]? = some unit' ∧ unit.skeleton = unit'.skeleton ∧
      (g.exitRoot ≠ some id → unit.Agrees unit') := by
  have hroot : g'.exitRoot = g.exitRoot := by simpa [skeleton] using congrArg Graph.exitRoot h
  have hget := congrArg (fun g : Graph => g.units[id]?) h
  simp only [skeleton, Array.getElem?_mapIdx, hunit, Option.map_some, hroot] at hget
  obtain ⟨unit', hunit', heq⟩ := Option.map_eq_some_iff.mp hget.symm
  refine ⟨unit', hunit', ?_⟩
  split at heq
  next hexit => exact ⟨heq.symm, fun hne => absurd hexit hne⟩
  next =>
    have hskeleton := congrArg ScheduleUnit.skeleton heq
    exact ⟨hskeleton.symm, fun _ => ScheduleUnit.agrees_of_frame_eq heq.symm⟩

theorem size_eq_of_skeleton_eq (h : g'.skeleton = g.skeleton) :
    g'.units.size = g.units.size := by
  have hsize := congrArg (fun g : Graph => g.units.size) h
  simpa [skeleton] using hsize

/-- The edges to any unit but the exit belong to the skeleton. -/
theorem bundle?_of_skeleton_eq (h : g'.skeleton = g.skeleton) (hid : g.exitRoot ≠ some id) :
    g'.bundle? id = g.bundle? id := by
  funext source
  cases hunit : g'.units[id]? with
  | some unit =>
      obtain ⟨unit', hunit', _, hagree⟩ := exists_of_skeleton_eq h hunit
      rw [bundle?_eq hunit, bundle?_eq hunit', ScheduleUnit.dep?, (hagree hid).deps,
        ScheduleUnit.dep?]
  | none =>
      have hsize := size_eq_of_skeleton_eq h
      have hnone : g.units[id]? = none := by
        rw [Array.getElem?_eq_none_iff] at hunit ⊢
        omega
      simp [bundle?, hunit, hnone]

/-! ## Slots -/

theorem getElem?_changeUnits_of_not_mem {change : ScheduleUnit → ScheduleUnit}
    {ids : List UnitId} (hid : id ∉ ids) (h : g.changeUnits ids change = .ok g') :
    g'.units[id]? = g.units[id]? := by
  refine Checked.foldlM_induction (P := fun g' => g'.units[id]? = g.units[id]?)
    (fun other hother g₁ g₂ hsame hround => ?_) rfl h
  have hne : other ≠ id := fun heq => hid (heq ▸ hother)
  rw [getElem?_changeUnit hround, if_neg hne, hsame]

theorem getElem?_changeUnits_of_mem {change : ScheduleUnit → ScheduleUnit}
    {ids : List UnitId} (hid : id ∈ ids) (h : g.changeUnits ids change = .ok g')
    (hchange : ∀ unit, change (change unit) = change unit) :
    g'.units[id]? = g.units[id]?.map change := by
  have hall := Checked.foldlM_forall
    (P := fun g' => g'.units[id]? = g.units[id]? ∨
      g'.units[id]? = g.units[id]?.map change)
    (Q := fun other g' => other = id → g'.units[id]? = g.units[id]?.map change) ?_
    (Or.inl rfl) h
  · exact hall.2 id hid rfl
  intro other _ g₁ g₂ hcases hround
  have hget := getElem?_changeUnit hround id
  by_cases heq : other = id
  · rw [if_pos heq] at hget
    have hdone : g₂.units[id]? = g.units[id]?.map change := by
      rw [hget]
      rcases hcases with hsame | hdone
      · rw [hsame]
      · rw [hdone, Option.map_map]
        congr 1
        exact funext hchange
    exact ⟨Or.inr hdone, fun _ => hdone, fun _ _ _ => hdone⟩
  · rw [if_neg heq] at hget
    refine ⟨hget ▸ hcases, fun h => absurd h heq, fun _ hdone h => ?_⟩
    rw [hget]
    exact hdone h

theorem getElem?_placeAll_of_not_mem {placements : List (UnitId × Nat)}
    (hid : id ∉ placements.map Prod.fst) (h : g.placeAll placements = .ok g') :
    g'.units[id]? = g.units[id]? := by
  refine Checked.foldlM_induction (P := fun g' => g'.units[id]? = g.units[id]?)
    (fun placement hplacement g₁ g₂ hsame hround => ?_) rfl h
  have hne : placement.1 ≠ id :=
    fun heq => hid (heq ▸ List.mem_map_of_mem hplacement)
  rw [getElem?_changeUnit hround, if_neg hne, hsame]

/-- Where no unit is placed twice, every unit gets the slot it was given. -/
theorem slot?_placeAll {placements : List (UnitId × Nat)}
    (hnodup : (placements.map Prod.fst).Nodup) {slot : Nat}
    (hmem : (id, slot) ∈ placements) (h : g.placeAll placements = .ok g') :
    g'.slot? id = some slot := by
  induction placements generalizing g with
  | nil => exact absurd hmem List.not_mem_nil
  | cons placement rest ih =>
      unfold placeAll at h
      rw [List.foldlM_cons] at h
      obtain ⟨middle, hmiddle, hrest⟩ := Checked.bind_eq_ok.mp h
      rw [List.map_cons, List.nodup_cons] at hnodup
      rcases List.mem_cons.mp hmem with rfl | hmem
      · obtain ⟨hlt, _⟩ := changeUnit_eq_ok.mp hmiddle
        have hget := getElem?_changeUnit hmiddle id
        rw [if_pos rfl, Array.getElem?_eq_getElem hlt] at hget
        have hlast := getElem?_placeAll_of_not_mem hnodup.1 hrest
        rw [hget] at hlast
        exact slot?_eq hlast
      · exact ih hnodup.2 hmem hrest

end Graph

end SlotScheduling
