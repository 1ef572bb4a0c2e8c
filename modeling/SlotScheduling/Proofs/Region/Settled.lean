import SlotScheduling.Proofs.ControlPath
import SlotScheduling.Proofs.Placement.Classes

/-!
# Settled regions

A graph of several blocks is scheduled as straight-line code.  Its control path
starts at the entry slot, and every edge within one iteration is met that leads to
a control unit or to a data-path unit that does not dangle; an edge of fixed timing
is met exactly.
-/

namespace SlotScheduling

/-- The unit without what a scheduler decides and without its dependencies. -/
def ScheduleUnit.body (unit : ScheduleUnit) : ScheduleUnit := unit.frame.bare

section

variable {unit unit' : ScheduleUnit} (h : unit.body = unit'.body)

include h

theorem ScheduleUnit.block_of_body_eq : unit.block = unit'.block := by
  have hblock := congrArg ScheduleUnit.block h
  exact hblock

theorem ScheduleUnit.control_of_body_eq : unit.control = unit'.control := by
  have hcontrol := congrArg ScheduleUnit.control h
  exact hcontrol

theorem ScheduleUnit.fixedTiming_of_body_eq : unit.fixedTiming = unit'.fixedTiming := by
  have hfixed := congrArg ScheduleUnit.fixedTiming h
  exact hfixed

end

namespace Graph

/-- The graph without what a scheduler decides and without its dependencies. -/
def body (g : Graph) : Graph :=
  { g with units := g.units.map ScheduleUnit.body, intervals := {} }

variable {g g' : Graph} {id : UnitId} {options : SchedulingOptions}
  {now last : Journaled Graph} {result : PUnit}

theorem body_eq_of_bare_eq (h : g'.bare = g.bare) : g'.body = g.body := by
  have hbody : ∀ g : Graph, g.bare.body = g.body := by
    intro g
    simp only [bare, body, Array.map_map]
    rfl
  rw [← hbody g', h, hbody g]

theorem body_eq_of_skeleton_eq (h : g'.skeleton = g.skeleton) : g'.body = g.body := by
  have hbody : ∀ g : Graph, g.skeleton.body = g.body := by
    intro g
    simp only [skeleton, body]
    congr 1
    refine Array.ext_getElem? fun id => ?_
    simp only [Array.getElem?_map, Array.getElem?_mapIdx, Option.map_map]
    congr 1
    funext unit
    simp only [Function.comp]
    split <;> rfl
  rw [← hbody g', h, hbody g]

theorem body_eq_of_frame_eq (h : g'.frame = g.frame) : g'.body = g.body :=
  body_eq_of_skeleton_eq (skeleton_eq_of_frame_eq h)

theorem getElem?_of_body_eq (h : g'.body = g.body) (id : UnitId) :
    g'.units[id]?.map ScheduleUnit.body = g.units[id]?.map ScheduleUnit.body := by
  have hget := congrArg (fun g : Graph => g.units[id]?) h
  simpa [body] using hget

theorem isControl_iff_of_body_eq (h : g'.body = g.body) : g'.IsControl id ↔ g.IsControl id :=
  exists_iff_of_map_eq (getElem?_of_body_eq h id) fun _ => Iff.rfl

theorem isData_iff_of_body_eq (h : g'.body = g.body) : g'.IsData id ↔ g.IsData id :=
  exists_iff_of_map_eq (getElem?_of_body_eq h id) fun _ => Iff.rfl

theorem isFrozen_iff_of_body_eq (h : g'.body = g.body) : g'.IsFrozen id ↔ g.IsFrozen id :=
  exists_iff_of_map_eq (getElem?_of_body_eq h id) fun _ => Iff.rfl

theorem exists_of_body_eq (h : g'.body = g.body) {unit : ScheduleUnit}
    (hunit : g'.units[id]? = some unit) :
    ∃ unit', g.units[id]? = some unit' ∧ unit.body = unit'.body := by
  have hget := getElem?_of_body_eq h id
  rw [hunit, Option.map_some] at hget
  obtain ⟨unit', hunit', heq⟩ := Option.map_eq_some_iff.mp hget.symm
  exact ⟨unit', hunit', heq.symm⟩

theorem exitRoot_of_body_eq (h : g'.body = g.body) : g'.exitRoot = g.exitRoot := by
  have hroot := congrArg Graph.exitRoot h
  exact hroot

/-! ## The control path -/

/-- A graph of several blocks that is not pipelined and has no schedule yet. -/
structure Ready (g : Graph) : Prop extends WellFormed g where
  straight : g.isPipelined = false
  root : g.IsControl g.entryRoot
  exit : g.HasExit
  free : ∀ {id}, g.IsData id → g.slot? id = none
  braced : DataPath.Braced g

/-- The second graph is the first one with its control path placed.  Dependencies
of the data path stay as they are. -/
structure Walked (g g' : Graph) : Prop where
  wellFormed : g'.WellFormed
  body : g'.body = g.body
  intervals : g'.intervals = g.intervals
  path : DataPath.HasControlPath g.entrySlot g'
  entry : g'.slot? g.entryRoot = some g.entrySlot
  free : ∀ {id}, g.IsData id → g'.slot? id = none
  edges : ∀ {target source}, g.exitRoot ≠ some target → g.IsData target ∨ g.IsData source →
    g'.bundle? target source = g.bundle? target source
  met : ∀ {target source : UnitId} {bundle : EdgeBundle} {s t : Nat},
    g.exitRoot ≠ some target → g.bundle? target source = some bundle →
    bundle.edge.distance = 0 → g.IsControl target → g.IsControl source →
    g'.slot? source = some s → g'.slot? target = some t →
    bundle.edge.Admits bundle.edge.latency ((t : Int) - (s : Int))
  last : ∀ {exit source : UnitId} {bundle : EdgeBundle} {s t : Nat}, g.exitRoot = some exit →
    g.bundle? exit source = some bundle → bundle.edge.distance = 0 → g.IsControl source →
    g'.slot? source = some s → g'.slot? exit = some t → s ≤ t
  exclusive : ∀ {u v : UnitId} {unit unit' : ScheduleUnit}, u ≠ v →
    g.units[u]? = some unit → unit.control = true → g.units[v]? = some unit' →
    unit'.control = true → unit.block = unit'.block → unit.funcUnit = unit'.funcUnit →
    unit.funcUnit.isTrivial = false → g'.slot? u ≠ g'.slot? v

section

variable {cleared middle : Graph} {bounds : ControlBounds} (hg : g.Ready)
  (hskeleton : cleared.skeleton = g.skeleton)
  (hplaced : ControlSystem.Placed cleared bounds middle)

include hg hskeleton

theorem Ready.mem_controlUnits (hid : g.IsControl id) : id ∈ cleared.controlUnits :=
  have houtline := outline_eq_of_skeleton_eq hskeleton
  (hg.toListed.of_outline_eq houtline).control.mpr (isControl_of_outline_eq houtline.symm hid)

include hplaced

/-- The control path of a graph starts at its entry slot once it is placed. -/
theorem Ready.hasControlPath (hentry : cleared.slot? g.entryRoot = some g.entrySlot)
    (hcleared : ∀ {id}, g.IsControl id → id ≠ g.entryRoot → cleared.slot? id = none) :
    DataPath.HasControlPath g.entrySlot middle := by
  have houtline := outline_eq_of_skeleton_eq hskeleton
  have hlisted : cleared.Listed := hg.toListed.of_outline_eq houtline
  have hmiddle : middle.Listed := hlisted.of_outline_eq
    (outline_eq_of_skeleton_eq (skeleton_eq_of_frame_eq hplaced.frame))
  have hstart : cleared.entrySlot = g.entrySlot := by
    have hstart := congrArg Graph.entrySlot hskeleton
    exact hstart
  have hword : g.entrySlot < Word.count := by
    obtain ⟨exit, _, hcontrol, hne⟩ := hg.exit
    have hmem := hg.mem_controlUnits hskeleton hcontrol
    obtain ⟨slot, hslot⟩ := hplaced.scheduled hmem
    have hrange := hplaced.range hmem (hcleared hcontrol hne) hslot
    omega
  refine hplaced.hasControlPath hmiddle ?_ fun {id slot} hid hslot => ?_
  · rw [entrySlot_of_frame_eq hplaced.frame, hstart]
  · by_cases hroot : id = g.entryRoot
    · rw [hroot, hentry] at hslot
      cases hslot
      exact ⟨le_rfl, hword⟩
    · rw [hcleared (isControl_of_outline_eq houtline hid) hroot] at hslot
      cases hslot

/-- Edges between control units are met within one iteration once these are placed.  The edges
of the exit keep all but their latencies until then. -/
theorem Ready.exists_admits_of_placed {target source : UnitId} {bundle : EdgeBundle} {s t : Nat}
    (hbundle : g.bundle? target source = some bundle)
    (hdistance : bundle.edge.distance = 0) (htarget : g.IsControl target)
    (hsource : g.IsControl source) (hs : middle.slot? source = some s)
    (ht : middle.slot? target = some t) :
    ∃ bundle', cleared.bundle? target source = some bundle' ∧
      bundle'.edge.Admits bundle'.edge.latency ((t : Int) - (s : Int)) := by
  have houtline := outline_eq_of_skeleton_eq hskeleton
  obtain ⟨bundle', hbundle', hsame⟩ := exists_bundle_of_outline_eq houtline.symm hbundle
  have hlocal : bundle'.edge.distance = 0 := by
    have hlocal := congrArg (fun bundle : EdgeBundle => bundle.edge.distance) hsame
    exact hlocal.symm.trans hdistance
  obtain ⟨unit, hunit, hdep⟩ := exists_of_bundle? hbundle'
  obtain ⟨offset?, hoffset, hmeets⟩ := hplaced.deps (hg.mem_controlUnits hskeleton htarget) hunit
    (Table.mem_entries_of_get?_eq_some hdep) ht
  rw [ControlBounds.offset?, DepEdge.offset?_of_distance_eq_zero hlocal] at hoffset
  cases hoffset
  exact ⟨bundle', hbundle', hmeets _ rfl (isControl_of_outline_eq houtline.symm hsource) s hs⟩

/-- Control units of one block do not share a slot of a function unit once they are placed. -/
theorem Ready.slot?_ne_of_placed (horder : ControlPath.InOrder cleared bounds) {u v : UnitId}
    {unit unit' : ScheduleUnit} (hne : u ≠ v) (hunit : g.units[u]? = some unit)
    (hcontrol : unit.control = true) (hunit' : g.units[v]? = some unit')
    (hcontrol' : unit'.control = true) (hblock : unit.block = unit'.block)
    (hsame : unit.funcUnit = unit'.funcUnit) (hshared : unit.funcUnit.isTrivial = false) :
    middle.slot? u ≠ middle.slot? v := by
  obtain ⟨start, hstart, heq, _⟩ := exists_of_skeleton_eq hskeleton.symm hunit
  obtain ⟨start', hstart', heq', _⟩ := exists_of_skeleton_eq hskeleton.symm hunit'
  have hfuncUnit := ScheduleUnit.funcUnit_of_skeleton_eq heq
  refine hplaced.exclusive horder hne (hg.mem_controlUnits hskeleton ⟨unit, hunit, hcontrol⟩)
    (hg.mem_controlUnits hskeleton ⟨unit', hunit', hcontrol'⟩) hstart hstart' ?_ ?_
    (hfuncUnit ▸ hshared)
  · rw [← ScheduleUnit.block_of_skeleton_eq heq, hblock, ScheduleUnit.block_of_skeleton_eq heq']
  · rw [← hfuncUnit, hsame, ScheduleUnit.funcUnit_of_skeleton_eq heq']

theorem walked_of_placed (hintervals : cleared.intervals = g.intervals)
    (hentry : cleared.slot? g.entryRoot = some g.entrySlot)
    (hcleared : ∀ {id}, g.IsControl id → id ≠ g.entryRoot → cleared.slot? id = none)
    (hfree : ∀ {id}, g.IsData id → cleared.slot? id = none)
    (horder : ControlPath.InOrder cleared bounds)
    (hrewired : Rewired (fun id => (middle.slot? id).isSome) middle g') : Walked g g' := by
  have houtline := outline_eq_of_skeleton_eq hskeleton
  have hlisted : cleared.Listed := hg.toListed.of_outline_eq houtline
  have hslots : ∀ id, g'.slot? id = middle.slot? id := slot?_of_bare_eq hrewired.bare
  have hmiddleFree : ∀ {id}, g.IsData id → middle.slot? id = none := by
    intro id hid
    have hnot : id ∉ cleared.controlUnits := fun hmem =>
      (isControl_of_outline_eq houtline (hlisted.control.mp hmem)).not_isData hid
    rw [hplaced.untouched hnot, hfree hid]
  have hbundles : ∀ {target}, g.exitRoot ≠ some target →
      middle.bundle? target = g.bundle? target := by
    intro target htarget
    rw [bundle?_of_frame_eq hplaced.frame, bundle?_of_skeleton_eq hskeleton htarget]
  refine ⟨hrewired.wellFormed, ?_, ?_, fun id hid => ?_, ?_, fun hid => ?_, fun hexit hdata => ?_,
    ?_, ?_, ?_⟩
  · rw [body_eq_of_bare_eq hrewired.bare, body_eq_of_frame_eq hplaced.frame,
      body_eq_of_skeleton_eq hskeleton]
  · have hsame := congrArg Graph.intervals hrewired.bare
    exact hsame.trans ((intervals_of_frame_eq hplaced.frame).trans hintervals)
  · rw [hslots]
    exact hg.hasControlPath hskeleton hplaced hentry hcleared id
      ((isControl_iff_of_bare_eq hrewired.bare).mp hid)
  · rw [hslots, hplaced.kept hentry]
  · rw [hslots, hmiddleFree hid]
  · rw [hrewired.kept, hbundles hexit]
    rintro ⟨htarget, hsource⟩
    rcases hdata with hdata | hdata
    · simp [hmiddleFree hdata] at htarget
    · simp [hmiddleFree hdata] at hsource
  · intro target source bundle s t hexit hbundle hdistance htarget hsource hs ht
    rw [hslots] at hs ht
    obtain ⟨bundle', hbundle', hadmits⟩ :=
      hg.exists_admits_of_placed hskeleton hplaced hbundle hdistance htarget hsource hs ht
    rw [bundle?_of_skeleton_eq hskeleton hexit, hbundle] at hbundle'
    exact Option.some.inj hbundle' ▸ hadmits
  · intro exit source bundle s t hexit hbundle hdistance hsource hs ht
    rw [hslots] at hs ht
    obtain ⟨exit', hexit', hcontrol, _⟩ := hg.exit
    obtain rfl := Option.some.inj (hexit.symm.trans hexit')
    obtain ⟨bundle', _, hadmits⟩ :=
      hg.exists_admits_of_placed hskeleton hplaced hbundle hdistance hcontrol hsource hs ht
    have hle := hadmits.le
    omega
  · intro u v unit unit' hne hunit hcontrol hunit' hcontrol' hblock hsame hshared
    rw [hslots, hslots]
    exact hg.slot?_ne_of_placed hskeleton hplaced horder hne hunit hcontrol hunit' hcontrol' hblock
      hsame hshared

end

theorem scheduleStraight_walked (hg : now.state.Ready)
    (h : scheduleStraight options now = .ok result last) : Walked now.state last.state := by
  obtain ⟨_, cleared, hreset, h⟩ := Step.bind_eq_ok.mp h
  obtain ⟨hskeleton, hentry, hcleared⟩ := resetControl_zero_eq_ok hreset
  have hkept := (keeps_resetControl 0).of_eq_ok hreset
  have hintervals : cleared.state.intervals = now.state.intervals := congrArg Prod.snd hkept
  have hnone : ∀ {id}, now.state.IsControl id → id ≠ now.state.entryRoot →
      cleared.state.slot? id = none := fun hid hne => hcleared _ (hg.control.mpr hid) hne
  have hfree : ∀ {id}, now.state.IsData id → cleared.state.slot? id = none := by
    intro id hid
    rw [slot?_resetControl_zero hreset, hg.free hid]
    · rintro rfl
      exact hg.root.not_isData hid
    · exact fun hmem => (hg.control.mp hmem).not_isData hid
  have hlisted := hg.toListed.of_outline_eq (outline_eq_of_skeleton_eq hskeleton)
  obtain ⟨_, noted, hnote, h⟩ := Step.bind_eq_ok.mp h
  obtain rfl := Step.note_eq_ok.mp hnote
  have hsome : ∃ id ∈ cleared.state.controlUnits, cleared.state.slot? id = none := by
    obtain ⟨exit, _, hcontrol, hne⟩ := hg.exit
    refine ⟨exit, hlisted.control.mpr ?_, hnone hcontrol hne⟩
    exact isControl_of_outline_eq (outline_eq_of_skeleton_eq hskeleton).symm hcontrol
  obtain ⟨g, bounds, hframe, hslots, _, horder, middle, _, hplaced, hend⟩ :=
    ControlPath.schedule_cases h hentry hsome
  have hwhole := (skeleton_eq_of_frame_eq hframe).trans hskeleton
  have hmiddle : middle.state.WellFormed := by
    refine hg.toWellFormed.of_outline_eq (outline_eq_of_skeleton_eq ?_)
    exact (skeleton_eq_of_frame_eq hplaced.frame).trans hwhole
  refine walked_of_placed hg hwhole hplaced ((intervals_of_frame_eq hframe).trans hintervals)
    ((hslots _).trans hentry) (fun hid hne => (hslots _).trans (hnone hid hne))
    (fun hid => (hslots _).trans (hfree hid)) horder (reanchor_rewired hmiddle hend)

/-! ## The whole schedule -/

/-- The second graph is the first one with its schedule. -/
structure Settled (g g' : Graph) : Prop where
  body : g'.body = g.body
  intervals : g'.intervals = g.intervals
  placed : ∀ {id}, id < g.units.size → ∃ slot, g'.slot? id = some slot
  path : DataPath.HasControlPath g.entrySlot g'
  entry : g'.slot? g.entryRoot = some g.entrySlot
  started : ∀ {id entry : UnitId} {unit : ScheduleUnit} {first slot : Nat},
    g.units[id]? = some unit → unit.control = false → unit.fixedTiming = false →
    g'.IsNeeded id → g.holder? (.entry unit.block) = some entry → g.IsControl entry →
    g'.slot? entry = some first → g'.slot? id = some slot → first ≤ slot
  dangling : ∀ {id : UnitId} {unit : ScheduleUnit}, g.units[id]? = some unit →
    unit.control = false → ¬g'.IsNeeded id → ∃ (other : UnitId) (unit' : ScheduleUnit),
    g.units[other]? = some unit' ∧ unit'.control = true ∧ unit'.block = unit.block ∧
    g'.slot? id = g'.slot? other
  last : ∀ {exit source : UnitId} {bundle : EdgeBundle} {s t : Nat}, g.exitRoot = some exit →
    g.bundle? exit source = some bundle → bundle.edge.distance = 0 → g.IsControl source →
    g'.slot? source = some s → g'.slot? exit = some t → s ≤ t
  frozen : ∀ {id}, g.IsData id → g.IsFrozen id → g'.IsNeeded id
  sources : ∀ {target source : UnitId} {consumer producer : ScheduleUnit} {bundle : EdgeBundle},
    g.units[target]? = some consumer → consumer.control = true → g.exitRoot ≠ some target →
    g.units[source]? = some producer → producer.control = false →
    g.bundle? target source = some bundle → producer.block = consumer.block → g'.IsNeeded source
  met : ∀ {target source : UnitId} {bundle : EdgeBundle} {s t : Nat},
    g.exitRoot ≠ some target → g.bundle? target source = some bundle →
    bundle.edge.distance = 0 → g.IsControl target ∨ g'.IsNeeded target →
    g.IsControl source ∨ g'.IsNeeded source ∨ g.IsData target →
    g'.slot? source = some s → g'.slot? target = some t →
    bundle.edge.Admits bundle.edge.latency ((t : Int) - (s : Int))
  exclusive : ∀ {u v : UnitId} {unit unit' : ScheduleUnit}, u ≠ v →
    g.units[u]? = some unit → unit.control = true → g.units[v]? = some unit' →
    unit'.control = true → unit.block = unit'.block → unit.funcUnit = unit'.funcUnit →
    unit.funcUnit.isTrivial = false → g'.slot? u ≠ g'.slot? v

/-- Frozen units of the data path keep their braces while the control path is placed. -/
theorem Walked.braced (h : Walked g g') (hg : g.Ready) : DataPath.Braced g' := by
  intro id hdata hfrozen
  have hdata := (isData_iff_of_body_eq h.body).mp hdata
  obtain ⟨anchor, bundle, distance, hanchor, hexit, hbundle, hedge⟩ :=
    hg.braced hdata ((isFrozen_iff_of_body_eq h.body).mp hfrozen)
  refine ⟨anchor, bundle, distance, (isControl_iff_of_body_eq h.body).mpr hanchor, ?_, ?_, hedge⟩
  · rw [exitRoot_of_body_eq h.body]
    exact hexit
  · obtain ⟨exit, hroot, hcontrol, _⟩ := hg.exit
    have hid : g.exitRoot ≠ some id := by
      rw [hroot]
      intro heq
      exact hcontrol.not_isData (Option.some.inj heq ▸ hdata)
    rw [h.edges hid (Or.inl hdata), h.edges hexit (Or.inr hdata)]
    exact hbundle

section

variable {g'' : Graph} (h : Walked g g') (harranged : DataPath.Arranged g' g'')

include h harranged

theorem Walked.bundle?_eq {target source : UnitId} (hexit : g.exitRoot ≠ some target)
    (hdata : g.IsData target ∨ g.IsData source) :
    g''.bundle? target source = g.bundle? target source := by
  rw [bundle?_of_frame_eq harranged.frame, h.edges hexit hdata]

theorem Walked.slot?_eq (hid : g.IsControl id) : g''.slot? id = g'.slot? id :=
  harranged.control ((isControl_iff_of_body_eq h.body).mpr hid)

/-- A unit of the data path that does not dangle starts with its block. -/
theorem Walked.started {entry : UnitId} {unit : ScheduleUnit} {first slot : Nat}
    (hunit : g.units[id]? = some unit) (hdata : unit.control = false)
    (hunfrozen : unit.fixedTiming = false) (hneeded : g''.IsNeeded id)
    (hholder : g.holder? (.entry unit.block) = some entry) (hroot : g.IsControl entry)
    (hfirst : g''.slot? entry = some first) (hslot : g''.slot? id = some slot) :
    first ≤ slot := by
  obtain ⟨unit', hunit', heq⟩ := exists_of_body_eq h.body.symm hunit
  have hholders : g'.holder? = g.holder? := by
    have hholders := congrArg Graph.holder? h.body
    exact hholders
  rw [ScheduleUnit.block_of_body_eq heq, ← hholders] at hholder
  exact harranged.started hunit' (ScheduleUnit.control_of_body_eq heq ▸ hdata)
    (ScheduleUnit.fixedTiming_of_body_eq heq ▸ hunfrozen) hneeded hholder
    ((isControl_iff_of_body_eq h.body).mpr hroot)
    ((h.slot?_eq harranged hroot).symm.trans hfirst) hslot

/-- A unit that dangles issues together with a control unit of its block. -/
theorem Walked.dangling {unit : ScheduleUnit} (hunit : g.units[id]? = some unit)
    (hdata : unit.control = false) (hnot : ¬g''.IsNeeded id) :
    ∃ (other : UnitId) (unit' : ScheduleUnit), g.units[other]? = some unit' ∧
      unit'.control = true ∧ unit'.block = unit.block ∧ g''.slot? id = g''.slot? other := by
  obtain ⟨walked, hwalked, heq⟩ := exists_of_body_eq h.body.symm hunit
  obtain ⟨end_, hend, hslot⟩ :=
    harranged.dangling hwalked (ScheduleUnit.control_of_body_eq heq ▸ hdata) hnot
  obtain ⟨⟨other, walked', hwalked', hcontrol, hblock, hother⟩, _⟩ :=
    (endSlot_eq_some h.wellFormed.toListed).mp hend
  obtain ⟨unit', hunit', heq'⟩ := exists_of_body_eq h.body hwalked'
  have hcontrol' := (ScheduleUnit.control_of_body_eq heq').symm.trans hcontrol
  refine ⟨other, unit', hunit', hcontrol', ?_, ?_⟩
  · rw [← ScheduleUnit.block_of_body_eq heq', hblock, ScheduleUnit.block_of_body_eq heq]
  · rw [hslot, h.slot?_eq harranged ⟨unit', hunit', hcontrol'⟩, Graph.slot?_eq hwalked', hother]

/-- What a control unit takes from the data path of its own block does not dangle. -/
theorem Walked.sources {target source : UnitId} {consumer producer : ScheduleUnit}
    {bundle : EdgeBundle} (hconsumer : g.units[target]? = some consumer)
    (hcontrol : consumer.control = true) (hexit : g.exitRoot ≠ some target)
    (hproducer : g.units[source]? = some producer) (hdata : producer.control = false)
    (hbundle : g.bundle? target source = some bundle)
    (hblock : producer.block = consumer.block) : g''.IsNeeded source := by
  rw [← h.edges hexit (Or.inr ⟨producer, hproducer, hdata⟩)] at hbundle
  obtain ⟨consumer', hconsumer', hdep⟩ := exists_of_bundle? hbundle
  obtain ⟨consumer'', hconsumer'', heq⟩ := exists_of_body_eq h.body hconsumer'
  obtain rfl := Option.some.inj (hconsumer.symm.trans hconsumer'')
  refine harranged.sources hconsumer' ((ScheduleUnit.control_of_body_eq heq).trans hcontrol)
    (Table.mem_keys_iff.mpr ⟨bundle, hdep⟩) fun {producer'} hproducer' => ?_
  obtain ⟨producer'', hproducer'', heq'⟩ := exists_of_body_eq h.body hproducer'
  obtain rfl := Option.some.inj (hproducer.symm.trans hproducer'')
  exact (ScheduleUnit.block_of_body_eq heq').trans
    (hblock.trans (ScheduleUnit.block_of_body_eq heq).symm)

variable {target source : UnitId} {bundle : EdgeBundle} {s t : Nat}
  (hexit : g.exitRoot ≠ some target) (hbundle : g.bundle? target source = some bundle)
  (hdistance : bundle.edge.distance = 0) (hs : g''.slot? source = some s)
  (ht : g''.slot? target = some t)

include hexit hbundle hdistance hs ht

/-- An edge from a needed unit of the data path to a control unit is met. -/
theorem Walked.met_use (htarget : g.IsControl target) (hsource : g.IsData source)
    (hneeded : g''.IsNeeded source) :
    bundle.edge.Admits bundle.edge.latency ((t : Int) - (s : Int)) := by
  have hbody : g''.body = g.body := (body_eq_of_frame_eq harranged.frame).trans h.body
  rw [← h.bundle?_eq harranged hexit (Or.inr hsource)] at hbundle
  obtain ⟨unit, hunit, hdep⟩ := exists_of_bundle? hbundle
  obtain ⟨unit', hunit', hflag⟩ := (isControl_iff_of_body_eq hbody).mpr htarget
  obtain rfl := Option.some.inj (hunit.symm.trans hunit')
  refine harranged.uses hunit hflag ((isData_iff_of_body_eq hbody).mpr hsource) hneeded hdep ?_ ht
    hs
  exact DepEdge.offset?_of_distance_eq_zero hdistance _

/-- An edge to a needed unit of the data path is met. -/
theorem Walked.met_dep (htarget : g.IsData target) (hneeded : g''.IsNeeded target) :
    bundle.edge.Admits bundle.edge.latency ((t : Int) - (s : Int)) := by
  have hbody : g''.body = g.body := (body_eq_of_frame_eq harranged.frame).trans h.body
  rw [← h.bundle?_eq harranged hexit (Or.inl htarget)] at hbundle
  obtain ⟨unit, hunit, hdep⟩ := exists_of_bundle? hbundle
  obtain ⟨unit', hunit', hdangling⟩ := hneeded
  obtain rfl := Option.some.inj (hunit.symm.trans hunit')
  obtain ⟨unit', hunit', hflag⟩ := (isData_iff_of_body_eq hbody).mpr htarget
  obtain rfl := Option.some.inj (hunit.symm.trans hunit')
  obtain ⟨offset?, hoffset, hmeets⟩ := harranged.deps hunit hflag hdangling
    (Table.mem_entries_of_get?_eq_some hdep) ht
  rw [DepEdge.offset?_of_distance_eq_zero hdistance] at hoffset
  cases hoffset
  exact hmeets _ rfl s hs

end

theorem Walked.settled (h : Walked g g') (hg : g.Ready) {g'' : Graph}
    (harranged : DataPath.Arranged g' g'') : Settled g g'' := by
  have hisControl : ∀ {id}, g'.IsControl id ↔ g.IsControl id := isControl_iff_of_body_eq h.body
  have hisData : ∀ {id}, g'.IsData id ↔ g.IsData id := isData_iff_of_body_eq h.body
  have hbody : g''.body = g'.body := body_eq_of_frame_eq harranged.frame
  refine ⟨hbody.trans h.body, (intervals_of_frame_eq harranged.frame).trans h.intervals, ?_,
    h.path.of_frame_eq harranged.frame harranged.control,
    (h.slot?_eq harranged hg.root).trans h.entry, h.started harranged, h.dangling harranged,
    fun hexit hbundle hdistance hsource hs ht => ?_, fun hid hfrozen => ?_,
    h.sources harranged, ?_, ?_⟩
  · intro id hid
    rcases isControl_or_isData hid with hcontrol | hdata
    · obtain ⟨slot, hslot, _⟩ := h.path id (hisControl.mpr hcontrol)
      exact ⟨slot, (h.slot?_eq harranged hcontrol).trans hslot⟩
    · obtain ⟨slot, hslot, _⟩ := harranged.placed (hisData.mpr hdata)
      exact ⟨slot, hslot⟩
  · obtain ⟨exit', hexit', hcontrol, _⟩ := hg.exit
    obtain rfl := Option.some.inj (hexit.symm.trans hexit')
    rw [h.slot?_eq harranged hsource] at hs
    rw [h.slot?_eq harranged hcontrol] at ht
    exact h.last hexit hbundle hdistance hsource hs ht
  · exact harranged.frozen (hisData.mpr hid) ((isFrozen_iff_of_body_eq h.body).mpr hfrozen)
  · intro target source bundle s t hexit hbundle hdistance hcounts hsource hs ht
    obtain ⟨htargetSize, hsourceSize⟩ := lt_size_of_bundle? hg.toWellFormed hbundle
    rcases isControl_or_isData htargetSize with hcontrol | hdata
    · rcases isControl_or_isData hsourceSize with hcontrol' | hdata'
      · rw [h.slot?_eq harranged hcontrol'] at hs
        rw [h.slot?_eq harranged hcontrol] at ht
        exact h.met hexit hbundle hdistance hcontrol hcontrol' hs ht
      · refine h.met_use harranged hexit hbundle hdistance hs ht hcontrol hdata' ?_
        rcases hsource with hsource | hsource | hsource
        · exact absurd hdata' hsource.not_isData
        · exact hsource
        · exact absurd hsource hcontrol.not_isData
    · exact h.met_dep harranged hexit hbundle hdistance hs ht hdata
        (hcounts.resolve_left fun h => h.not_isData hdata)
  · intro u v unit unit' hne hunit hcontrol hunit' hcontrol' hblock hsame hshared
    rw [h.slot?_eq harranged ⟨unit, hunit, hcontrol⟩,
      h.slot?_eq harranged ⟨unit', hunit', hcontrol'⟩]
    exact h.exclusive hne hunit hcontrol hunit' hcontrol' hblock hsame hshared

/-- The control path is placed first, and the data path around it. -/
theorem schedule_walked (hg : now.state.Ready) (h : schedule options now = .ok result last) :
    ∃ walked placed : Journaled Graph, scheduleStraight options now = .ok result placed ∧
      walked.state = placed.state ∧ Walked now.state walked.state ∧
      DataPath.schedule options walked = .ok result last := by
  obtain ⟨_, placed, hcontrol, hdata⟩ := schedule_eq_ok_iff.mp h
  rw [if_neg (by simp [hg.straight])] at hcontrol
  obtain ⟨walked, hsame, _, hrun⟩ := exists_dataPath hdata
  exact ⟨walked, placed, hcontrol, hsame, hsame ▸ scheduleStraight_walked hg hcontrol, hrun⟩

theorem schedule_settled (hg : now.state.Ready) (h : schedule options now = .ok result last) :
    Settled now.state last.state := by
  obtain ⟨walked, _, _, _, hwalked, hdata⟩ := schedule_walked hg h
  exact hwalked.settled hg
    (DataPath.schedule_arranged hwalked.wellFormed hwalked.path (hwalked.braced hg) hdata)

/-- Control units and frozen units keep the classes they have. -/
theorem class?_schedule (hg : now.state.Ready) (h : schedule options now = .ok result last) :
    (∀ {id}, now.state.IsControl id → last.state.class? id = now.state.class? id) ∧
      ∀ {id}, now.state.IsFrozen id → (now.state.class? id).isSome →
        last.state.class? id = now.state.class? id := by
  obtain ⟨walked, placed, hcontrol, hsame, hwalked, hdata⟩ := schedule_walked hg h
  have hkept : walked.state.class? = now.state.class? := by
    rw [hsame, class?_scheduleStraight hcontrol]
  obtain ⟨hcontrols, hfrozen, _⟩ := DataPath.schedule_classes hwalked.wellFormed.toListed hdata
  rw [← hkept]
  exact ⟨fun hid => hcontrols ((isControl_iff_of_body_eq hwalked.body).mpr hid),
    fun hid => hfrozen ((isFrozen_iff_of_body_eq hwalked.body).mpr hid)⟩

end Graph

end SlotScheduling
