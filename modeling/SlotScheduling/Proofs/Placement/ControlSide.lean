import SlotScheduling.Proofs.Graph.ControlSide
import SlotScheduling.Proofs.Placement.ControlPath
import SlotScheduling.Proofs.Placement.IssueOrder

/-!
# What the control path sees

The control path looks at its own units and at the dependencies.  Graphs with one control side give
it the same constraints and the same issue order.
-/

namespace SlotScheduling

open SlotScheduling.Graph

/-- All units are of one block. -/
def Graph.IsBlock (block : BlockId) (g : Graph) : Prop :=
  ∀ {id : UnitId} {unit : ScheduleUnit}, g.units[id]? = some unit → unit.block = block

theorem Graph.OfBlock.isBlock {g : Graph} {block : BlockId} {entrySlot : Nat}
    (hg : g.OfBlock block entrySlot) : g.IsBlock block :=
  fun hunit => (hg.units hunit).block

section

variable {g : Graph} {id : UnitId} {block : BlockId} {unit : ScheduleUnit} {bounds : ControlBounds}
  (hinterval : bounds.interval? g.controlSide block = bounds.interval? g block)

/-! ## Looking through the data path -/

namespace LookThrough

variable {found : LookThrough} {sources : ControlSources}

include hinterval

theorem offset?_controlSide {edge : DepEdge} :
    bounds.offset? g.controlSide block edge = bounds.offset? g block edge := by
  rw [ControlBounds.offset?, hinterval, ControlBounds.offset?]

theorem addDep_controlSide (hunit : unit.block = block) (dep : UnitId × EdgeBundle) :
    addDep g.controlSide bounds found unit.controlSide sources dep =
      addDep g bounds found unit sources dep := by
  subst hunit
  simp only [addDep, unit_controlSide_bind, ScheduleUnit.controlSide_block,
    ScheduleUnit.controlSide_control, offset?_controlSide hinterval]
  rfl

omit hinterval in
theorem addUse_controlSide (user : UnitId) :
    addUse g.controlSide id sources user = addUse g id sources user := by
  simp only [addUse, unit_controlSide_bind, ScheduleUnit.controlSide_dep?,
    ScheduleUnit.controlSide_control]
  rfl

theorem combine_controlSide (hblock : g.IsBlock block) :
    combine g.controlSide bounds found id = combine g bounds found id := by
  simp only [combine, unit_controlSide_bind]
  refine Checked.bind_congr fun unit hunit => ?_
  have hdeps : ∀ sources, addDep g.controlSide bounds found unit.controlSide sources =
      addDep g bounds found unit sources := fun _ =>
    funext (addDep_controlSide hinterval (hblock (unit_eq_ok.mp hunit)))
  have huses : addUse g.controlSide id = addUse g id :=
    funext fun sources => funext addUse_controlSide
  simp only [ScheduleUnit.controlSide_deps, ScheduleUnit.controlSide_fixedTiming,
    ScheduleUnit.controlSide_uses, funext hdeps, huses]

theorem resolve_controlSide (hblock : g.IsBlock block) (depth : Nat) (path : List UnitId)
    (found : LookThrough) (id : UnitId) :
    resolve g.controlSide bounds depth path found id = resolve g bounds depth path found id := by
  induction depth generalizing path found id with
  | zero => rfl
  | succ depth ih =>
      simp only [resolve, unit_controlSide_bind, ih, combine_controlSide hinterval hblock,
        ScheduleUnit.controlSide_deps, ScheduleUnit.controlSide_isData]
      rfl

theorem sourcesOf_controlSide (hblock : g.IsBlock block) :
    sourcesOf g.controlSide bounds found id = sourcesOf g bounds found id := by
  simp only [sourcesOf, resolve_controlSide hinterval hblock, controlSide_units, Array.size_map]

end LookThrough

/-! ## Control sources -/

/-- All of the sources are on the control path. -/
def ControlSources.OnControl (g : Graph) (sources : ControlSources) : Prop :=
  ∀ control ∈ sources.keys, g.IsControl control

/-- Whatever was looked through has its sources on the control path. -/
def LookThrough.OnControl (g : Graph) (found : LookThrough) : Prop :=
  ∀ id sources, found.sources? id = some sources → sources.OnControl g

theorem ControlSources.onControl_empty : ControlSources.OnControl g .empty :=
  fun _ hcontrol => absurd hcontrol List.not_mem_nil

theorem ControlSources.OnControl.raise {sources : ControlSources} {control : UnitId} {offset : Int}
    (h : sources.OnControl g) (hcontrol : g.IsControl control) :
    (sources.raise control offset).OnControl g := by
  intro other hother
  obtain ⟨value, hvalue⟩ := Table.mem_keys_iff.mp hother
  rw [ControlSources.raise, Table.get?_upsert] at hvalue
  split at hvalue
  next heq => exact heq ▸ hcontrol
  next => exact h other (Table.mem_keys_iff.mpr ⟨value, hvalue⟩)

namespace LookThrough

variable {found found' : LookThrough} {sources sources' : ControlSources}

theorem onControl_start : OnControl g (start g) := by
  intro id sources hsources
  rw [sources?, start, Array.getD_eq_getD_getElem?, Array.getElem?_replicate] at hsources
  split at hsources <;> cases hsources

theorem onControl_addDep (hfound : OnControl g found) (hsources : sources.OnControl g)
    {dep : UnitId × EdgeBundle} (h : addDep g bounds found unit sources dep = .ok sources') :
    sources'.OnControl g := by
  obtain ⟨offset?, _, h⟩ := Checked.bind_eq_ok.mp h
  cases offset? with
  | none => exact Checked.pure_eq_ok.mp h ▸ hsources
  | some offset =>
      obtain ⟨producer, hproducer, h⟩ := Checked.bind_eq_ok.mp h
      split at h
      next hcontrol =>
        obtain rfl := Checked.pure_eq_ok.mp h
        exact hsources.raise ⟨producer, unit_eq_ok.mp hproducer, hcontrol⟩
      next =>
        split at h
        · exact Checked.pure_eq_ok.mp h ▸ hsources
        next inner hinner =>
          refine Checked.foldlM_induction (P := ControlSources.OnControl g)
            (fun source hsource before after hbefore hround => ?_) hsources h
          obtain ⟨sum, _, hround⟩ := Checked.bind_eq_ok.mp hround
          obtain rfl := Checked.pure_eq_ok.mp hround
          exact hbefore.raise (hfound _ _ hinner _ (List.mem_map_of_mem hsource))

theorem onControl_addUse (hsources : sources.OnControl g) {user : UnitId}
    (h : addUse g id sources user = .ok sources') : sources'.OnControl g := by
  obtain ⟨consumer, hconsumer, h⟩ := Checked.bind_eq_ok.mp h
  split at h
  · exact Checked.pure_eq_ok.mp h ▸ hsources
  · split at h
    next hcontrol =>
      obtain rfl := Checked.pure_eq_ok.mp h
      exact hsources.raise
        ⟨consumer, unit_eq_ok.mp hconsumer, (Bool.and_eq_true_iff.mp hcontrol).1⟩
    next => exact Checked.pure_eq_ok.mp h ▸ hsources

theorem onControl_combine (hfound : OnControl g found)
    (h : combine g bounds found id = .ok sources) : sources.OnControl g := by
  obtain ⟨unit, _, h⟩ := Checked.bind_eq_ok.mp h
  obtain ⟨direct, hdirect, h⟩ := Checked.bind_eq_ok.mp h
  have hdirect : direct.OnControl g := Checked.foldlM_induction
    (fun _ _ _ _ hbefore hround => onControl_addDep hfound hbefore hround)
    ControlSources.onControl_empty hdirect
  split at h
  · exact Checked.foldlM_induction (fun _ _ _ _ hbefore hround => onControl_addUse hbefore hround)
      hdirect h
  · exact Checked.pure_eq_ok.mp h ▸ hdirect

theorem OnControl.set (hfound : OnControl g found) (hsources : sources.OnControl g) (id : UnitId) :
    OnControl g (found.setIfInBounds id (some sources)) := by
  intro other known hknown
  rw [sources?, Array.getD_eq_getD_getElem?, Array.getElem?_setIfInBounds] at hknown
  split at hknown
  · split at hknown
    · exact Option.some.inj hknown ▸ hsources
    · cases hknown
  · rw [← Array.getD_eq_getD_getElem?] at hknown
    exact hfound _ _ hknown

theorem onControl_resolve {depth : Nat} {path : List UnitId} (hfound : OnControl g found)
    (h : resolve g bounds depth path found id = .ok found') : OnControl g found' := by
  induction depth generalizing path found found' id with
  | zero =>
      cases h
      exact hfound
  | succ depth ih =>
      unfold resolve at h
      split at h
      · exact Checked.pure_eq_ok.mp h ▸ hfound
      · obtain ⟨unit, _, h⟩ := Checked.bind_eq_ok.mp h
        obtain ⟨inside, hinside, h⟩ := Checked.bind_eq_ok.mp h
        obtain ⟨sources, hsources, h⟩ := Checked.bind_eq_ok.mp h
        obtain rfl := Checked.pure_eq_ok.mp h
        have hinside : OnControl g inside := by
          refine Checked.foldlM_induction (P := OnControl g)
            (fun source _ before after hbefore hround => ?_) hfound hinside
          obtain ⟨producer, _, hround⟩ := Checked.bind_eq_ok.mp hround
          split at hround
          · exact ih hbefore hround
          · exact Checked.pure_eq_ok.mp hround ▸ hbefore
        exact hinside.set (onControl_combine hinside hsources) id

theorem onControl_sourcesOf (hfound : OnControl g found)
    (h : sourcesOf g bounds found id = .ok (sources, found')) :
    sources.OnControl g ∧ OnControl g found' := by
  obtain ⟨after, hafter, h⟩ := Checked.bind_eq_ok.mp h
  cases h
  have hafter := onControl_resolve hfound hafter
  refine ⟨?_, hafter⟩
  cases hsources : found'.sources? id with
  | none => exact ControlSources.onControl_empty
  | some known => exact hafter _ _ hsources

end LookThrough

/-! ## Constraints -/

section

variable {sys : ConstraintSystem} {assembly assembly' : ControlAssembly} {target : Term}
  {offset : Int}

theorem ConstraintSystem.term?_controlSide (hid : g.IsControl id) :
    sys.term? g.controlSide id = sys.term? g id := by
  obtain ⟨unit, hunit, hcontrol⟩ := hid
  simp only [term?, unit_controlSide_bind, unit_eq_ok.mpr hunit, Checked.ok_bind,
    ScheduleUnit.controlSide_slot hcontrol]

theorem ConstraintSystem.ofFree_controlSide {ids : List UnitId}
    (hids : ∀ id ∈ ids, g.IsControl id) : ofFree g.controlSide ids = ofFree g ids := by
  refine Checked.foldlM_congr (P := fun _ => True) (fun id hid sys _ => ⟨?_, fun _ _ => trivial⟩)
    trivial
  obtain ⟨unit, hunit, hcontrol⟩ := hids id hid
  simp only [unit_controlSide_bind, unit_eq_ok.mpr hunit, Checked.ok_bind,
    ScheduleUnit.controlSide_slot hcontrol]

namespace ControlAssembly

include hinterval

theorem addDataDep_controlSide (hblock : g.IsBlock block) (hfound : assembly.found.OnControl g)
    {source : UnitId} :
    addDataDep g.controlSide bounds target offset assembly source =
      addDataDep g bounds target offset assembly source := by
  rw [addDataDep, LookThrough.sourcesOf_controlSide hinterval hblock, addDataDep]
  refine Checked.bind_congr fun (sources, found) hsources => ?_
  obtain ⟨honControl, _⟩ := LookThrough.onControl_sourcesOf hfound hsources
  refine congrArg (· >>= _) (Checked.foldlM_congr (P := fun _ => True)
    (fun (control, distance) hsource sys _ => ⟨?_, fun _ _ => trivial⟩) trivial)
  have hcontrol : g.IsControl control := honControl _ (List.mem_map_of_mem hsource)
  simp only [ConstraintSystem.term?_controlSide hcontrol]

omit hinterval in
theorem addControlDep_controlSide {source : UnitId} {edge : DepEdge}
    (hsource : g.IsControl source) :
    addControlDep g.controlSide target offset assembly source edge =
      addControlDep g target offset assembly source edge := by
  rw [addControlDep, ConstraintSystem.term?_controlSide hsource, addControlDep]

theorem addDep_controlSide (hblock : g.IsBlock block) (hunit : unit.block = block)
    (hfound : assembly.found.OnControl g) (dep : UnitId × EdgeBundle) :
    addDep g.controlSide bounds unit.controlSide target assembly dep =
      addDep g bounds unit target assembly dep := by
  subst hunit
  simp only [addDep, unit_controlSide_bind, ScheduleUnit.controlSide_block,
    ScheduleUnit.controlSide_isData, LookThrough.offset?_controlSide hinterval,
    addDataDep_controlSide hinterval hblock hfound]
  refine Checked.bind_congr fun producer hproducer => ?_
  cases hcontrol : producer.control with
  | true =>
      have hsource : g.IsControl dep.1 := ⟨producer, unit_eq_ok.mp hproducer, hcontrol⟩
      simp only [addControlDep_controlSide hsource]
  | false => simp [ScheduleUnit.isData, hcontrol]

omit hinterval in
theorem onControl_addDep (hfound : assembly.found.OnControl g) {dep : UnitId × EdgeBundle}
    (h : addDep g bounds unit target assembly dep = .ok assembly') :
    assembly'.found.OnControl g := by
  obtain ⟨producer, _, h⟩ := Checked.bind_eq_ok.mp h
  obtain ⟨offset?, _, h⟩ := Checked.bind_eq_ok.mp h
  cases offset? with
  | none => exact Checked.pure_eq_ok.mp h ▸ hfound
  | some offset =>
      simp only at h
      split at h
      · obtain ⟨⟨sources, found⟩, hsources, h⟩ := Checked.bind_eq_ok.mp h
        obtain ⟨sys, _, h⟩ := Checked.bind_eq_ok.mp h
        obtain rfl := Checked.pure_eq_ok.mp h
        exact (LookThrough.onControl_sourcesOf hfound hsources).2
      · obtain ⟨term?, _, h⟩ := Checked.bind_eq_ok.mp h
        cases term? with
        | none => exact Checked.pure_eq_ok.mp h ▸ hfound
        | some term =>
            obtain ⟨sys, _, h⟩ := Checked.bind_eq_ok.mp h
            exact Checked.pure_eq_ok.mp h ▸ hfound

theorem addUnit_controlSide (hblock : g.IsBlock block) (hfound : assembly.found.OnControl g)
    (hid : g.IsControl id) :
    addUnit g.controlSide bounds assembly id = addUnit g bounds assembly id := by
  simp only [addUnit, unit_controlSide_bind, ConstraintSystem.term?_controlSide hid,
    ScheduleUnit.controlSide_deps]
  refine Checked.bind_congr fun unit hunit => Checked.bind_congr fun term? _ => ?_
  have hdeps : ∀ target started, unit.deps.entries.foldlM
      (addDep g.controlSide bounds unit.controlSide target) { assembly with system := started } =
        unit.deps.entries.foldlM (addDep g bounds unit target)
          { assembly with system := started } := fun target started => Checked.foldlM_congr
      (P := fun now : ControlAssembly => now.found.OnControl g) (fun dep _ now hnow =>
        ⟨addDep_controlSide hinterval hblock (hblock (unit_eq_ok.mp hunit)) hnow dep,
          fun _ hround => onControl_addDep hnow hround⟩) hfound
  rcases term? with _ | ⟨index | value⟩
  · rfl
  · exact Checked.bind_congr fun started _ => hdeps _ started
  · exact Checked.bind_congr fun started _ => hdeps _ started

omit hinterval in
theorem onControl_addUnit (hfound : assembly.found.OnControl g) (hid : g.IsControl id)
    (h : addUnit g bounds assembly id = .ok assembly') : assembly'.found.OnControl g := by
  obtain ⟨unit, hunit, _⟩ := hid
  obtain ⟨_, rfl⟩ | ⟨target, started, _, _, h⟩ := addUnit_cases hunit h
  · exact hfound
  · have hstarted : { assembly with system := started }.found.OnControl g := hfound
    exact Checked.foldlM_induction (P := fun now : ControlAssembly => now.found.OnControl g)
      (fun _ _ _ _ hbefore hround => onControl_addDep hbefore hround) hstarted h

end ControlAssembly

/-- The units of the chain are on the control path of the block. -/
def IssueChain.Within (chain : IssueChain) (g : Graph) (block : BlockId) : Prop :=
  chain.block = block ∧ ∀ id ∈ chain.units, g.IsControl id

namespace ControlSystem

theorem addEnd_controlSide (hexit : ∀ exit, g.exitRoot = some exit → g.IsControl exit) :
    addEnd g.controlSide bounds sys = addEnd g bounds sys := by
  have hroot : g.controlSide.exitRoot = g.exitRoot := rfl
  simp only [addEnd, hroot]
  cases hlast : bounds.criticalPathEnd with
  | none => rfl
  | some last =>
      cases hexitRoot : g.exitRoot with
      | none => rfl
      | some exit => simp only [ConstraintSystem.term?_controlSide (hexit exit hexitRoot)]; rfl

include hinterval

theorem addChain_controlSide {chain : IssueChain} (hchain : chain.Within g block) :
    addChain g.controlSide bounds sys chain = addChain g bounds sys chain := by
  obtain ⟨rfl, hunits⟩ := hchain
  have hterms : chain.units.filterMapM (fun id => sys.term? g.controlSide id) =
      chain.units.filterMapM fun id => sys.term? g id :=
    Checked.filterMapM_congr fun id hid => ConstraintSystem.term?_controlSide (hunits id hid)
  rw [addChain, hterms, hinterval, addChain]

/-- The constraints of the control path do not depend on what the data path decides. -/
theorem build_controlSide (hg : g.Listed)
    (hblock : g.IsBlock block)
    (hexit : ∀ exit, g.exitRoot = some exit → g.IsControl exit)
    (horder : ∀ order, bounds.order = some order → ∀ chain ∈ order.chains, chain.Within g block) :
    build g.controlSide bounds = build g bounds := by
  have hcontrolUnits : g.controlSide.controlUnits = g.controlUnits := rfl
  have hstart : LookThrough.start g.controlSide = LookThrough.start g := by
    simp [LookThrough.start]
  have hunits : ∀ id ∈ g.controlUnits, g.IsControl id := fun _ hid => hg.control.mp hid
  simp only [build, hcontrolUnits, hstart, ConstraintSystem.ofFree_controlSide hunits]
  refine Checked.bind_congr fun free _ => ?_
  have hassembly : ∀ {start : ControlAssembly}, start.found.OnControl g →
      g.controlUnits.foldlM (ControlAssembly.addUnit g.controlSide bounds) start =
        g.controlUnits.foldlM (ControlAssembly.addUnit g bounds) start := fun hfound =>
    Checked.foldlM_congr (P := fun now : ControlAssembly => now.found.OnControl g)
      (fun id hid now hfound =>
        ⟨ControlAssembly.addUnit_controlSide hinterval hblock hfound (hunits id hid),
          fun _ hround => ControlAssembly.onControl_addUnit hfound (hunits id hid) hround⟩) hfound
  rw [hassembly LookThrough.onControl_start]
  refine Checked.bind_congr fun assembly _ => ?_
  rw [addEnd_controlSide hexit]
  refine Checked.bind_congr fun sys _ => ?_
  cases hbounds : bounds.order with
  | none => rfl
  | some order =>
      exact Checked.foldlM_congr (P := fun _ => True) (fun chain hchain sys _ =>
        ⟨addChain_controlSide hinterval (horder order hbounds chain hchain),
          fun _ _ => trivial⟩) trivial

end ControlSystem

end

/-! ## Issue orders -/

namespace IssueOrder

theorem groups_controlSide : groups g.controlSide = groups g := by
  have hcontrolUnits : g.controlSide.controlUnits = g.controlUnits := rfl
  simp only [groups, hcontrolUnits, unit_controlSide_bind, ScheduleUnit.controlSide_funcUnit,
    ScheduleUnit.controlSide_block]
  rfl

/-- The groups hold units of the control path of the block. -/
def GroupsWithin (g : Graph) (block : BlockId)
    (table : Table (BlockId × FuncUnit) (List UnitId)) : Prop :=
  ∀ entry ∈ table.entries, entry.1.1 = block ∧ ∀ id ∈ entry.2, g.IsControl id

theorem groupsWithin_groups (hg : g.Listed)
    (hblock : g.IsBlock block)
    {table : Table (BlockId × FuncUnit) (List UnitId)} (h : groups g = .ok table) :
    GroupsWithin g block table := by
  refine Checked.foldlM_induction (P := GroupsWithin g block)
    (fun id hid before after hbefore hround => ?_)
    (fun _ hentry => absurd hentry List.not_mem_nil) h
  obtain ⟨unit, hunit, hround⟩ := Checked.bind_eq_ok.mp hround
  split at hround
  · exact Checked.pure_eq_ok.mp hround ▸ hbefore
  · obtain rfl := Checked.pure_eq_ok.mp hround
    have hid := hg.control.mp hid
    intro entry hentry
    rw [Table.upsert] at hentry
    split at hentry
    · rcases Table.mem_entries_modify hentry with hold | ⟨old, hold, rfl⟩
      · exact hbefore entry hold
      · refine ⟨(hbefore _ hold).1, fun other hother => ?_⟩
        rcases List.mem_append.mp hother with hother | hother
        · exact (hbefore _ hold).2 other hother
        · exact List.mem_singleton.mp hother ▸ hid
    · rcases Table.mem_entries_insert.mp hentry with rfl | ⟨hold, _⟩
      · exact ⟨hblock (unit_eq_ok.mp hunit), fun other hother => List.mem_singleton.mp hother ▸ hid⟩
      · exact hbefore entry hold

theorem chainOf_controlSide {ids : List UnitId} (hids : ∀ id ∈ ids, g.IsControl id) :
    chainOf g.controlSide block ids = chainOf g block ids := by
  have hkeys : ids.mapM (fun id => return ((← g.controlSide.unit id).slot.getD 0, id)) =
      (ids.mapM fun id => return ((← g.unit id).slot.getD 0, id) : Checked (List Key)) := by
    refine Checked.mapM_congr fun id hid => ?_
    obtain ⟨unit, hunit, hcontrol⟩ := hids id hid
    simp only [unit_controlSide_bind, unit_eq_ok.mpr hunit, Checked.ok_bind,
      ScheduleUnit.controlSide_slot hcontrol]
  rw [chainOf, hkeys, chainOf]

theorem within_chainOf {ids : List UnitId} {chain : IssueChain} (hids : ∀ id ∈ ids, g.IsControl id)
    (h : chainOf g block ids = .ok chain) : chain.Within g block := by
  obtain ⟨keys, hkeys, h⟩ := Checked.bind_eq_ok.mp h
  obtain rfl := Checked.pure_eq_ok.mp h
  refine ⟨rfl, fun id hid => ?_⟩
  obtain ⟨key, hkey, rfl⟩ := List.mem_map.mp hid
  obtain ⟨other, hother, hkey⟩ := Checked.exists_of_mem_mapM hkeys (mem_sortKeys.mp hkey)
  obtain ⟨unit, _, hkey⟩ := Checked.bind_eq_ok.mp hkey
  obtain rfl := Checked.pure_eq_ok.mp hkey
  exact hids _ hother

/-- Who issues first does not depend on what the data path decides. -/
theorem build_controlSide (hg : g.Listed)
    (hblock : g.IsBlock block) :
    build g.controlSide = build g := by
  rw [build, groups_controlSide, build]
  refine Checked.bind_congr fun table htable => ?_
  have hchains : ∀ entry ∈ table.entries.filter fun entry => decide (1 < entry.2.length),
      chainOf g.controlSide entry.1.1 entry.2 = chainOf g entry.1.1 entry.2 := fun entry hentry =>
    chainOf_controlSide (groupsWithin_groups hg hblock htable entry (List.mem_filter.mp hentry).1).2
  exact congrArg (· >>= _) (Checked.mapM_congr hchains)

theorem within_of_build (hg : g.Listed)
    (hblock : g.IsBlock block)
    {order : IssueOrder} (h : build g = .ok order) {chain : IssueChain}
    (hchain : chain ∈ order.chains) : chain.Within g block := by
  obtain ⟨table, htable, h⟩ := Checked.bind_eq_ok.mp h
  obtain ⟨chains, hchains, h⟩ := Checked.bind_eq_ok.mp h
  obtain rfl := Checked.pure_eq_ok.mp h
  obtain ⟨entry, hentry, hordered⟩ := Checked.exists_of_mem_mapM hchains hchain
  obtain ⟨hentryBlock, hids⟩ :=
    groupsWithin_groups hg hblock htable entry (List.mem_filter.mp hentry).1
  exact hentryBlock ▸ within_chainOf hids hordered

end IssueOrder

end

/-! ## Graphs with one control side -/

theorem IssueChain.Within.of_skeleton_eq {chain : IssueChain} {g h : Graph} {block : BlockId}
    (hchain : chain.Within g block) (hskeleton : h.skeleton = g.skeleton) :
    chain.Within h block :=
  ⟨hchain.1, fun id hid => isControl_of_start (hchain.2 id hid) hskeleton⟩

/-- Nothing that the bounds leave open depends on the intervals of the graph: either the entry
block is being pipelined, or there are no intervals. -/
def ControlBounds.Settles (bounds : ControlBounds)
    (P : Table BlockId Nat → Table BlockId Nat → Prop) : Prop :=
  bounds.pipelining = true ∨ ∀ {t t'}, P t t' → t = {} ∧ t' = {}

section

variable {start g h : Graph} {P : Table BlockId Nat → Table BlockId Nat → Prop} {block : BlockId}
  {entrySlot : Nat} {bounds : ControlBounds} {order : IssueOrder} {slots : List (UnitId × Nat)}
  (hstart : start.OfBlock block entrySlot) (hexit : start.HasExit)

include hstart

theorem Graph.SameControl.order_eq (hsame : SameControl start P g h) :
    IssueOrder.build h = IssueOrder.build g :=
  hsame.eq_of_controlSide fun _ hskeleton =>
    have hg := hstart.of_skeleton_eq hskeleton
    IssueOrder.build_controlSide hg.toListed hg.isBlock

theorem Graph.SameControl.within (hsame : SameControl start P g h)
    (horder : IssueOrder.build g = .ok order) {chain : IssueChain} (hchain : chain ∈ order.chains) :
    chain.Within start block := by
  have hg := hstart.of_skeleton_eq hsame.skeleton
  refine IssueChain.Within.of_skeleton_eq ?_ hsame.skeleton.symm
  exact IssueOrder.within_of_build hg.toListed hg.isBlock horder hchain

include hexit

/-- Graphs with one control side give one system. -/
theorem Graph.SameControl.build_eq (hsame : SameControl start P g h) (hbounds : bounds.Settles P)
    (horder : ∀ order, bounds.order = some order → ∀ chain ∈ order.chains,
      chain.Within start block) : ControlSystem.build h bounds = ControlSystem.build g bounds := by
  have hbuild : ∀ {g : Graph}, g.skeleton = start.skeleton →
      (bounds.pipelining = true ∨ g.intervals = {}) →
        ControlSystem.build g.controlSide bounds = ControlSystem.build g bounds := by
    intro g hskeleton hintervals
    have hg := hstart.of_skeleton_eq hskeleton
    obtain ⟨exit, hroot, hcontrol, _⟩ := hexit.of_skeleton_eq hskeleton
    have hinterval : bounds.interval? g.controlSide block = bounds.interval? g block := by
      have hentryBlock : g.controlSide.entryBlock = g.entryBlock := rfl
      unfold ControlBounds.interval?
      rw [hentryBlock]
      rcases hintervals with hpipelining | hnone
      · rw [if_pos ⟨hpipelining, hg.entryBlock.symm⟩, if_pos ⟨hpipelining, hg.entryBlock.symm⟩]
      · rw [interval?, interval?, hnone]
        rfl
    refine ControlSystem.build_controlSide hinterval hg.toListed
      hg.isBlock (fun exit' hroot' => ?_) fun order hsome chain hchain =>
        (horder order hsome chain hchain).of_skeleton_eq hskeleton
    exact Option.some.inj (hroot.symm.trans hroot') ▸ hcontrol
  rw [← hbuild hsame.skeleton' (hbounds.imp_right fun hnone => (hnone hsame.intervals).2),
    hsame.side, hbuild hsame.skeleton (hbounds.imp_right fun hnone => (hnone hsame.intervals).1)]

omit hexit in
theorem isControl_of_earliest {system : ConstraintSystem} (hskeleton : g.skeleton = start.skeleton)
    (hsystem : ControlSystem.build g bounds = .ok system) (hslots : system.earliest = .ok slots) :
    ∀ id ∈ slots.map Prod.fst, start.IsControl id := by
  intro id hid
  obtain ⟨base, hdescribes⟩ := ControlSystem.exists_describes hsystem
  have hg := hstart.of_skeleton_eq hskeleton
  exact isControl_of_start (hg.control.mp ((hdescribes.mem_placed hslots).mp hid).1) hskeleton.symm

end

/-! ## The whole control path -/

namespace ControlPath

variable {start : Graph} {P : Table BlockId Nat → Table BlockId Nat → Prop} {block : BlockId}
  {entrySlot : Nat} (hstart : start.OfBlock block entrySlot) (hexit : start.HasExit)

include hstart

theorem parallel_placeEntry : Step.Parallel (SameControl start P) placeEntry placeEntry := by
  refine parallel_change (fun {g g'} hplace => setup_eq_of_frame_eq ?_) fun g hskeleton => ?_
  · obtain ⟨unit, _, hplace⟩ := Checked.bind_eq_ok.mp hplace
    split at hplace
    · exact frame_changeUnit hplace fun _ => rfl
    · exact Checked.pure_eq_ok.mp hplace ▸ rfl
  · have hroot : g.IsControl g.entryRoot := isControl_of_start hstart.root hskeleton
    obtain ⟨unit, hunit, hcontrol⟩ := hroot
    have hentryRoot : g.controlSide.entryRoot = g.entryRoot := rfl
    have hentrySlot : g.controlSide.entrySlot = g.entrySlot := rfl
    simp only [hentryRoot, hentrySlot, unit_controlSide_bind, unit_eq_ok.mpr hunit, Checked.ok_bind,
      ScheduleUnit.controlSide_slot hcontrol, place_controlSide ⟨unit, hunit, hcontrol⟩]
    split <;> rfl

include hexit

theorem parallel_placeInOrder {placed : List UnitId} {order : IssueOrder}
    (hbounds : ({ order := some order } : ControlBounds).Settles P)
    (hplaced : ∀ id ∈ placed, start.IsControl id)
    (horder : ∀ chain ∈ order.chains, chain.Within start block) :
    Step.Parallel (SameControl start P) (placeInOrder placed order)
      (placeInOrder placed order) := by
  unfold placeInOrder
  apply Step.Parallel.bind
  · refine parallel_change (fun hunplace => ?_) fun g hskeleton => ?_
    · exact setup_eq_of_frame_eq (frame_changeUnits hunplace fun _ => rfl)
    · exact changeUnits_controlSide (fun id hid => isControl_of_start (hplaced id hid) hskeleton)
        (fun _ => rfl) fun _ => ScheduleUnit.unplace_controlSide
  intro _
  refine Step.parallel_current_bind fun g h hsame => ?_
  rw [hsame.build_eq hstart hexit hbounds fun order' hsome => Option.some.inj hsome ▸ horder]
  refine Step.parallel_lift_bind fun system hsystem => ?_
  refine Step.parallel_lift_bind fun slots hslots => ?_
  apply (Step.parallel_note _ _ _).bind
  exact fun _ => parallel_placeAll
    (isControl_of_earliest hstart hsame.skeleton hsystem (Checked.orMalformed_eq_ok.mp hslots))

/-- The control path schedules graphs with one control side alike. -/
theorem parallel_schedule (hnone : ∀ {t t'}, P t t' → t = {} ∧ t' = {}) :
    Step.Parallel (SameControl start P) schedule schedule := by
  have hreanchor : Step.Parallel (SameControl start P) Graph.reanchor Graph.reanchor := by
    intro threshold now now' hnow
    rw [(hstart.of_skeleton_eq hnow.state.skeleton).reanchor_eq,
      (hstart.of_skeleton_eq hnow.state.skeleton').reanchor_eq]
    exact ⟨rfl, hnow⟩
  unfold schedule
  apply (parallel_placeEntry hstart).bind
  intro _
  refine Step.parallel_current_bind fun g h hsame => ?_
  rw [hsame.build_eq hstart hexit (Or.inr hnone) fun order hsome => by cases hsome]
  refine Step.parallel_lift_bind fun system hsystem => ?_
  apply (Step.parallel_note _ _ _).bind
  intro _
  apply Step.parallel_ite
  · exact Step.parallel_pure _
  refine Step.parallel_lift_bind fun slots hslots => ?_
  have hplaced := isControl_of_earliest hstart hsame.skeleton hsystem
    (Checked.orMalformed_eq_ok.mp hslots)
  apply (parallel_placeAll hplaced).bind
  intro _
  refine Step.parallel_current_bind fun g' h' hsame' => ?_
  rw [hsame'.order_eq hstart]
  refine Step.parallel_lift_bind fun order horder => ?_
  apply Step.parallel_ite
  · have hinOrder := parallel_placeInOrder hstart hexit (Or.inr hnone) hplaced
      fun chain hchain => hsame'.within hstart horder hchain
    exact hinOrder.bind fun _ => hreanchor
  · exact hreanchor

end ControlPath

end SlotScheduling
