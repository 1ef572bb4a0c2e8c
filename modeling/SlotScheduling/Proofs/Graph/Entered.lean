import SlotScheduling.Proofs.Graph.Tidy

/-!
# Entered blocks

A block that is lowered is entered at the entry of the graph or at a unit of its own, which
waits for the terminator of the block before.  Within one iteration, every operation of the
block waits for that entry or for another operation of the block.
-/

namespace SlotScheduling

/-- Within one iteration the operation waits for the source. -/
def LatencyOracle.Awaits (oracle : LatencyOracle) (op source : OpId) : Prop :=
  ∃ dependences dependence, oracle.dependences op = some dependences ∧
    dependence ∈ dependences ∧ dependence.source = some source ∧ dependence.distance = 0

namespace Graph

variable {g g' : Graph} {id other target source : UnitId} {edge : DepEdge} {latency : Nat}

/-! ## Single bundles -/

/-- The unit has one bundle for each unit that it depends on. -/
def Keyed (g : Graph) (id : UnitId) : Prop :=
  ∀ unit, g.units[id]? = some unit → unit.deps.keys.Nodup

theorem keyed_of_bundle?_eq_none (h : g.bundle? id = fun _ => none) : g.Keyed id := by
  intro unit hunit
  have hempty : unit.deps.keys = [] := by
    refine List.eq_nil_iff_forall_not_mem.mpr fun source hsource => ?_
    obtain ⟨bundle, hbundle⟩ := Table.mem_keys_iff.mp hsource
    have hnone := congrFun h source
    rw [bundle?_eq hunit] at hnone
    cases hnone.symm.trans hbundle
  rw [hempty]
  exact List.nodup_nil

theorem Keyed.changeUnit (hg : g.Keyed id) {change : ScheduleUnit → ScheduleUnit}
    (h : g.changeUnit target change = .ok g')
    (hchange : ∀ {unit}, g.units[target]? = some unit → unit.deps.keys.Nodup →
      (change unit).deps.keys.Nodup) : g'.Keyed id := by
  intro unit hunit
  rw [getElem?_changeUnit h] at hunit
  split at hunit
  next heq =>
    subst heq
    obtain ⟨old, hold, rfl⟩ := Option.map_eq_some_iff.mp hunit
    exact hchange hold (hg old hold)
  next => exact hg unit hunit

theorem Keyed.addDep (hg : g.Keyed id) (h : g.addDep target source edge = .ok g') :
    g'.Keyed id := by
  obtain ⟨_, _, _, _, _, hcases⟩ := addDep_eq_ok h
  rcases hcases with ⟨_, bundle, _, _, hchange⟩ | ⟨_, middle, hmiddle, hend⟩
  · refine hg.changeUnit hchange fun {unit} _ hnodup => ?_
    have hkeys := Table.keys_modify unit.deps source fun _ => bundle
    exact hkeys ▸ hnodup
  · have hmiddle : middle.Keyed id :=
      hg.changeUnit hmiddle fun _ hnodup => Table.nodup_keys_insert hnodup
    exact hmiddle.changeUnit hend fun _ hnodup => hnodup

/-- The listed bundle of a source is the one that stands for it. -/
theorem Keyed.bundle? (hg : g.Keyed id) {unit : ScheduleUnit} (hunit : g.units[id]? = some unit)
    {dep : UnitId × EdgeBundle} (hdep : dep ∈ unit.deps.entries) :
    g.bundle? id dep.1 = some dep.2 :=
  (bundle?_eq hunit _).trans (Table.get?_of_mem_entries (hg unit hunit) hdep)

/-! ## Waits without latency -/

/-- A wait without latency gives way to whatever else was asked for. -/
theorem honours_addDep_zero (hg : g.Listed)
    (hold : ∀ {bundle}, g.bundle? target source = some bundle → bundle.edge.distance = 0)
    (h : g.addDep target source (.value 0) = .ok g') : g'.Honours target source 0 := by
  obtain ⟨bundle, hjoins, hbundles⟩ := bundle?_addDep hg h
  refine ⟨bundle, by rw [hbundles, if_pos ⟨rfl, rfl⟩], ?_, Nat.zero_le _⟩
  rcases hjoins with ⟨_, heq⟩ | ⟨old, hbefore, hadd⟩
  · rw [heq]
    rfl
  · rcases EdgeBundle.addEdge_cases hadd with ⟨heq, _⟩ | ⟨heq, _⟩
    · rw [heq]
      exact hold hbefore
    · rw [heq]
      rfl

theorem Honours.addDep_zero (h : g.Honours id other latency) (hg : g.Listed)
    (hadd : g.addDep target source (.value 0) = .ok g') : g'.Honours id other latency := by
  obtain ⟨old, hold, hzero, hle⟩ := h
  obtain ⟨bundle, hjoins, hbundles⟩ := bundle?_addDep hg hadd
  by_cases hpair : id = target ∧ other = source
  · refine ⟨bundle, by rw [hbundles, if_pos hpair], ?_⟩
    rw [← hpair.1, ← hpair.2, hold] at hjoins
    rcases hjoins with ⟨hnone, _⟩ | ⟨old', heq, hadd'⟩
    · cases hnone
    · cases heq
      rcases EdgeBundle.addEdge_cases hadd' with ⟨heq, _⟩ | ⟨_, _, hlonger⟩
      · rw [heq]
        exact ⟨hzero, hle⟩
      · exact absurd hlonger (Nat.not_lt_zero _)
  · exact ⟨old, by rw [hbundles, if_neg hpair, hold], hzero, hle⟩

end Graph

namespace Lowering

open SlotScheduling.Graph

variable {σ : Type} {program : Program} {basic : BasicBlock} {g g' start made : Graph}
  {created : List (OpId × UnitId)} {entry id source : UnitId} {op : OpId} {edge : DepEdge}
  {now last : Journaled σ}

/-! ## Anchored units -/

/-- Within one iteration the unit waits for the entry, or for a unit of the block. -/
def Anchored (entry : UnitId) (block : BlockId) (g : Graph) (id : UnitId) : Prop :=
  ∃ source, g.Honours id source 0 ∧
    (source = entry ∨ ∃ unit, g.units[source]? = some unit ∧ unit.block = block)

/-- Units are being attached, with one bundle for each source and none from the entry that
spans iterations.  The entry is left alone. -/
structure Attending (program : Program) (basic : BasicBlock) (start made : Graph)
    (created : List (OpId × UnitId)) (entry : UnitId) (g : Graph) : Prop
    extends Attached program basic start made created g where
  keyed : ∀ {op id}, (op, id) ∈ created → g.Keyed id
  direct : ∀ {op id bundle}, (op, id) ∈ created → g.bundle? id entry = some bundle →
    bundle.edge.distance = 0
  still : g.bundle? entry = made.bundle? entry

section

variable (hmade : Attaching program basic start made created entry)

include hmade

theorem Attaching.attending : Attending program basic start made created entry made := by
  refine ⟨⟨hmade.toExtended, rfl, fun hmem hbundle => ?_⟩, fun hmem =>
    keyed_of_bundle?_eq_none (hmade.made hmem).2.2, fun hmem hbundle => ?_, rfl⟩
  all_goals
    rw [(hmade.made hmem).2.2] at hbundle
    cases hbundle

theorem Attending.addDep (hg : Attending program basic start made created entry g)
    (hid : (op, id) ∈ created) (hedge : Recorded program made op source edge)
    (hentry : source = entry → edge.distance = 0) (h : g.addDep id source edge = .ok g') :
    Attending program basic start made created entry g' := by
  obtain ⟨joined, hjoins, hbundles⟩ := bundle?_addDep hg.toListed h
  refine ⟨hmade.addDep hg.toAttached hid hedge h, fun hmem => (hg.keyed hmem).addDep h,
    fun {_ user bundle} hmem hbundle => ?_, ?_⟩
  · rw [hbundles] at hbundle
    split at hbundle
    next hpair =>
      cases hbundle
      obtain ⟨rfl, heq⟩ := hpair
      rcases hjoins with ⟨_, heq'⟩ | ⟨old, hold, hadd⟩
      · rw [heq', hentry heq.symm]
      · rcases EdgeBundle.addEdge_cases hadd with ⟨heq', _⟩ | ⟨heq', _⟩
        · rw [heq']
          exact hg.direct hmem (heq ▸ hold)
        · rw [heq', hentry heq.symm]
    next => exact hg.direct hmem hbundle
  · obtain ⟨_, hentered⟩ := hmade.entered
    have hne : entry ≠ id := by
      rintro rfl
      cases hentered.unique (hmade.made hid).2.1
    rw [← hg.still]
    funext other
    rw [hbundles, if_neg fun hpair => hne hpair.1]

theorem Attending.attachOperands (hg : Attending program basic start made created entry g)
    (hid : (op, id) ∈ created) (h : attachOperands program entry g (op, id) = .ok g') :
    Attending program basic start made created entry g' := by
  unfold Lowering.attachOperands at h
  split at h
  · cases h
  next dependences hall =>
    refine Checked.foldlM_induction (fun dependence hdependence before after hbefore hround => ?_)
      hg h
    obtain ⟨_, hentry⟩ := hmade.entered
    unfold attachOperand at hround
    split at hround
    next source hsource =>
      obtain ⟨s, hs, hholder⟩ := Option.bind_eq_some_iff.mp hsource
      rw [holder?_of_bare_eq hbefore.bare] at hholder
      have hleads := (hmade.held.holder hholder).leads
      refine hbefore.addDep hmade hid (fun {s'} hleads' => ?_) (fun heq => ?_) hround
      · cases hleads.unique hleads'
        exact ⟨dependences, dependence, hall, hdependence, hs, rfl⟩
      · cases hleads.unique (heq ▸ hentry)
    next => exact hbefore.addDep hmade hid (recorded_entry hentry) (fun _ => rfl) hround

/-- What already waits for a unit of the block needs no anchor, and the entry anchors the rest. -/
theorem Attending.anchorUnit (hg : Attending program basic start made created entry g)
    (hid : (op, id) ∈ created) {block : BlockId}
    (h : Lowering.anchorUnit entry block g id = .ok g') :
    Attending program basic start made created entry g' ∧ Anchored entry block g' id ∧
      ∀ {other}, Anchored entry block g other → Anchored entry block g' other := by
  obtain ⟨_, hentry⟩ := hmade.entered
  obtain ⟨unit, hunit, h⟩ := Checked.bind_eq_ok.mp h
  rw [unit_eq_ok] at hunit
  obtain ⟨anchored, hanchored, h⟩ := Checked.bind_eq_ok.mp h
  split at h
  next htrue =>
    subst htrue
    obtain rfl := Checked.pure_eq_ok.mp h
    refine ⟨hg, ?_, fun h => h⟩
    obtain ⟨dep, hdep, hlocal⟩ := Checked.anyM_eq_ok_true hanchored
    obtain ⟨producer, hproducer, hlocal⟩ := Checked.bind_eq_ok.mp hlocal
    have hlocal : producer.block = block ∧ dep.2.edge.distance = 0 := by
      simpa [DepEdge.isLoopCarried] using hlocal
    exact ⟨dep.1, ⟨dep.2, (hg.keyed hid).bundle? hunit hdep, hlocal.2, Nat.zero_le _⟩,
      Or.inr ⟨producer, unit_eq_ok.mp hproducer, hlocal.1⟩⟩
  next =>
    refine ⟨hg.addDep hmade hid (recorded_entry hentry) (fun _ => rfl) h,
      ⟨entry, honours_addDep_zero hg.toListed (hg.direct hid) h, Or.inl rfl⟩, ?_⟩
    rintro other ⟨source, hhonours, hcases⟩
    refine ⟨source, hhonours.addDep_zero hg.toListed h, hcases.imp_right ?_⟩
    rintro ⟨producer, hproducer, hblock⟩
    obtain ⟨producer', hproducer', hbare⟩ := exists_of_bare_eq (bare_addDep h).symm hproducer
    have hsame := congrArg ScheduleUnit.block hbare
    exact ⟨producer', hproducer', hsame.symm.trans hblock⟩

theorem Attaching.anchored {block : BlockId}
    (h : Lowering.attachUnits program entry block created made = .ok g') :
    Attending program basic start made created entry g' ∧
      ∀ {op id}, (op, id) ∈ created → Anchored entry block g' id := by
  obtain ⟨middle, hmiddle, h⟩ := Checked.bind_eq_ok.mp h
  have hattached : Attending program basic start made created entry middle :=
    Checked.foldlM_induction (fun _ hpair _ _ hbefore hround =>
      hbefore.attachOperands hmade hpair hround) hmade.attending hmiddle
  obtain ⟨hlast, hall⟩ := Checked.foldlM_forall
    (P := Attending program basic start made created entry)
    (Q := fun id g => Anchored entry block g id)
    (fun id hid before after hbefore hround => by
      obtain ⟨⟨op, id⟩, hmem, rfl⟩ := List.mem_map.mp hid
      obtain ⟨hafter, hanchored, hkept⟩ := hbefore.anchorUnit hmade hmem hround
      exact ⟨hafter, hanchored, fun _ => hkept⟩)
    hattached h
  exact ⟨hlast, fun {op id} hmem => hall id (List.mem_map_of_mem hmem)⟩

end

/-! ## Entries -/

/-- The second graph is the first one with units of operations. -/
structure AddsOps (g g' : Graph) : Prop where
  size : g.units.size ≤ g'.units.size
  agrees : AgreesBelow g.units.size g g'
  holders : ∀ block, g'.holder? (.entry block) = g.holder? (.entry block)
  entries : ∀ {block id}, (.entry block, id) ∈ g'.holders.entries →
    (.entry block, id) ∈ g.holders.entries
  leads : ∀ {block id}, g'.Leads (.entry block) id ↔ g.Leads (.entry block) id
  nodup : g.terminators.keys.Nodup → g'.terminators.keys.Nodup

theorem AddsOps.of_made {block : BlockId} {operation : Operation} (h : AddsOps start g)
    (hmade : Made program block op operation g g') : AddsOps start g' where
  size := by
    rw [hmade.size]
    exact Nat.le_succ_of_le h.size
  agrees := h.agrees.trans (hmade.agrees.mono h.size)
  holders block := by rw [hmade.holder?, if_neg (by simp), h.holders]
  entries := by
    intro block id hid
    rw [hmade.holders, Table.mem_entries_insert] at hid
    exact h.entries (hid.resolve_left (by simp)).1
  leads := by simp [hmade.leads_iff, h.leads]
  nodup := by
    intro hnodup
    rcases hmade.terminators with heq | ⟨heq, _⟩
    · exact heq ▸ h.nodup hnodup
    · exact heq ▸ Table.nodup_keys_insert (h.nodup hnodup)

/-- Creating units leaves the entries alone, and what it creates is listed. -/
theorem addsOps_createOps {block : BlockId} {ops : List OpId} (hg : g.WellFormed)
    (h : createOps program block ops g now = .ok (g', created) last) :
    AddsOps g g' ∧ ∀ {op id}, g'.Leads (.op op) id → g.Leads (.op op) id ∨ (op, id) ∈ created := by
  refine (Step.foldlM_induction (P := fun (result : Graph × List (OpId × UnitId)) _ =>
    result.1.WellFormed ∧ AddsOps g result.1 ∧
      ∀ {op id}, result.1.Leads (.op op) id → g.Leads (.op op) id ∨ (op, id) ∈ result.2)
    (fun op _ before after now last hbefore hround => ?_)
    ⟨hg, ⟨Nat.le_refl _, AgreesBelow.refl _ g, fun _ => rfl, fun h => h, Iff.rfl,
      fun h => h⟩, Or.inl⟩ h).2
  obtain ⟨hwell, hadds, hops⟩ := hbefore
  obtain ⟨loops, hcreate, hcreated⟩ := createNext_eq_ok hround
  obtain ⟨operation, _, hmade⟩ := made_createOp hwell hcreate
  refine ⟨hmade.toWellFormed, hadds.of_made hmade, fun {op' id} hleads => ?_⟩
  rw [hcreated]
  rcases hmade.leads_iff.mp hleads with ⟨rfl, heq⟩ | hold
  · cases heq
    exact Or.inr (List.mem_append_right _ (List.mem_singleton_self _))
  · exact (hops hold).imp_right (List.mem_append_left _)

/-- The block is entered at the unit, behind the terminator of the block before it. -/
structure Enters (basic : BasicBlock) (l : Lowering) (g : Graph) (entry : UnitId) : Prop where
  holder : g.holder? (.entry basic.id) = some entry
  control : g.IsControl entry
  leads : ∀ {id}, g.Leads (.entry basic.id) id → l.graph.units.size ≤ id → id = entry
  chained : l.takesEntry basic.id = false → ∀ last ∈ l.lastTerminator,
    last < l.graph.units.size → g.Honours entry last 0
  root : l.takesEntry basic.id = true → entry = l.graph.entryRoot
  others : ∀ {block}, block ≠ basic.id →
    g.holder? (.entry block) = l.graph.holder? (.entry block)
  entries : ∀ {block id}, (.entry block, id) ∈ g.holders.entries →
    (.entry block, id) ∈ l.graph.holders.entries ∨ block = basic.id ∧ id = entry
  nodup : l.graph.terminators.keys.Nodup → g.terminators.keys.Nodup

/-- The entry of a block of its own, before it is chained to the block before it. -/
theorem enters_createEntry {l : Lowering} (htakes : ¬l.takesEntry basic.id = true) :
    Enters basic { l with lastTerminator := none } (l.graph.createEntry basic.id)
      l.graph.nextId := by
  refine ⟨?_, ?_, fun hleads hle => ?_, fun _ last hlast => ?_,
    fun htrue => absurd htrue htakes, fun hne => ?_, fun hid => ?_, fun hnodup => hnodup⟩
  · exact (holder?_createUnit _).trans (if_pos rfl)
  · exact isControl_createUnit.mpr (Or.inl ⟨rfl, rfl⟩)
  · rcases leads_createUnit.mp hleads with ⟨heq, _⟩ | hold
    · exact heq
    · exact absurd hold.lt_size (Nat.not_lt.mpr hle)
  · cases hlast
  · refine (holder?_createUnit _).trans (if_neg ?_)
    exact fun heq => hne (Instr.entry.inj heq).symm
  · rcases Table.mem_entries_insert.mp hid with heq | ⟨hold, _⟩
    · cases heq
      exact Or.inr ⟨rfl, rfl⟩
    · exact Or.inl hold

/-- Dependencies leave an entry alone, but may chain it to another terminator. -/
theorem Enters.of_bare_eq {l : Lowering} {terminator : Option UnitId} (h : Enters basic l g entry)
    (hbare : g'.bare = g.bare) (hchained : l.takesEntry basic.id = false → ∀ last ∈ terminator,
      last < l.graph.units.size → g'.Honours entry last 0) :
    Enters basic { l with lastTerminator := terminator } g' entry where
  holder := (congrFun (holder?_of_bare_eq hbare) _).trans h.holder
  control := (isControl_iff_of_bare_eq hbare).mpr h.control
  leads := fun hleads => h.leads ((leads_iff_of_bare_eq hbare).mp hleads)
  chained := hchained
  root := h.root
  others := fun hne => (congrFun (holder?_of_bare_eq hbare) _).trans (h.others hne)
  entries := fun hid => h.entries (holders_of_bare_eq hbare ▸ hid)
  nodup := fun hold => terminators_of_bare_eq hbare ▸ h.nodup hold

theorem enters_enter {l : Lowering} (hg : l.graph.WellFormed)
    (hroot : l.graph.IsControl l.graph.entryRoot)
    (hholder : l.takesEntry basic.id = true →
      l.graph.holder? (.entry basic.id) = some l.graph.entryRoot)
    (h : l.enter basic.id = .ok (g, entry)) : Enters basic l g entry ∧
      ∀ {op id}, g.Leads (.op op) id → l.graph.Leads (.op op) id := by
  unfold enter at h
  split at h
  next htakes =>
    cases h
    refine ⟨⟨hholder htakes, hroot, fun hleads hle => ?_, fun hnot => ?_, fun _ => rfl,
      fun _ => rfl, Or.inl, fun h => h⟩, fun hleads => hleads⟩
    · exact absurd hleads.lt_size (Nat.not_lt.mpr hle)
    · cases hnot.symm.trans htakes
  next htakes =>
    obtain ⟨chained, hchain, h⟩ := Checked.bind_eq_ok.mp h
    cases h
    have hentered := enters_createEntry htakes
    have hops : ∀ {op id}, (l.graph.createEntry basic.id).Leads (.op op) id →
        l.graph.Leads (.op op) id :=
      fun hleads => (leads_createUnit.mp hleads).resolve_left (by simp)
    unfold chain at hchain
    split at hchain
    next hnone =>
      cases hchain
      refine ⟨hentered.of_bare_eq rfl fun _ last hlast => ?_, hops⟩
      rw [hnone] at hlast
      cases hlast
    next terminator hsome =>
      have hbare := bare_addDep hchain
      refine ⟨hentered.of_bare_eq hbare fun _ last hlast _ => ?_,
        fun hleads => hops ((leads_iff_of_bare_eq hbare).mp hleads)⟩
      obtain rfl := Option.some.inj (hsome.symm.trans hlast)
      refine honours_addDep_zero hg.createUnit.toListed (fun {bundle} hbundle => ?_) hchain
      simp [bundle?, getElem?_createUnit, nextId, ScheduleUnit.dep?, Table.get?] at hbundle

/-- The operations of a block leave its entry alone. -/
theorem Enters.addsOps {l : Lowering} (h : Enters basic l g entry) (hadds : AddsOps g g') :
    Enters basic l g' entry where
  holder := (hadds.holders _).trans h.holder
  control := (hadds.agrees.isControl_iff h.control.lt_size).mpr h.control
  leads := fun hid => h.leads (hadds.leads.mp hid)
  chained := fun htakes last hlast hlt =>
    (h.chained htakes last hlast hlt).of_bundle?_eq (hadds.agrees.edges h.control.lt_size)
  root := h.root
  others := fun hne => (hadds.holders _).trans (h.others hne)
  entries := fun hid => h.entries (hadds.entries hid)
  nodup := fun hold => hadds.nodup (h.nodup hold)

/-- Within one iteration, every operation of the block waits for the entry or for another one
of them. -/
def Anchors (program : Program) (basic : BasicBlock) (base top : Nat) (entry : UnitId)
    (g : Graph) : Prop :=
  ∀ {op id}, base ≤ id → id < top → g.Leads (.op op) id → ∃ source, g.Honours id source 0 ∧
    (source = entry ∨ base ≤ source ∧ source < top ∧ ∃ s ∈ basic.ops, g.Leads (.op s) source ∧
      program.oracle.Awaits op s)

theorem Anchors.mono {base top : Nat} (h : Anchors program basic base top entry g)
    (hagrees : AgreesBelow top g g') : Anchors program basic base top entry g' := by
  intro op id hbase htop hleads
  obtain ⟨source, hhonours, hcases⟩ := h hbase htop ((hagrees.leads_iff htop).mp hleads)
  refine ⟨source, hhonours.of_bundle?_eq (hagrees.edges htop), hcases.imp_right ?_⟩
  rintro ⟨hle, hlt, s, hs, hled, hawaits⟩
  exact ⟨hle, hlt, s, hs, (hagrees.leads_iff hlt).mpr hled, hawaits⟩

/-- What an operation waits for is the entry or an operation of the block, if no unit before the
block is one of it. -/
theorem Attending.exists_awaited {l : Lowering}
    (hg : Attending program basic l.graph made created entry g) (henters : Enters basic l g entry)
    (hmem : (op, id) ∈ created) (hanchored : Anchored entry basic.id g id)
    (hold : ∀ {id : UnitId} {unit : ScheduleUnit}, l.graph.units[id]? = some unit →
      unit.block = basic.id → id = entry) :
    ∃ source, g.Honours id source 0 ∧ (source = entry ∨ l.graph.units.size ≤ source ∧
      source < g.units.size ∧ ∃ s ∈ basic.ops, g.Leads (.op s) source ∧
        program.oracle.Awaits op s) := by
  obtain ⟨source, hhonours, hcases⟩ := hanchored
  refine ⟨source, hhonours, ?_⟩
  rcases hcases with rfl | ⟨producer, hproducer, hblock⟩
  · exact Or.inl rfl
  by_cases hlt : source < l.graph.units.size
  · obtain ⟨producer', hproducer', hsame⟩ := hg.agrees.exists_unit hlt hproducer
    have hblock' := congrArg ScheduleUnit.block hsame
    exact Or.inl (hold hproducer' (hblock'.symm.trans hblock))
  · have hle := Nat.not_lt.mp hlt
    rcases (hg.fresh hle hproducer).lead with hlead | ⟨s, hs, hlead, _⟩
    · exact Or.inl (henters.leads ⟨producer, hproducer, hlead⟩ hle)
    · have hleads' : g.Leads (.op s) source := ⟨producer, hproducer, hlead⟩
      refine Or.inr ⟨hle, lt_size_of_getElem? hproducer, s, hs, hleads', ?_⟩
      obtain ⟨bundle, hbundle, hzero, _⟩ := hhonours
      obtain ⟨dependences, dependence, hall, hdep, hsource, hedge⟩ :=
        hg.recorded hmem hbundle ((leads_iff_of_bare_eq hg.bare).mp hleads')
      exact ⟨dependences, dependence, hall, hdep, hsource,
        by rw [← edgeOf_distance, ← hedge, hzero]⟩

/-- A block that is lowered is entered, and its operations are anchored if no unit before it is
one of the block. -/
theorem enters_lowerBlock {l l' : Lowering} (hg : l.graph.WellFormed) (hheld : l.graph.Held)
    (hlead : l.graph.Leads (.entry l.graph.entryBlock) l.graph.entryRoot)
    (hroot : l.graph.IsControl l.graph.entryRoot)
    (hholder : l.takesEntry basic.id = true →
      l.graph.holder? (.entry basic.id) = some l.graph.entryRoot)
    (h : lowerBlock program l basic now = .ok l' last) :
    l'.lastTerminator = l'.graph.terminator? basic.id ∧ ∃ entry, Enters basic l l'.graph entry ∧
      ((∀ {id : UnitId} {unit : ScheduleUnit}, l.graph.units[id]? = some unit →
          unit.block = basic.id → id = entry) →
        Anchors program basic l.graph.units.size l'.graph.units.size entry l'.graph) := by
  obtain ⟨⟨entered, entry⟩, henter, h⟩ := Step.lift_bind_eq_ok.mp h
  obtain ⟨ops, hops, h⟩ := Step.lift_bind_eq_ok.mp h
  obtain ⟨⟨made, created⟩, now₁, hcreate, h⟩ := Step.bind_eq_ok.mp h
  obtain ⟨attached, hattach, h⟩ := Step.lift_bind_eq_ok.mp h
  obtain ⟨rfl, _⟩ := Step.pure_eq_ok.mp (Step.note_bind _ _ _ ▸ h)
  refine ⟨rfl, entry, ?_⟩
  obtain ⟨hentered, block, hentry⟩ := created_enter hg hheld hlead henter
  obtain ⟨henters, hops'⟩ := enters_enter hg hroot hholder henter
  obtain ⟨hcreated, _, _, hleads⟩ :=
    created_createOps hentered (fun op hop => (mem_unitOrder hops).mp hop) hcreate
  obtain ⟨hadds, hlisted⟩ := addsOps_createOps hentered.toWellFormed hcreate
  have hmade : Attaching program basic l.graph made created entry :=
    ⟨hcreated, block, hleads hentry⟩
  obtain ⟨hattached, hanchored⟩ := hmade.anchored hattach
  have hbare := hattached.bare
  have hmadeEnters := henters.addsOps hadds
  have hwhole : Enters basic l attached entry :=
    hmadeEnters.of_bare_eq hbare fun htakes last hlast hlt =>
      (hmadeEnters.chained htakes last hlast hlt).of_bundle?_eq hattached.still
  refine ⟨hwhole, fun hold {op id} hbase _ hled => ?_⟩
  have hmem : (op, id) ∈ created := by
    refine (hlisted ((leads_iff_of_bare_eq hbare).mp hled)).resolve_left fun hbefore => ?_
    exact Nat.not_lt.mpr hbase (hops' hbefore).lt_size
  exact hattached.exists_awaited hwhole hmem (hanchored hmem) hold

/-- The graph of a single block holds one entry, and one terminator at most. -/
theorem tables_buildBlock {entrySlot : Nat}
    (h : buildBlock program basic entrySlot now = .ok g last) :
    (∀ {block id}, (.entry block, id) ∈ g.holders.entries → block = basic.id ∧ id = g.entryRoot) ∧
      ∀ {block id}, (block, id) ∈ g.terminators.entries →
        block = basic.id ∧ g.terminator? basic.id = some id := by
  obtain ⟨l, now', hlower, hfinish⟩ := Step.bind_eq_ok.mp h
  have hcloses := closes_finish (ofBlock_lowerBlock hlower).1.toWellFormed
    (Step.lift_eq_ok.mp hfinish).1
  have hstart := OfBlock.start basic.id entrySlot
  have hlead : (Graph.start basic.id entrySlot).Leads (.entry basic.id) 0 :=
    leads_start.mpr ⟨rfl, rfl⟩
  obtain ⟨_, entry, henters, _⟩ := enters_lowerBlock hstart.toWellFormed (held_start _ _) hlead
    hstart.root (fun _ => hstart.entry) hlower
  obtain ⟨hlowers, _, _⟩ :=
    lowers_lowerBlock hstart.toWellFormed (held_start _ _) hlead hlower
  refine ⟨fun {block id} hid => ?_, fun {block id} hid => ?_⟩
  · rw [hcloses.holders, Table.mem_entries_insert] at hid
    rcases henters.entries (hid.resolve_left (by simp)).1 with hold | ⟨rfl, rfl⟩
    · rcases Table.mem_entries_insert.mp hold with heq | ⟨hnone, _⟩
      · cases heq
        exact ⟨rfl, rfl⟩
      · exact absurd hnone List.not_mem_nil
    · exact ⟨rfl, henters.root (takesEntry_start.mpr rfl)⟩
  · have hterminators : g.terminators = l.graph.terminators :=
      congrArg (fun rest => rest.2.2.2.1) hcloses.surroundings
    rw [hterminators] at hid
    rw [terminator?, hterminators]
    have hend := Table.get?_of_mem_entries (henters.nodup List.nodup_nil) hid
    rcases hlowers.ends hend with hnone | ⟨rfl, _⟩
    · cases hnone
    · exact ⟨rfl, hend⟩

end Lowering

end SlotScheduling
