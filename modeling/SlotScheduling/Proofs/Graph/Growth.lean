import SlotScheduling.Proofs.Graph.Edges

/-!
# Growing graphs

While blocks are added to a graph, the units that are there stay as they are, and
so do the edges to them.  The unit that holds an operation is the last one that was
made for it.
-/

namespace SlotScheduling.Graph

variable {g g' g'' : Graph} {id target source : UnitId} {base : Nat} {edge : DepEdge}

/-- The graphs agree in the units before a position, but for their uses. -/
structure AgreesBelow (base : Nat) (g g' : Graph) : Prop where
  units : ∀ {id}, id < base →
    g'.units[id]?.map ScheduleUnit.bare = g.units[id]?.map ScheduleUnit.bare
  edges : ∀ {target}, target < base → g'.bundle? target = g.bundle? target

theorem AgreesBelow.refl (base : Nat) (g : Graph) : AgreesBelow base g g :=
  ⟨fun _ => rfl, fun _ => rfl⟩

theorem AgreesBelow.trans (h : AgreesBelow base g g') (h' : AgreesBelow base g' g'') :
    AgreesBelow base g g'' :=
  ⟨fun hid => (h'.units hid).trans (h.units hid), fun hid => (h'.edges hid).trans (h.edges hid)⟩

theorem AgreesBelow.mono {lower : Nat} (h : AgreesBelow base g g') (hle : lower ≤ base) :
    AgreesBelow lower g g' :=
  ⟨fun hid => h.units (Nat.lt_of_lt_of_le hid hle), fun hid =>
    h.edges (Nat.lt_of_lt_of_le hid hle)⟩

theorem AgreesBelow.exists_unit (h : AgreesBelow base g g') (hid : id < base)
    {unit : ScheduleUnit} (hunit : g'.units[id]? = some unit) :
    ∃ unit', g.units[id]? = some unit' ∧ unit.bare = unit'.bare := by
  have hsame := h.units hid
  rw [hunit, Option.map_some] at hsame
  obtain ⟨unit', hunit', heq⟩ := Option.map_eq_some_iff.mp hsame.symm
  exact ⟨unit', hunit', heq.symm⟩

theorem AgreesBelow.isControl_iff (h : AgreesBelow base g g') (hid : id < base) :
    g'.IsControl id ↔ g.IsControl id :=
  exists_iff_of_map_eq (h.units hid) fun _ => Iff.rfl

theorem AgreesBelow.isData_iff (h : AgreesBelow base g g') (hid : id < base) :
    g'.IsData id ↔ g.IsData id :=
  exists_iff_of_map_eq (h.units hid) fun _ => Iff.rfl

theorem agreesBelow_of_getElem?_eq (h : ∀ id < base, g'.units[id]? = g.units[id]?) :
    AgreesBelow base g g' := by
  refine ⟨fun hid => by rw [h _ hid], fun {target} hid => ?_⟩
  funext source
  simp only [bundle?, h _ hid]

theorem agreesBelow_createUnit {lead : Instr} {block : BlockId} {funcUnit : FuncUnit}
    {control : Bool} {latency : Nat} :
    AgreesBelow g.units.size g (g.createUnit lead block funcUnit control latency) := by
  refine agreesBelow_of_getElem?_eq fun id hid => ?_
  rw [getElem?_createUnit, if_neg (Nat.ne_of_lt hid)]

theorem agreesBelow_addDep (hg : g.Listed) (h : g.addDep target source edge = .ok g')
    (htarget : base ≤ target) : AgreesBelow base g g' := by
  refine ⟨fun _ => getElem?_of_bare_eq (bare_addDep h) _, fun {user} huser => ?_⟩
  obtain ⟨bundle, _, hbundles⟩ := bundle?_addDep hg h
  funext other
  rw [hbundles, if_neg]
  rintro ⟨rfl, _⟩
  omega

theorem size_eq_of_bare_eq (h : g'.bare = g.bare) : g'.units.size = g.units.size := by
  have hsize := congrArg (fun g : Graph => g.units.size) h
  simpa [bare] using hsize

theorem exists_of_bare_eq (h : g'.bare = g.bare) {unit : ScheduleUnit}
    (hunit : g'.units[id]? = some unit) :
    ∃ unit', g.units[id]? = some unit' ∧ unit.bare = unit'.bare := by
  have hget := getElem?_of_bare_eq h id
  rw [hunit, Option.map_some] at hget
  obtain ⟨unit', hunit', heq⟩ := Option.map_eq_some_iff.mp hget.symm
  exact ⟨unit', hunit', heq.symm⟩

/-! ## Holders -/

/-- The unit was made for the instruction. -/
def Leads (g : Graph) (instr : Instr) (id : UnitId) : Prop :=
  ∃ unit, g.units[id]? = some unit ∧ unit.lead = instr

instance (g : Graph) (instr : Instr) (id : UnitId) : Decidable (g.Leads instr id) :=
  inferInstanceAs (Decidable (∃ unit ∈ g.units[id]?, unit.lead = instr))

/-- Of the units that were made for the instruction, this is the last one. -/
structure IsLast (g : Graph) (instr : Instr) (id : UnitId) : Prop where
  leads : g.Leads instr id
  last : ∀ {other}, g.Leads instr other → other ≤ id

/-- Every operation is held by the last unit that was made for it. -/
structure Held (g : Graph) : Prop where
  last : ∀ {op id}, (.op op, id) ∈ g.holders.entries → g.IsLast (.op op) id

theorem Held.holder (hg : g.Held) {op : OpId} (h : g.holder? (.op op) = some id) :
    g.IsLast (.op op) id :=
  hg.last (Table.mem_entries_of_get?_eq_some h)

theorem Leads.lt_size {instr : Instr} (h : g.Leads instr id) : id < g.units.size :=
  lt_size_of_getElem? h.choose_spec.1

theorem Leads.unique {instr instr' : Instr} (h : g.Leads instr id) (h' : g.Leads instr' id) :
    instr = instr' := by
  obtain ⟨unit, hunit, rfl⟩ := h
  obtain ⟨unit', hunit', rfl⟩ := h'
  rw [Option.some.inj (hunit.symm.trans hunit')]

theorem IsLast.unique {instr : Instr} {other : UnitId} (h : g.IsLast instr id)
    (h' : g.IsLast instr other) : id = other :=
  Nat.le_antisymm (h'.last h.leads) (h.last h'.leads)

theorem leads_iff_of_bare_eq {instr : Instr} (h : g'.bare = g.bare) :
    g'.Leads instr id ↔ g.Leads instr id :=
  exists_iff_of_map_eq (getElem?_of_bare_eq h id) fun _ => Iff.rfl

theorem AgreesBelow.leads_iff {instr : Instr} (h : AgreesBelow base g g') (hid : id < base) :
    g'.Leads instr id ↔ g.Leads instr id :=
  exists_iff_of_map_eq (h.units hid) fun _ => Iff.rfl

theorem holders_of_bare_eq (h : g'.bare = g.bare) : g'.holders = g.holders := by
  have hholders := congrArg Graph.holders h
  exact hholders

theorem terminators_of_bare_eq (h : g'.bare = g.bare) : g'.terminators = g.terminators := by
  have hterminators := congrArg Graph.terminators h
  exact hterminators

theorem holder?_of_bare_eq (h : g'.bare = g.bare) : g'.holder? = g.holder? := by
  have hholders := congrArg Graph.holder? h
  exact hholders

/-- Nothing changes in who holds an operation if nothing changes in what was made for it. -/
theorem Held.of_leads_iff (hg : g.Held)
    (hholders : ∀ {op id}, (.op op, id) ∈ g'.holders.entries → (.op op, id) ∈ g.holders.entries)
    (hleads : ∀ {op id}, g'.Leads (.op op) id ↔ g.Leads (.op op) id) : g'.Held := by
  refine ⟨fun {op id} hid => ?_⟩
  obtain ⟨hold, hlast⟩ := hg.last (hholders hid)
  exact ⟨hleads.mpr hold, fun hother => hlast (hleads.mp hother)⟩

theorem Held.of_bare_eq (hg : g.Held) (h : g'.bare = g.bare) : g'.Held :=
  hg.of_leads_iff (fun hid => holders_of_bare_eq h ▸ hid) (leads_iff_of_bare_eq h)

/-- A new unit takes over what it was made for. -/
theorem Held.of_new (hg : g.Held) {lead : Instr}
    (hleads : ∀ {instr id}, g'.Leads instr id ↔
      (id = g.units.size ∧ lead = instr) ∨ g.Leads instr id)
    (hholders : g'.holders = g.holders.insert lead g.units.size) : g'.Held := by
  refine ⟨fun {op id} hid => ?_⟩
  rw [hholders, Table.mem_entries_insert, Prod.mk.injEq] at hid
  rcases hid with ⟨heq, rfl⟩ | ⟨hid, hne⟩
  · refine ⟨hleads.mpr (Or.inl ⟨rfl, heq.symm⟩), fun hother => ?_⟩
    rcases hleads.mp hother with ⟨rfl, _⟩ | hother
    · exact Nat.le_refl _
    · exact Nat.le_of_lt hother.lt_size
  · obtain ⟨hold, hlast⟩ := hg.last hid
    refine ⟨hleads.mpr (Or.inr hold), fun hother => ?_⟩
    rcases hleads.mp hother with ⟨_, heq⟩ | hother
    · exact absurd heq.symm hne
    · exact hlast hother

section

variable {lead : Instr} {block : BlockId} {funcUnit : FuncUnit} {control : Bool} {latency : Nat}

theorem leads_createUnit {instr : Instr} :
    (g.createUnit lead block funcUnit control latency).Leads instr id ↔
      (id = g.units.size ∧ lead = instr) ∨ g.Leads instr id :=
  exists_createUnit

theorem holder?_createUnit (instr : Instr) :
    (g.createUnit lead block funcUnit control latency).holder? instr =
      if lead = instr then some g.units.size else g.holder? instr := by
  simp only [createUnit, holder?, Table.get?_insert, nextId]

theorem Held.createUnit (hg : g.Held) :
    (g.createUnit lead block funcUnit control latency).Held :=
  hg.of_new leads_createUnit rfl

end

end SlotScheduling.Graph
