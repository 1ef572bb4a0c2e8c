import SlotScheduling.Graph.Lowering
import SlotScheduling.Proofs.Graph.Blocks
import SlotScheduling.Proofs.Graph.Growth

/-!
# Closed graphs

A graph is complete once it has its exit, the last of its units.  The units that were
there stay as they are.
-/

namespace SlotScheduling

namespace Graph

variable {g g' g'' : Graph} {block : BlockId} {target source : UnitId} {edge : DepEdge}

/-- What no unit is part of, the tables of the graph aside. -/
def surroundings (g : Graph) :
    BlockId × Nat × Table BlockId Nat × Table BlockId UnitId × Option UnitId :=
  (g.entryBlock, g.entrySlot, g.intervals, g.terminators, g.loopOp)

/-- The second graph is the first one with an exit behind all its units. -/
structure Closes (block : BlockId) (g g' : Graph) : Prop extends WellFormed g' where
  agrees : AgreesBelow g.units.size g g'
  size : g'.units.size = g.units.size + 1
  exitRoot : g'.exitRoot = some g.units.size
  exit : g'.units[g.units.size]?.map ScheduleUnit.bare =
    some { id := g.units.size, lead := .exit block, block, control := true }
  surroundings : g'.surroundings = g.surroundings
  holders : g'.holders = g.holders.insert (.exit block) g.units.size
  waits : ∀ {source bundle}, g'.bundle? g.units.size source = some bundle →
    g.IsControl source ∧ bundle.edge.distance = 0

/-- The exit waits for one more control unit. -/
theorem Closes.addDep (h : Closes block g g') (hsource : g.IsControl source)
    (hlocal : edge.distance = 0) (hadd : g'.addDep g.units.size source edge = .ok g'') :
    Closes block g g'' := by
  have hbare := bare_addDep hadd
  obtain ⟨bundle, hjoins, hbundles⟩ := bundle?_addDep h.toListed hadd
  refine ⟨h.toWellFormed.addDep hadd,
    h.agrees.trans (agreesBelow_addDep h.toListed hadd (Nat.le_refl _)),
    (size_eq_of_bare_eq hbare).trans h.size, ?_, (getElem?_of_bare_eq hbare _).trans h.exit, ?_, ?_,
    fun {other bundle'} hbundle' => ?_⟩
  rotate_right
  · rw [hbundles] at hbundle'
    split at hbundle'
    next hpair =>
      cases hbundle'
      exact ⟨hpair.2 ▸ hsource, hjoins.distance_eq_zero hlocal fun _ hold => (h.waits hold).2⟩
    next => exact h.waits hbundle'
  all_goals
    obtain ⟨units, rfl⟩ := exists_eq_of_addDep h.toListed hadd
  · exact h.exitRoot
  · exact h.surroundings
  · exact h.holders

theorem closes_createExit (hg : g.WellFormed) (block : BlockId) :
    Closes block g (g.createExit block) where
  toWellFormed := hg.createUnit.of_outline_eq rfl
  agrees := agreesBelow_of_getElem?_eq fun id hid =>
    getElem?_createUnit.trans (if_neg (Nat.ne_of_lt hid))
  size := by simp [createExit, createUnit]
  exitRoot := rfl
  exit := by
    have hunit : (g.createExit block).units[g.units.size]? =
        some { id := g.units.size, lead := .exit block, block, control := true } := by
      simp [createExit, createUnit, nextId, FuncUnit.trivial]
    rw [hunit]
    rfl
  surroundings := rfl
  holders := rfl
  waits := fun hbundle => by
    simp [bundle?, createExit, createUnit, nextId, ScheduleUnit.dep?, Table.get?] at hbundle

theorem Closes.lt_or_eq (h : Closes block g g') {id : UnitId} (hid : id < g'.units.size) :
    id < g.units.size ∨ id = g.units.size := by
  rw [h.size] at hid
  exact Nat.lt_succ_iff_lt_or_eq.mp hid

/-- The unit was there, or is the exit. -/
theorem Closes.unit_cases (h : Closes block g g') {id : UnitId} {unit : ScheduleUnit}
    (hunit : g'.units[id]? = some unit) :
    (id < g.units.size ∧ ∃ old, g.units[id]? = some old ∧ unit.bare = old.bare) ∨
      id = g.units.size ∧ unit.bare = { id, lead := .exit block, block, control := true } := by
  rcases h.lt_or_eq (lt_size_of_getElem? hunit) with hlt | rfl
  · exact Or.inl ⟨hlt, h.agrees.exists_unit hlt hunit⟩
  · have hexit := h.exit
    rw [hunit, Option.map_some, Option.some_inj] at hexit
    exact Or.inr ⟨rfl, hexit⟩

theorem Closes.leads_exit (h : Closes block g g') : g'.Leads (.exit block) g.units.size := by
  obtain ⟨unit, hunit, hbare⟩ := Option.map_eq_some_iff.mp h.exit
  have hlead := congrArg ScheduleUnit.lead hbare
  exact ⟨unit, hunit, hlead⟩

theorem Closes.isControl_exit (h : Closes block g g') : g'.IsControl g.units.size := by
  obtain ⟨unit, hunit, hbare⟩ := Option.map_eq_some_iff.mp h.exit
  have hcontrol := congrArg ScheduleUnit.control hbare
  exact ⟨unit, hunit, hcontrol⟩

theorem Closes.not_isData (h : Closes block g g') {id : UnitId} (hid : g.units.size ≤ id) :
    ¬g'.IsData id := by
  intro hdata
  obtain rfl := (h.lt_or_eq hdata.lt_size).resolve_left (Nat.not_lt.mpr hid)
  exact h.isControl_exit.not_isData hdata

theorem Closes.leads_op_iff (h : Closes block g g') {op : OpId} {id : UnitId} :
    g'.Leads (.op op) id ↔ g.Leads (.op op) id := by
  by_cases hid : id < g.units.size
  · exact h.agrees.leads_iff hid
  · refine ⟨fun hleads => ?_, fun hleads => absurd hleads.lt_size hid⟩
    obtain rfl := (h.lt_or_eq hleads.lt_size).resolve_left hid
    cases hleads.unique h.leads_exit

theorem Closes.held (h : Closes block g g') (hg : g.Held) : g'.Held := by
  refine hg.of_leads_iff (fun {op id} hid => ?_) h.leads_op_iff
  rw [h.holders, Table.mem_entries_insert] at hid
  exact (hid.resolve_left (by simp)).1

theorem Closes.holder?_op (h : Closes block g g') (op : OpId) :
    g'.holder? (.op op) = g.holder? (.op op) := by
  rw [holder?, h.holders, Table.get?_insert, if_neg (by simp), holder?]

theorem Closes.hasExit (h : Closes block g g') (hroot : g.IsControl g.entryRoot) : g'.HasExit :=
  ⟨g.units.size, h.exitRoot, h.isControl_exit, Nat.ne_of_gt hroot.lt_size⟩

end Graph

namespace Lowering

open SlotScheduling.Graph

variable {g before after : Graph} {block : BlockId} {l : Lowering}

/-- The exit may be made to wait for any control units. -/
theorem closes_attachExits {sinks : List UnitId} (hbefore : Closes block g before)
    (hsinks : ∀ sink ∈ sinks, g.IsControl sink)
    (h : sinks.foldlM (attachExit g.units.size) before = .ok after) : Closes block g after := by
  refine Checked.foldlM_induction (P := Closes block g)
    (fun sink hsink before after hbefore hround => ?_) hbefore h
  obtain ⟨_, _, hround⟩ := Checked.bind_eq_ok.mp hround
  exact hbefore.addDep (hsinks sink hsink) rfl hround

theorem closes_finish (hg : l.graph.WellFormed) (h : l.finish = .ok g) :
    Closes l.lastBlock l.graph g := by
  obtain ⟨sinks, hsinks, h⟩ := Checked.bind_eq_ok.mp h
  obtain ⟨attached, hattach, h⟩ := Checked.bind_eq_ok.mp h
  obtain ⟨_, _, h⟩ := Checked.bind_eq_ok.mp h
  obtain rfl := Checked.pure_eq_ok.mp h
  exact closes_attachExits (closes_createExit hg l.lastBlock)
    (fun sink hsink => hg.control.mp ((Checked.mem_filterM hsinks).mp hsink).1) hattach

end Lowering

end SlotScheduling
