import SlotScheduling.Proofs.Placement.Placed
import SlotScheduling.Proofs.Placement.Spanned

/-!
# The system of the control path, exactly

Where no cycle lies in the data path alone and all numbers are small, the system of the control path
can be built, and its solutions are the slots that respect the dependencies among control units, the
paths between them over the data path, the entry slot, the end of the critical path and the issue
order.  So it has an earliest solution whenever there are such slots, and none of them is earlier.
-/

namespace SlotScheduling

open ConstraintSystem

namespace ControlSystem

/-- The slots respect everything that the control path is asked for. -/
structure Admits (g : Graph) (bounds : ControlBounds) (slots : UnitId → Int) : Prop where
  fixed : ∀ {id slot}, g.IsControl id → g.slot? id = some slot → slots id = slot
  free : ∀ {id}, g.IsControl id → g.slot? id = none → (g.entrySlot : Int) ≤ slots id
  direct : ∀ {source user offset}, g.IsControl source → g.IsControl user →
    bounds.Asks g source user offset → slots source + offset ≤ slots user
  through : ∀ {control source user span offset}, LookThrough.Spans g bounds control source span →
    g.IsControl user → bounds.Asks g source user offset →
    slots control + span + offset ≤ slots user
  ends : ∀ {exit last}, g.exitRoot = some exit → bounds.criticalPathEnd = some last →
    slots exit ≤ g.entrySlot + last
  chains : ∀ {order chain}, bounds.order = some order → chain ∈ order.chains →
    (chain.units.map slots).Pairwise (· < ·)
  windows : ∀ {order chain interval}, bounds.order = some order → chain ∈ order.chains →
    bounds.moduloWindow = true → bounds.interval? g chain.block = some interval →
    ∀ first ∈ chain.units.head?, ∀ last ∈ chain.units.getLast?,
      slots last - slots first < interval

/-- Slots, intervals and offsets are so small that the system can be built and is solved exactly. -/
structure Buildable (g : Graph) (bounds : ControlBounds) : Prop extends bounds.Suits g where
  size : g.units.size < 2 ^ 64
  exit : ∀ {exit}, g.exitRoot = some exit → g.IsControl exit
  slots : ∀ {id slot}, g.IsControl id → g.slot? id = some slot → slot < Word.count
  entrySlot : g.entrySlot < Word.count
  ends : ∀ {last}, bounds.criticalPathEnd = some last → g.entrySlot + last < Word.count
  chained : ∀ {order chain id}, bounds.order = some order → chain ∈ order.chains →
    id ∈ chain.units → g.IsControl id
  intervals : ∀ {order chain interval}, bounds.order = some order → chain ∈ order.chains →
    bounds.interval? g chain.block = some interval → interval < Word.count

end ControlSystem

namespace ConstraintSystem

/-- The slots as an assignment to the variables. -/
def valuesAt (sys : ConstraintSystem) (slots : UnitId → Int) (index : Nat) : Int :=
  (sys.unknowns[index]?.map slots).getD 0

theorem valuesAt_congr {sys sys' : ConstraintSystem} (h : sys'.unknowns = sys.unknowns) :
    sys.valuesAt = sys'.valuesAt := by
  funext slots index
  rw [valuesAt, valuesAt, h]

/-- The term is one of the system, and fits into the numbers of the solver. -/
structure Holds (sys : ConstraintSystem) (term : Term) : Prop where
  owned : term.Owned sys
  shift : term.shift.natAbs < Word.count

variable {sys sys' : ConstraintSystem} {target source term : Term} {weight : Int}

theorem Extends.holds (h : sys.Extends sys') (hterm : sys.Holds term) : sys'.Holds term :=
  ⟨h.owned hterm.owned, hterm.shift⟩

theorem holds_const {value : Int} (h : value.natAbs < Word.count) : sys.Holds (.const value) :=
  ⟨owned_const value, h⟩

/-- A constraint between small terms of a small system can be added. -/
theorem exists_addGeq (hsize : sys.unknowns.size < 2 ^ 64) (htarget : sys.Holds target)
    (hsource : sys.Holds source) (hweight : weight.natAbs ≤ 2 ^ 52) :
    ∃ sys', sys.addGeq target source weight = .ok sys' ∧ sys.Extends sys' ∧
      ∀ arc ∈ sys'.arcs, arc ∈ sys.arcs ∨ arc.weight.natAbs + Word.count ≤ 2 ^ 53 := by
  have hnode : ∀ {term}, sys.Holds term → term.checkNode = .ok ⟨⟩ := by
    intro term hterm
    have hnode := hterm.owned
    unfold Term.Owned at hnode
    exact if_pos (Nat.lt_of_le_of_lt hnode hsize)
  have hshift := hsource.shift
  have hshift' := htarget.shift
  unfold Word.count at hshift hshift'
  have hraised : Offset.add weight source.shift = .ok (weight + source.shift) :=
    Offset.exists_check (2 ^ 53) (by omega) (by decide)
  have hfolded : Offset.sub (weight + source.shift) target.shift =
      .ok (weight + source.shift - target.shift) :=
    Offset.exists_check (2 ^ 53) (by omega) (by decide)
  have hok : ∃ sys', sys.addGeq target source weight = .ok sys' := by
    rw [addGeq, hnode htarget, hnode hsource, hraised]
    simp only [Checked.ok_bind, hfolded]
    split
    · split
      · exact ⟨_, rfl⟩
      · exact ⟨_, rfl⟩
    · exact ⟨_, rfl⟩
  obtain ⟨sys', hok⟩ := hok
  refine ⟨sys', hok, extends_addGeq hok htarget.owned hsource.owned, fun arc harc => ?_⟩
  rcases addGeq_cases hok with ⟨_, _, rfl⟩ | ⟨_, rfl⟩
  · exact Or.inl harc
  · rcases List.mem_cons.mp harc with rfl | harc
    · refine Or.inr ?_
      change (weight + source.shift - target.shift).natAbs + Word.count ≤ 2 ^ 53
      unfold Word.count
      omega
    · exact Or.inl harc

end ConstraintSystem

namespace ControlSystem

variable {g : Graph} {bounds : ControlBounds} {base sys sys' : ConstraintSystem}
  {slots : UnitId → Int} {id : UnitId} {term target source : Term}

/-- All arcs are small, and all slots that the control path admits are a solution. -/
structure Upholds (g : Graph) (bounds : ControlBounds) (base sys : ConstraintSystem) : Prop where
  grows : base.Extends sys
  small : ∀ arc ∈ sys.arcs, arc.weight.natAbs ≤ 2 ^ 53
  admits : ∀ {slots}, Admits g bounds slots → sys.Satisfies (base.valuesAt slots)

/-- The term stands for the slot of the unit. -/
structure StandsFor (g : Graph) (bounds : ControlBounds) (base : ConstraintSystem)
    (id : UnitId) (term : Term) : Prop extends base.Holds term where
  eval : ∀ {slots}, Admits g bounds slots → term.eval (base.valuesAt slots) = slots id

/-- A system under construction upholds what is asked for, and so does what was looked through. -/
structure Assembles (g : Graph) (bounds : ControlBounds) (base : ConstraintSystem)
    (assembly : ControlAssembly) : Prop extends Upholds g bounds base assembly.system where
  complete : LookThrough.Complete g bounds assembly.found
  exact : LookThrough.Exact g bounds assembly.found

section

variable (hg : Buildable g bounds) (hfree : base.IsFree g g.controlUnits)

include hg hfree

theorem size_unknowns_lt (h : base.Extends sys) : sys.unknowns.size < 2 ^ 64 := by
  rw [h.keepsUnits]
  exact (hfree.size_le fun id hid => (hg.control.mp hid).lt_size).trans_lt hg.size

/-- A control unit has a variable or a slot. -/
theorem exists_term (h : base.Extends sys) (hid : g.IsControl id) :
    ∃ term, sys.term? g id = .ok (some term) ∧ StandsFor g bounds base id term := by
  have hcontrol := hid
  obtain ⟨unit, hunit, -⟩ := hcontrol
  have hlisted := hg.control.mpr hid
  cases hvariable : sys.variableOf? id with
  | some index =>
      have hbase := h.variableOf?_eq.symm.trans hvariable
      refine ⟨.var index, by rw [term?, hvariable]; rfl, ⟨⟨lt_size_of_variableOf? hbase, ?_⟩, ?_⟩⟩
      · exact (by decide : (0 : Int).natAbs < Word.count)
      · intro slots _
        rw [Term.eval, valuesAt, variableOf?_eq_some hbase]
        rfl
  | none =>
      cases hslot : g.slot? id with
      | none =>
          obtain ⟨index, hindex⟩ := hfree.exists_index hlisted hslot
          rw [← h.variableOf?_eq, hvariable] at hindex
          cases hindex
      | some slot =>
          have hunitSlot := (Graph.slot?_eq hunit).symm.trans hslot
          refine ⟨.const slot, ?_, ⟨⟨owned_const _, ?_⟩, fun hslots => ?_⟩⟩
          · rw [term?, hvariable]
            simp only [Graph.unit_eq_ok.mpr hunit, Checked.ok_bind, hunitSlot]
            rfl
          · exact hg.slots hid hslot
          · exact (hslots.fixed hid hslot).symm

/-- What the admitted slots satisfy can be asked for. -/
theorem Upholds.addGeq (h : Upholds g bounds base sys) (htarget : base.Holds target)
    (hsource : base.Holds source) {weight : Int} (hweight : weight.natAbs ≤ 2 ^ 52)
    (hasked : ∀ {slots}, Admits g bounds slots →
      weight ≤ target.eval (base.valuesAt slots) - source.eval (base.valuesAt slots)) :
    ∃ sys', sys.addGeq target source weight = .ok sys' ∧ Upholds g bounds base sys' := by
  obtain ⟨sys', hok, hextends, harcs⟩ :=
    exists_addGeq (size_unknowns_lt hg hfree h.grows) (h.grows.holds htarget)
      (h.grows.holds hsource) hweight
  refine ⟨sys', hok, h.grows.trans hextends, fun arc harc => ?_, fun hslots => ?_⟩
  · exact (harcs arc harc).elim (h.small arc) (Nat.le_add_right _ _).trans
  · exact (satisfies_addGeq hok).mpr ⟨h.admits hslots, hasked hslots⟩

/-! ## Building the system -/

variable {assembly : ControlAssembly} {unit : ScheduleUnit} {dep : UnitId × EdgeBundle}
  {source user : UnitId} {offset : Int}

theorem Assembles.addDataDep (h : Assembles g bounds base assembly)
    (htarget : StandsFor g bounds base user target) (huser : g.IsControl user)
    (hdata : g.IsData source) (hasks : bounds.Asks g source user offset) :
    ∃ assembly', ControlAssembly.addDataDep g bounds target offset assembly source =
        .ok assembly' ∧ Assembles g bounds base assembly' := by
  obtain ⟨sources, found, hsources, hcomplete, hexact, hlead⟩ :=
    LookThrough.exists_sourcesOf hg.toSuits hdata ⟨source, user, .refl, huser, hasks.dependsOn⟩
      h.complete h.exact
  rw [ControlAssembly.addDataDep, hsources, Checked.ok_bind]
  refine Checked.exists_bind (P := Upholds g bounds base)
    (Checked.exists_foldlM (fun ⟨control, span⟩ hentry sys hsys => ?_) h.toUpholds)
    fun sys hsys => ⟨⟨sys, found⟩, rfl, hsys, hcomplete, hexact⟩
  have hspans : LookThrough.Spans g bounds control source span := hlead _ hentry
  obtain ⟨term, hterm, hstands⟩ := exists_term hg hfree hsys.grows hspans.isControl
  have hweight := hg.through hspans huser hasks
  obtain ⟨sys', hok, hupholds⟩ := hsys.addGeq hg hfree
    htarget.toHolds hstands.toHolds hweight fun hslots => by
      have := hslots.through hspans huser hasks
      rw [htarget.eval hslots, hstands.eval hslots]
      omega
  refine ⟨sys', ?_, hupholds⟩
  simp only [hterm, Checked.ok_bind, Offset.add, Offset.exists_check _ hweight (by decide), hok]

theorem Assembles.addControlDep (h : Assembles g bounds base assembly) {edge : DepEdge}
    (hloose : edge.isFixedTiming = false)
    (htarget : StandsFor g bounds base user target) (huser : g.IsControl user)
    (hsource : g.IsControl source) (hasks : bounds.Asks g source user offset) :
    ∃ assembly', ControlAssembly.addControlDep g target offset assembly source edge =
        .ok assembly' ∧ Assembles g bounds base assembly' := by
  obtain ⟨term, hterm, hstands⟩ := exists_term hg hfree h.grows hsource
  have hweight := hg.direct hsource huser hasks
  obtain ⟨sys', hok, hupholds⟩ := h.toUpholds.addGeq hg hfree
    htarget.toHolds hstands.toHolds hweight fun hslots => by
      have := hslots.direct hsource huser hasks
      rw [htarget.eval hslots, hstands.eval hslots]
      omega
  refine ⟨{ assembly with system := sys' }, ?_, hupholds, h.complete, h.exact⟩
  rw [ControlAssembly.addControlDep, hterm, Checked.ok_bind]
  simp only [addEdge, hloose, Bool.false_eq_true, if_false, hok, Checked.ok_bind]
  rfl

theorem Assembles.addDep (h : Assembles g bounds base assembly)
    (hunit : g.units[user]? = some unit) (huser : g.IsControl user)
    (hdep : dep ∈ unit.deps.entries)
    (htarget : StandsFor g bounds base user target) :
    ∃ assembly', ControlAssembly.addDep g bounds unit target assembly dep = .ok assembly' ∧
      Assembles g bounds base assembly' := by
  obtain ⟨offset?, hoffset⟩ := hg.known hunit dep hdep
  obtain ⟨producer, hproducer⟩ := hg.toWellFormed.exists_source hunit hdep
  rw [ControlAssembly.addDep, Graph.unit_eq_ok.mpr hproducer, Checked.ok_bind, hoffset,
    Checked.ok_bind]
  cases offset? with
  | none => exact ⟨assembly, rfl, h⟩
  | some offset =>
      have hget := Table.get?_of_mem_entries (hg.tidy hunit).nodup hdep
      have hasks : bounds.Asks g dep.1 user offset := ⟨unit, dep.2, hunit, hget, hoffset⟩
      simp only
      split
      next hdata =>
        exact h.addDataDep hg hfree htarget huser
          ⟨producer, hproducer, by simpa [ScheduleUnit.isData] using hdata⟩ hasks
      next hcontrol =>
        exact h.addControlDep hg hfree ((hg.tidy hunit).loose dep hdep) htarget huser
          ⟨producer, hproducer, by simpa [ScheduleUnit.isData] using hcontrol⟩ hasks

theorem Assembles.addUnit (h : Assembles g bounds base assembly) (hid : g.IsControl id) :
    ∃ assembly', ControlAssembly.addUnit g bounds assembly id = .ok assembly' ∧
      Assembles g bounds base assembly' := by
  have hcontrol := hid
  obtain ⟨unit, hunit, -⟩ := hcontrol
  obtain ⟨target, hterm, htarget⟩ := exists_term hg hfree h.grows hid
  have hdeps : ∀ {sys}, Upholds g bounds base sys →
      ∃ assembly', unit.deps.entries.foldlM (ControlAssembly.addDep g bounds unit target)
          { assembly with system := sys } = .ok assembly' ∧ Assembles g bounds base assembly' := by
    intro sys hupholds
    have hstarted : Assembles g bounds base { assembly with system := sys } :=
      ⟨hupholds, h.complete, h.exact⟩
    exact Checked.exists_foldlM
      (fun dep hdep now hnow => hnow.addDep hg hfree hunit hid hdep htarget) hstarted
  rw [ControlAssembly.addUnit, Graph.unit_eq_ok.mpr hunit, Checked.ok_bind, hterm,
    Checked.ok_bind]
  rcases term?_cases hterm with ⟨index, hindex, heq⟩ | ⟨_, heq⟩
  · cases heq
    have hentry := hg.entrySlot
    unfold Word.count at hentry
    rw [h.grows.variableOf?_eq] at hindex
    have hslot := (hfree.slot (Array.mem_of_getElem? (variableOf?_eq_some hindex))).2
    have hzero : base.Holds (.const 0) := holds_const (by decide)
    have hweight : (g.entrySlot : Int).natAbs ≤ 2 ^ 52 := by omega
    obtain ⟨sys, hok, hupholds⟩ :=
      h.toUpholds.addGeq hg hfree htarget.toHolds hzero hweight fun {slots} hslots => by
        rw [htarget.eval hslots]
        simpa [Term.eval] using hslots.free hid hslot
    simp only [lowerBound, hok, Checked.ok_bind]
    exact hdeps hupholds
  · obtain ⟨slot, _, rfl⟩ := Option.map_eq_some_iff.mp heq.symm
    exact hdeps h.toUpholds

theorem Upholds.addEnd (h : Upholds g bounds base sys) :
    ∃ sys', addEnd g bounds sys = .ok sys' ∧ Upholds g bounds base sys' := by
  unfold ControlSystem.addEnd
  split
  next last exit hlast hexit =>
    obtain ⟨term, hterm, hstands⟩ := exists_term hg hfree h.grows (hg.exit hexit)
    have hends := hg.ends hlast
    unfold Word.count at hends
    have hweight : (-((g.entrySlot : Int) + (last : Int))).natAbs ≤ 2 ^ 52 := by omega
    have hzero : base.Holds (.const 0) := holds_const (by decide)
    obtain ⟨sys', hok, hupholds⟩ :=
      h.addGeq hg hfree hzero hstands.toHolds hweight fun hslots => by
        have := hslots.ends hexit hlast
        rw [hstands.eval hslots, Term.eval]
        omega
    refine ⟨sys', ?_, hupholds⟩
    simp only [hterm, Checked.ok_bind, upperBound, Offset.neg,
      Offset.exists_check _ hweight (by decide), hok]
  next => exact ⟨sys, rfl, h⟩

theorem Upholds.addNeighbours {ids : List UnitId} {terms : List Term}
    (h : Upholds g bounds base sys) (hterms : List.Forall₂ (StandsFor g bounds base) ids terms)
    (hsorted : ∀ {slots}, Admits g bounds slots → (ids.map slots).Pairwise (· < ·)) :
    ∃ sys', addNeighbours terms sys = .ok sys' ∧ Upholds g bounds base sys' := by
  induction hterms generalizing sys with
  | nil => exact ⟨sys, rfl, h⟩
  | @cons id term ids terms hfirst hrest ih =>
      cases hrest with
      | nil => exact ⟨sys, rfl, h⟩
      | @cons id' term' ids terms hsecond hrest =>
          have hweight : (1 : Int).natAbs ≤ 2 ^ 52 := by decide
          obtain ⟨middle, hok, hmiddle⟩ :=
            h.addGeq hg hfree hsecond.toHolds hfirst.toHolds hweight fun {slots} hslots => by
              have hlt : slots id < slots id' :=
                (List.pairwise_cons.mp (hsorted hslots)).1 _ List.mem_cons_self
              rw [hfirst.eval hslots, hsecond.eval hslots]
              omega
          rw [ControlSystem.addNeighbours, hok, Checked.ok_bind]
          exact ih hmiddle fun hslots => (List.pairwise_cons.mp (hsorted hslots)).2

theorem Upholds.addWindow {ids : List UnitId} {terms : List Term} {interval : Nat}
    (h : Upholds g bounds base sys) (hterms : List.Forall₂ (StandsFor g bounds base) ids terms)
    (hinterval : interval < Word.count)
    (hfits : ∀ {slots}, Admits g bounds slots → ∀ first ∈ ids.head?, ∀ last ∈ ids.getLast?,
      slots last - slots first < interval) :
    ∃ sys', addWindow terms interval sys = .ok sys' ∧ Upholds g bounds base sys' := by
  have hmap : ∀ {slots}, Admits g bounds slots →
      terms.map (Term.eval (base.valuesAt slots)) = ids.map slots := by
    intro slots hslots
    clear hfits
    induction hterms with
    | nil => rfl
    | cons hfirst _ ih => rw [List.map_cons, List.map_cons, hfirst.eval hslots, ih]
  have howned : ∀ term ∈ terms, base.Holds term := by
    clear hfits hmap
    induction hterms with
    | nil => simp
    | cons hfirst _ ih => exact List.forall_mem_cons.mpr ⟨hfirst.toHolds, ih⟩
  unfold ControlSystem.addWindow
  split
  next first last hfirst hlast =>
    unfold Word.count at hinterval
    have hweight : (1 - (interval : Int)).natAbs ≤ 2 ^ 52 := by omega
    obtain ⟨sys', hok, hupholds⟩ := h.addGeq hg hfree (howned first (List.mem_of_mem_head? hfirst))
      (howned last (List.mem_of_mem_getLast? hlast)) hweight fun {slots} hslots => by
        have hmap := hmap hslots
        have hhead := congrArg List.head? hmap
        have hend := congrArg List.getLast? hmap
        rw [List.head?_map, List.head?_map, hfirst] at hhead
        rw [List.getLast?_map, List.getLast?_map, hlast] at hend
        obtain ⟨firstId, hfirstId, hfirstEval⟩ := Option.map_eq_some_iff.mp hhead.symm
        obtain ⟨lastId, hlastId, hlastEval⟩ := Option.map_eq_some_iff.mp hend.symm
        have := hfits hslots firstId hfirstId lastId hlastId
        omega
    exact ⟨sys', hok, hupholds⟩
  next => exact ⟨sys, rfl, h⟩

/-- Every unit of a chain stands in the system. -/
theorem exists_terms (h : base.Extends sys) {ids : List UnitId}
    (hids : ∀ id ∈ ids, g.IsControl id) :
    ∃ terms, ids.filterMapM (fun id => sys.term? g id) = .ok terms ∧
      List.Forall₂ (StandsFor g bounds base) ids terms := by
  induction ids with
  | nil => exact ⟨[], rfl, .nil⟩
  | cons id rest ih =>
      obtain ⟨hid, hrest⟩ := List.forall_mem_cons.mp hids
      obtain ⟨term, hterm, hstands⟩ := exists_term hg hfree h hid
      obtain ⟨terms, hterms, hall⟩ := ih hrest
      refine ⟨term :: terms, ?_, .cons hstands hall⟩
      rw [List.filterMapM_cons, hterm, Checked.ok_bind, hterms]
      rfl

theorem Upholds.addChain {order : IssueOrder} {chain : IssueChain}
    (h : Upholds g bounds base sys) (horder : bounds.order = some order)
    (hchain : chain ∈ order.chains) :
    ∃ sys', addChain g bounds sys chain = .ok sys' ∧ Upholds g bounds base sys' := by
  obtain ⟨terms, hterms, hall⟩ := exists_terms hg hfree h.grows
    fun id hid => hg.chained horder hchain hid
  obtain ⟨sorted, hsorted, hupholds⟩ :=
    h.addNeighbours hg hfree hall fun hslots => hslots.chains horder hchain
  rw [ControlSystem.addChain, hterms, Checked.ok_bind, hsorted, Checked.ok_bind]
  split
  next interval hinterval =>
    split
    next hwindow =>
      exact hupholds.addWindow hg hfree hall (hg.intervals horder hchain hinterval)
        fun hslots => hslots.windows horder hchain hwindow hinterval
    next => exact ⟨sorted, rfl, hupholds⟩
  next => exact ⟨sorted, rfl, hupholds⟩

end

/-- The system can be built, and all slots that the control path admits are a solution. -/
theorem exists_build (hg : Buildable g bounds) : ∃ sys, build g bounds = .ok sys ∧
    (∀ arc ∈ sys.arcs, arc.weight.natAbs ≤ 2 ^ 53) ∧
    ∀ {slots}, Admits g bounds slots → sys.Satisfies (sys.valuesAt slots) := by
  obtain ⟨base, hbase, -⟩ : ∃ base, ofFree g g.controlUnits = .ok base ∧ True :=
    Checked.exists_foldlM (fun id hid sys _ => by
      obtain ⟨unit, hunit, -⟩ := hg.control.mp hid
      rw [Graph.unit_eq_ok.mpr hunit, Checked.ok_bind]
      split
      · exact ⟨_, rfl, trivial⟩
      · exact ⟨_, rfl, trivial⟩) trivial
  have hfree := isFree_ofFree hbase
  have hstart : Upholds g bounds base base :=
    ⟨Extends.refl _, fun arc harc => by simp [hfree.arcs] at harc,
      fun _ => ⟨hfree.violated, fun arc harc => by simp [hfree.arcs] at harc⟩⟩
  have hassembles : Assembles g bounds base { system := base, found := .start g } :=
    ⟨hstart, LookThrough.complete_start, LookThrough.exact_start⟩
  obtain ⟨assembly, hassembly, hunits⟩ := Checked.exists_foldlM
    (fun id hid assembly h => h.addUnit hg hfree (hg.control.mp hid)) hassembles
  obtain ⟨ended, hended, hupholds⟩ := hunits.toUpholds.addEnd hg hfree
  have hbuilt : ∃ sys, build g bounds = .ok sys ∧ Upholds g bounds base sys := by
    rw [build, hbase, Checked.ok_bind]
    simp only [hassembly, Checked.ok_bind, hended]
    cases horder : bounds.order with
    | none => exact ⟨ended, rfl, hupholds⟩
    | some order =>
        exact Checked.exists_foldlM
          (fun chain hchain sys h => h.addChain hg hfree horder hchain) hupholds
  obtain ⟨sys, hbuild, hsys⟩ := hbuilt
  refine ⟨sys, hbuild, hsys.small, fun hslots => ?_⟩
  have hvalues := hsys.admits hslots
  rwa [valuesAt_congr hsys.grows.keepsUnits] at hvalues

theorem grounded_addUnit (hbase : base.Extends assembly.system)
    (hfound : LookThrough.Complete g bounds assembly.found) {assembly' : ControlAssembly}
    (h : ControlAssembly.addUnit g bounds assembly id = .ok assembly') {index : Nat}
    (hindex : base.variableOf? id = some index) :
    ∃ arc ∈ assembly'.system.arcs, arc.source = 0 ∧ arc.target = index + 1 ∧ 0 ≤ arc.weight := by
  obtain ⟨unit, hunit, _⟩ := Checked.bind_eq_ok.mp h
  rw [← hbase.variableOf?_eq] at hindex
  rcases ControlAssembly.addUnit_cases (Graph.unit_eq_ok.mp hunit) h with
    ⟨hterm, -⟩ | ⟨target, started, hterm, hstart, hdeps⟩
  · rw [variableOf?_eq_none_of_term? hterm] at hindex
    cases hindex
  · rcases hstart with ⟨index', hindex', rfl, hstarted⟩ | ⟨hnone, -⟩
    · obtain rfl := Option.some.inj (hindex.symm.trans hindex')
      have howned : (Term.var index).Owned assembly.system := lt_size_of_variableOf? hindex
      have hgrows := extends_lowerBound hstarted howned
      obtain ⟨hextends, -⟩ := ControlAssembly.addDeps_sound (hbase.trans hgrows) (by exact hfound)
        (hgrows.owned howned)
        (fun values => (hbase.map_eval_term? hterm values).symm) hdeps
      refine ⟨_, hextends.arcs (mem_arcs_addGeq hstarted (Nat.succ_ne_zero index)), rfl, rfl, ?_⟩
      simp [Term.shift]
    · rw [hnone] at hindex
      cases hindex

/-- Every variable has a lower bound. -/
theorem grounded_build (h : build g bounds = .ok sys) {index : Nat}
    (hindex : index < sys.unknowns.size) :
    ∃ arc ∈ sys.arcs, arc.source = 0 ∧ arc.target = index + 1 ∧ 0 ≤ arc.weight := by
  obtain ⟨base, hfree, h⟩ := Checked.bind_eq_ok.mp h
  obtain ⟨assembly, hassembly, h⟩ := Checked.bind_eq_ok.mp h
  obtain ⟨ended, hended, h⟩ := Checked.bind_eq_ok.mp h
  have hfree := isFree_ofFree hfree
  have hended := extends_addEnd hended
  obtain ⟨⟨hgrows, -⟩, hgrounded⟩ := Checked.foldlM_forall
    (P := fun now : ControlAssembly =>
      base.Extends now.system ∧ LookThrough.Complete g bounds now.found)
    (Q := fun id now => ∀ index, base.variableOf? id = some index →
      ∃ arc ∈ now.system.arcs, arc.source = 0 ∧ arc.target = index + 1 ∧ 0 ≤ arc.weight)
    (fun id _ before after hbefore hround => by
      obtain ⟨hextends, hcomplete, -⟩ :=
        ControlAssembly.addUnit_sound hbefore.1 hbefore.2 hround
      refine ⟨⟨hbefore.1.trans hextends, hcomplete⟩,
        fun index => grounded_addUnit hbefore.1 hbefore.2 hround,
        fun other hother index hindex => ?_⟩
      obtain ⟨arc, harc, hroot⟩ := hother index hindex
      exact ⟨arc, hextends.arcs harc, hroot⟩)
    (by exact ⟨Extends.refl _, LookThrough.complete_start⟩) hassembly
  have hlast : ended.Extends sys := by
    split at h
    · exact Checked.pure_eq_ok.mp h ▸ Extends.refl _
    · exact (addChains_sound (hgrows.trans hended) h).1
  rw [hlast.keepsUnits, hended.keepsUnits, hgrows.keepsUnits] at hindex
  have hid : base.unknowns[index] ∈ base.unknowns := Array.getElem_mem hindex
  obtain ⟨hmem, hslot⟩ := hfree.slot hid
  obtain ⟨index', hindex'⟩ := hfree.exists_index hmem hslot
  have hsame : index' = index := by
    have hget := variableOf?_eq_some hindex'
    rw [← Array.getElem?_eq_getElem hindex, ← Array.getElem?_toList, ← Array.getElem?_toList]
      at hget
    have hlt : index' < base.unknowns.toList.length := lt_size_of_variableOf? hindex'
    exact (List.getElem?_inj hlt hfree.nodup).mp hget
  obtain ⟨arc, harc, hroot⟩ := hgrounded _ hmem index' hindex'
  exact ⟨arc, hlast.arcs (hended.arcs harc), hsame ▸ hroot⟩

/-! ## Its solutions -/

/-- The slots that an assignment to the variables stands for. -/
def slotsOf (g : Graph) (sys : ConstraintSystem) (values : Nat → Int) (id : UnitId) : Int :=
  (sys.valueOf? g values id).getD 0

/-- A control unit of the graph has a value. -/
theorem valueOf?_eq_slotsOf (hfree : base.IsFree g g.controlUnits) (h : base.Extends sys)
    (hlisted : g.Listed) (hid : g.IsControl id) (values : Nat → Int) :
    base.valueOf? g values id = some (slotsOf g sys values id) := by
  have hsome : ∃ value, base.valueOf? g values id = some value := by
    unfold valueOf?
    cases hvariable : base.variableOf? id with
    | some index => exact ⟨_, rfl⟩
    | none =>
        cases hslot : g.slot? id with
        | some slot => exact ⟨_, rfl⟩
        | none =>
            obtain ⟨index, hindex⟩ := hfree.exists_index (hlisted.control.mpr hid) hslot
            rw [hvariable] at hindex
            cases hindex
  obtain ⟨value, hvalue⟩ := hsome
  rw [slotsOf, valueOf?_congr h.keepsUnits, hvalue, Option.getD_some]

theorem ends_of_build (h : build g bounds = .ok sys) {values : Nat → Int}
    (hvalues : sys.Satisfies values) {exit : UnitId} {last : Nat}
    (hexit : g.exitRoot = some exit) (hlast : bounds.criticalPathEnd = some last) {x : Int}
    (hx : sys.valueOf? g values exit = some x) : x ≤ g.entrySlot + last := by
  obtain ⟨base, hfree, h⟩ := Checked.bind_eq_ok.mp h
  obtain ⟨assembly, hassembly, h⟩ := Checked.bind_eq_ok.mp h
  obtain ⟨ended, hended, h⟩ := Checked.bind_eq_ok.mp h
  obtain ⟨hgrows, -⟩ :=
    addUnits_sound (by exact Extends.refl base) LookThrough.complete_start hassembly
  have hlastStep : ended.Extends sys := by
    split at h
    · exact Checked.pure_eq_ok.mp h ▸ Extends.refl _
    · exact (addChains_sound (hgrows.trans (extends_addEnd hended)) h).1
  rw [valueOf?_congr (hlastStep.keepsUnits.trans (extends_addEnd hended).keepsUnits)] at hx
  rw [addEnd, hlast, hexit] at hended
  obtain ⟨term?, hterm, hended⟩ := Checked.bind_eq_ok.mp hended
  have heval := map_eval_term? hterm values
  rw [hx] at heval
  obtain ⟨term, rfl, rfl⟩ := Option.map_eq_some_iff.mp heval
  exact ((satisfies_upperBound hended).mp (hlastStep.satisfies values hvalues)).2

/-- Every solution of the system is one that the control path admits. -/
theorem admits_of_satisfies (hg : Buildable g bounds) (h : build g bounds = .ok sys)
    {values : Nat → Int} (hvalues : sys.Satisfies values) :
    Admits g bounds (slotsOf g sys values) := by
  obtain ⟨base, hbase⟩ := exists_describes h
  have hlisted : g.Listed := hg.toListed
  have hvalue : ∀ {id}, g.IsControl id →
      base.valueOf? g values id = some (slotsOf g sys values id) :=
    fun hid => valueOf?_eq_slotsOf hbase.free hbase.grows hlisted hid values
  have hmeets : ∀ {source user offset}, g.IsControl user → bounds.Asks g source user offset →
      (g.IsControl source →
        slotsOf g sys values source + offset ≤ slotsOf g sys values user) ∧
      ∀ control span, LookThrough.Spans g bounds control source span →
        slotsOf g sys values control + span + offset ≤ slotsOf g sys values user := by
    rintro source user offset huser ⟨unit, bundle, hunit, hbundle, hoffset⟩
    have hmem := Table.mem_entries_of_get?_eq_some hbundle
    obtain ⟨offset?, hoffset', hmeets⟩ :=
      (hbase.units values hvalues user (hlisted.control.mpr huser)).2 unit hunit _ hmem _
        (hvalue huser)
    rw [hoffset] at hoffset'
    cases hoffset'
    obtain ⟨hdirect, hthrough⟩ := hmeets offset rfl
    refine ⟨fun hsource => ?_, fun control span hspans => ?_⟩
    · have hgap : offset ≤ slotsOf g sys values user - slotsOf g sys values source :=
        (hdirect hsource _ (hvalue hsource)).le
      omega
    · exact hthrough control span hspans _ (hvalue hspans.isControl)
  have hmap : ∀ {order chain}, bounds.order = some order → chain ∈ order.chains →
      chain.units.filterMap (base.valueOf? g values) = chain.units.map (slotsOf g sys values) :=
    fun horder hchain => List.filterMap_eq_map_iff_forall_eq_some.mpr
      fun id hid => hvalue (hg.chained horder hchain hid)
  refine ⟨fun {id slot} hid hslot => ?_, fun {id} hid hslot => ?_,
    fun hsource huser hasks => (hmeets huser hasks).1 hsource,
    fun hspans huser hasks => (hmeets huser hasks).2 _ _ hspans, fun hexit hlast => ?_,
    fun {order chain} horder hchain => ?_,
    fun {order chain interval} horder hchain hwindow hinterval => ?_⟩
  · have hnone : base.variableOf? id = none :=
      hbase.free.variableOf?_eq_none fun hfree => by simp [hslot] at hfree
    have hget := hvalue hid
    rw [valueOf?, hnone, hslot] at hget
    exact (Option.some.inj hget).symm
  · obtain ⟨index, hindex⟩ := hbase.free.exists_index (hlisted.control.mpr hid) hslot
    have hget := hvalue hid
    rw [valueOf?, hindex] at hget
    rw [← Option.some.inj hget]
    exact (hbase.units values hvalues id (hlisted.control.mpr hid)).1 index hindex
  · refine ends_of_build h hvalues hexit hlast ?_
    rw [valueOf?_congr hbase.grows.keepsUnits]
    exact hvalue (hg.exit hexit)
  · rw [← hmap horder hchain]
    exact (hbase.chains values hvalues order horder chain hchain).1
  · intro first hfirst last hlast
    refine (hbase.chains values hvalues order horder chain hchain).2 interval hwindow hinterval
      _ ?_ _ ?_
    · rw [hmap horder hchain, List.head?_map]
      exact Option.mem_map_of_mem _ hfirst
    · rw [hmap horder hchain, List.getLast?_map]
      exact Option.mem_map_of_mem _ hlast

/-- The earliest solution exists if the control path admits any slots that are words. -/
theorem exists_earliest_of_admits (hg : Buildable g bounds) (h : build g bounds = .ok sys)
    (hslots : Admits g bounds slots)
    (hwords : ∀ {id}, g.IsControl id → 0 ≤ slots id ∧ slots id < Word.count) :
    ∃ placed, sys.earliest = .ok placed := by
  obtain ⟨base, hbase⟩ := exists_describes h
  obtain ⟨sys', hbuild, hsmall, hadmits⟩ := exists_build hg
  obtain rfl : sys = sys' := Except.ok.inj (h.symm.trans hbuild)
  refine exists_earliest (hbase.grows.closed hbase.free.closed) hsmall
    (fun index => grounded_build h) (hadmits hslots) fun index hindex => ?_
  have hmem : sys.unknowns[index] ∈ base.unknowns := by
    rw [← hbase.grows.keepsUnits]
    exact Array.getElem_mem hindex
  rw [valuesAt, Array.getElem?_eq_getElem hindex]
  exact hwords (hg.control.mp (hbase.free.slot hmem).1)

/-- The earliest solution is admitted, and no slots that the control path admits are earlier. -/
theorem admits_earliest (hg : Buildable g bounds) (h : build g bounds = .ok sys)
    {placed : List (UnitId × Nat)} (hplaced : sys.earliest = .ok placed) :
    Admits g bounds (slotsOf g sys (valuesOf placed)) ∧
      ∀ {slots}, Admits g bounds slots → ∀ {id}, g.IsControl id →
        slotsOf g sys (valuesOf placed) id ≤ slots id := by
  obtain ⟨base, hbase⟩ := exists_describes h
  obtain ⟨sys', hbuild, hsmall, hadmits⟩ := exists_build hg
  obtain rfl : sys = sys' := Except.ok.inj (h.symm.trans hbuild)
  have hadmitted := admits_of_satisfies hg h (hbase.satisfies hplaced)
  refine ⟨hadmitted, fun {slots} hslots {id} hid => ?_⟩
  cases hslot : g.slot? id with
  | some slot => rw [hadmitted.fixed hid hslot, hslots.fixed hid hslot]
  | none =>
      obtain ⟨index, hindex⟩ := hbase.free.exists_index (hg.control.mpr hid) hslot
      rw [← hbase.grows.variableOf?_eq] at hindex
      have hle := earliest_le (hbase.grows.closed hbase.free.closed) hbase.rooted
        (fun arc harc => Significand.keep_of_natAbs_le (hsmall arc harc)) hplaced
        (hadmits hslots) (lt_size_of_variableOf? hindex)
      rw [valuesAt, variableOf?_eq_some hindex] at hle
      rw [slotsOf, valueOf?, hindex]
      exact hle

end ControlSystem

end SlotScheduling
