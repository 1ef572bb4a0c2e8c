import SlotScheduling.Placement.ControlSystem
import SlotScheduling.Proofs.Placement.LookThrough
import SlotScheduling.Proofs.Placement.Variables

/-!
# What the constraints of the control path say

Every solution of the system of the control path respects the dependencies among
control units, the paths between them over the data path as far as these keep off
cycles, the entry slot, and the issue order.  The system only grows while
it is built, so that what one step of the construction adds holds of all
solutions in the end.
-/

namespace SlotScheduling

open ConstraintSystem

variable {g : Graph} {bounds : ControlBounds} {base : ConstraintSystem}

namespace ControlSystem

/-- The offset of a dependency is in range, and the values respect it if it is one
on a control unit, and the paths that end with it if it is one on a data-path unit. -/
def MeetsDep (base : ConstraintSystem) (g : Graph) (bounds : ControlBounds)
    (values : Nat → Int) (id : UnitId) (unit : ScheduleUnit) (dep : UnitId × EdgeBundle) :
    Prop :=
  ∀ x, base.valueOf? g values id = some x →
    ∃ offset?, bounds.offset? g unit.block dep.2.edge = .ok offset? ∧
      ∀ offset ∈ offset?,
        (g.IsControl dep.1 →
          ∀ y, base.valueOf? g values dep.1 = some y → dep.2.edge.Admits offset (x - y)) ∧
        ∀ control span, LookThrough.Spans g bounds control dep.1 span →
          ∀ y, base.valueOf? g values control = some y → y + span + offset ≤ x

/-- The values respect the dependencies of a unit, and the entry slot if the unit
is free. -/
def MeetsUnit (base : ConstraintSystem) (g : Graph) (bounds : ControlBounds)
    (values : Nat → Int) (id : UnitId) : Prop :=
  (∀ index, base.variableOf? id = some index → (g.entrySlot : Int) ≤ values index) ∧
  ∀ unit, g.units[id]? = some unit →
    ∀ dep ∈ unit.deps.entries, MeetsDep base g bounds values id unit dep

/-- The values respect a chain of an issue order. -/
def MeetsChain (base : ConstraintSystem) (g : Graph) (bounds : ControlBounds)
    (values : Nat → Int) (chain : IssueChain) : Prop :=
  (chain.units.filterMap (base.valueOf? g values)).Pairwise (· < ·) ∧
  ∀ interval, bounds.moduloWindow = true →
    bounds.interval? g chain.block = some interval →
    ∀ first ∈ (chain.units.filterMap (base.valueOf? g values)).head?,
      ∀ last ∈ (chain.units.filterMap (base.valueOf? g values)).getLast?,
        last - first < interval

end ControlSystem

namespace ControlAssembly

variable {assembly assembly' : ControlAssembly} {target : Term} {offset : Int}

theorem addDataDep_sound {source : UnitId} (hbase : base.Extends assembly.system)
    (hfound : LookThrough.Complete g bounds assembly.found) (hdata : g.IsData source)
    (htarget : target.Owned assembly.system)
    (h : addDataDep g bounds target offset assembly source = .ok assembly') :
    assembly.system.Extends assembly'.system ∧
      LookThrough.Complete g bounds assembly'.found ∧
      ∀ values, assembly'.system.Satisfies values →
        ∀ control span, LookThrough.Spans g bounds control source span →
          ∀ y, base.valueOf? g values control = some y →
            y + span + offset ≤ target.eval values := by
  obtain ⟨⟨sources, found⟩, hsources, h⟩ := Checked.bind_eq_ok.mp h
  obtain ⟨sys, hsys, h⟩ := Checked.bind_eq_ok.mp h
  obtain rfl := Checked.pure_eq_ok.mp h
  obtain ⟨hcomplete, hget⟩ := LookThrough.sourcesOf_sound hfound hdata hsources
  obtain ⟨hextends, hmeets⟩ := extends_foldlM (fun sys => sys)
    (Q := fun (entry : UnitId × Int) sys => ∀ values, sys.Satisfies values →
      ∀ y, base.valueOf? g values entry.1 = some y → y + entry.2 + offset ≤ target.eval values)
    (fun entry before after hgrows => hgrows.meets_mono)
    (fun entry before after hbefore hround => by
      obtain ⟨term?, hterm, hround⟩ := Checked.bind_eq_ok.mp hround
      have hvalue := (hbase.trans hbefore).map_eval_term? hterm
      cases term? with
      | none =>
          obtain rfl := Checked.pure_eq_ok.mp hround
          refine ⟨Extends.refl _, fun values _ y hy => ?_⟩
          rw [← hvalue values] at hy
          cases hy
      | some term =>
          obtain ⟨weight, hweight, hround⟩ := Checked.bind_eq_ok.mp hround
          obtain rfl := (Offset.check_eq_ok.mp hweight).2
          refine ⟨extends_addGeq hround (hbefore.owned htarget) (owned_of_term? hterm),
            fun values hvalues y hy => ?_⟩
          rw [← hvalue values] at hy
          have heval : term.eval values = y := Option.some.inj hy
          have hgap := ((satisfies_addGeq hround).mp hvalues).2
          omega) hsys
  refine ⟨hextends, hcomplete, fun values hvalues control span hspans y hy => ?_⟩
  obtain ⟨known, hknown, hle⟩ := hcomplete.reaches hspans hget
  have hgap := hmeets _ (Table.mem_entries_of_get?_eq_some hknown) values hvalues y hy
  simp only at hgap
  omega

theorem addControlDep_sound {source : UnitId} {edge : DepEdge}
    (hbase : base.Extends assembly.system) (htarget : target.Owned assembly.system)
    (h : addControlDep g target offset assembly source edge = .ok assembly') :
    assembly.system.Extends assembly'.system ∧ assembly'.found = assembly.found ∧
      ∀ values, assembly'.system.Satisfies values →
        ∀ y, base.valueOf? g values source = some y →
          edge.Admits offset (target.eval values - y) := by
  obtain ⟨term?, hterm, h⟩ := Checked.bind_eq_ok.mp h
  have hvalue := hbase.map_eval_term? hterm
  cases term? with
  | none =>
      obtain rfl := Checked.pure_eq_ok.mp h
      refine ⟨Extends.refl _, rfl, fun values _ y hy => ?_⟩
      rw [← hvalue values] at hy
      cases hy
  | some term =>
      obtain ⟨sys, hsys, h⟩ := Checked.bind_eq_ok.mp h
      obtain rfl := Checked.pure_eq_ok.mp h
      have hsource := owned_of_term? hterm
      refine ⟨extends_addEdge hsys htarget hsource, rfl, fun values hvalues y hy => ?_⟩
      rw [← hvalue values] at hy
      cases hy
      exact admits_of_addEdge hsys hvalues

theorem addDep_sound {id : UnitId} {unit : ScheduleUnit} {dep : UnitId × EdgeBundle}
    (hbase : base.Extends assembly.system)
    (hfound : LookThrough.Complete g bounds assembly.found) (htarget : target.Owned assembly.system)
    (hvalue : ∀ values, base.valueOf? g values id = some (target.eval values))
    (h : addDep g bounds unit target assembly dep = .ok assembly') :
    assembly.system.Extends assembly'.system ∧
      LookThrough.Complete g bounds assembly'.found ∧
      ∀ values, assembly'.system.Satisfies values →
        ControlSystem.MeetsDep base g bounds values id unit dep := by
  obtain ⟨producer, hproducer, h⟩ := Checked.bind_eq_ok.mp h
  obtain ⟨offset?, hoffset, h⟩ := Checked.bind_eq_ok.mp h
  rw [Graph.unit_eq_ok] at hproducer
  cases offset? with
  | none =>
      obtain rfl := Checked.pure_eq_ok.mp h
      refine ⟨Extends.refl _, hfound, fun values _ x _ => ⟨none, hoffset, fun offset hnone => ?_⟩⟩
      cases hnone
  | some offset =>
      simp only at h
      by_cases hdata : producer.isData = true
      · rw [if_pos hdata] at h
        have hproduces : g.IsData dep.1 :=
          ⟨producer, hproducer, by simpa [ScheduleUnit.isData] using hdata⟩
        obtain ⟨hextends, hcomplete, hsound⟩ :=
          addDataDep_sound hbase hfound hproduces htarget h
        refine ⟨hextends, hcomplete, fun values hvalues x hx => ⟨_, hoffset, ?_⟩⟩
        intro offset' hsome
        obtain rfl := Option.some.inj hsome
        obtain rfl := Option.some.inj ((hvalue values).symm.trans hx)
        exact ⟨fun hcontrol => absurd hproduces hcontrol.not_isData, hsound values hvalues⟩
      · rw [if_neg hdata] at h
        have hcontrol : g.IsControl dep.1 :=
          ⟨producer, hproducer, by simpa [ScheduleUnit.isData] using hdata⟩
        obtain ⟨hextends, hsame, hsound⟩ := addControlDep_sound hbase htarget h
        refine ⟨hextends, hsame ▸ hfound, fun values hvalues x hx => ⟨_, hoffset, ?_⟩⟩
        intro offset' hsome
        obtain rfl := Option.some.inj hsome
        obtain rfl := Option.some.inj ((hvalue values).symm.trans hx)
        exact ⟨fun _ => hsound values hvalues, fun control span hspans =>
          absurd hspans.isData hcontrol.not_isData⟩

theorem addDeps_sound {id : UnitId} {unit : ScheduleUnit}
    {deps : List (UnitId × EdgeBundle)} (hbase : base.Extends assembly.system)
    (hfound : LookThrough.Complete g bounds assembly.found) (htarget : target.Owned assembly.system)
    (hvalue : ∀ values, base.valueOf? g values id = some (target.eval values))
    (h : deps.foldlM (addDep g bounds unit target) assembly = .ok assembly') :
    assembly.system.Extends assembly'.system ∧
      LookThrough.Complete g bounds assembly'.found ∧
      ∀ dep ∈ deps, ∀ values, assembly'.system.Satisfies values →
        ControlSystem.MeetsDep base g bounds values id unit dep := by
  obtain ⟨⟨hextends, hcomplete⟩, hmeets⟩ := Checked.foldlM_forall
    (P := fun now : ControlAssembly =>
      assembly.system.Extends now.system ∧ LookThrough.Complete g bounds now.found)
    (Q := fun dep now => ∀ values, now.system.Satisfies values →
      ControlSystem.MeetsDep base g bounds values id unit dep)
    (fun dep _ before after hbefore hround => by
      obtain ⟨hgrows, hcomplete⟩ := hbefore
      obtain ⟨hextends, hafter, hsound⟩ :=
        addDep_sound (hbase.trans hgrows) hcomplete (hgrows.owned htarget) hvalue hround
      exact ⟨⟨hgrows.trans hextends, hafter⟩, hsound, fun _ => hextends.meets_mono⟩)
    ⟨Extends.refl _, hfound⟩ h
  exact ⟨hextends, hcomplete, hmeets⟩

/-- A free unit gets the entry slot for a lower bound, and any unit the constraints
of its dependencies. -/
theorem addUnit_cases {id : UnitId} {unit : ScheduleUnit} (hunit : g.units[id]? = some unit)
    (h : addUnit g bounds assembly id = .ok assembly') :
    (assembly.system.term? g id = .ok none ∧ assembly' = assembly) ∨
      ∃ target started, assembly.system.term? g id = .ok (some target) ∧
        ((∃ index, assembly.system.variableOf? id = some index ∧ target = .var index ∧
            assembly.system.lowerBound target g.entrySlot = .ok started) ∨
          assembly.system.variableOf? id = none ∧ started = assembly.system) ∧
        unit.deps.entries.foldlM (addDep g bounds unit target)
          { assembly with system := started } = .ok assembly' := by
  obtain ⟨unit', hunit', h⟩ := Checked.bind_eq_ok.mp h
  obtain rfl := Option.some.inj (hunit.symm.trans (Graph.unit_eq_ok.mp hunit'))
  obtain ⟨term?, hterm, h⟩ := Checked.bind_eq_ok.mp h
  cases term? with
  | none => exact Or.inl ⟨hterm, Checked.pure_eq_ok.mp h⟩
  | some target =>
      rcases term?_cases hterm with ⟨index, hindex, heq⟩ | ⟨hnone, heq⟩
      · cases heq
        obtain ⟨started, hstarted, hend⟩ := Checked.bind_eq_ok.mp h
        exact Or.inr ⟨_, started, hterm, Or.inl ⟨index, hindex, rfl, hstarted⟩, hend⟩
      · obtain ⟨slot, _, rfl⟩ := Option.map_eq_some_iff.mp heq.symm
        obtain ⟨started, hstarted, hend⟩ := Checked.bind_eq_ok.mp h
        have hsame : started = assembly.system := Checked.pure_eq_ok.mp hstarted
        exact Or.inr ⟨_, started, hterm, Or.inr ⟨hnone, hsame⟩, hend⟩

theorem start_sound {started : ConstraintSystem} {id : UnitId} (hbase : base.Extends sys)
    (htarget : target.Owned sys)
    (h : (∃ index, sys.variableOf? id = some index ∧ target = .var index ∧
        sys.lowerBound target g.entrySlot = .ok started) ∨
      sys.variableOf? id = none ∧ started = sys) :
    sys.Extends started ∧ ∀ index, base.variableOf? id = some index →
      (∃ arc ∈ started.arcs, arc.source = 0 ∧ 0 ≤ arc.weight) ∧
        ∀ values, started.Satisfies values → (g.entrySlot : Int) ≤ values index := by
  rw [hbase.variableOf?_eq] at h
  rcases h with ⟨index, hindex, rfl, hstarted⟩ | ⟨hnone, rfl⟩
  · refine ⟨extends_lowerBound hstarted htarget, fun index' hindex' => ?_⟩
    obtain rfl := Option.some.inj (hindex.symm.trans hindex')
    refine ⟨exists_arc_of_lowerBound (Int.natCast_nonneg _) hstarted, fun values hvalues => ?_⟩
    exact ((satisfies_lowerBound hstarted).mp hvalues).2
  · refine ⟨Extends.refl _, fun index hindex => ?_⟩
    rw [hnone] at hindex
    cases hindex

theorem addUnit_sound {id : UnitId} (hbase : base.Extends assembly.system)
    (hfound : LookThrough.Complete g bounds assembly.found)
    (h : addUnit g bounds assembly id = .ok assembly') :
    assembly.system.Extends assembly'.system ∧
      LookThrough.Complete g bounds assembly'.found ∧
      (∀ index, base.variableOf? id = some index →
        ∃ arc ∈ assembly'.system.arcs, arc.source = 0 ∧ 0 ≤ arc.weight) ∧
      ∀ values, assembly'.system.Satisfies values →
        ControlSystem.MeetsUnit base g bounds values id := by
  obtain ⟨unit, hunit, _⟩ := Checked.bind_eq_ok.mp h
  rw [Graph.unit_eq_ok] at hunit
  rcases addUnit_cases hunit h with ⟨hterm, rfl⟩ | ⟨target, started, hterm, hstart, hend⟩
  · have hnone := hbase.variableOf?_eq.symm.trans (variableOf?_eq_none_of_term? hterm)
    have hvalue := hbase.map_eval_term? hterm
    refine ⟨Extends.refl _, hfound, fun index hindex => ?_, fun values _ => ⟨?_, ?_⟩⟩
    · rw [hnone] at hindex
      cases hindex
    · intro index hindex
      rw [hnone] at hindex
      cases hindex
    · intro _ _ dep _ x hx
      rw [← hvalue values] at hx
      cases hx
  · have htarget := owned_of_term? hterm
    obtain ⟨hextends, hfree⟩ := start_sound hbase htarget hstart
    obtain ⟨hdeps, hcomplete, hmeets⟩ := addDeps_sound (hbase.trans hextends) (by exact hfound)
      (hextends.owned htarget)
      (fun values => (hbase.map_eval_term? hterm values).symm) hend
    refine ⟨hextends.trans hdeps, hcomplete, fun index hindex => ?_,
      fun values hvalues => ⟨?_, ?_⟩⟩
    · obtain ⟨arc, hmem, harc⟩ := (hfree index hindex).1
      exact ⟨arc, hdeps.arcs hmem, harc⟩
    · intro index hindex
      exact (hfree index hindex).2 values (hdeps.satisfies values hvalues)
    · intro unit' hunit' dep hdep
      obtain rfl := Option.some.inj (hunit.symm.trans hunit')
      exact hmeets dep hdep values hvalues

end ControlAssembly

namespace ControlSystem

variable {sys sys' : ConstraintSystem}

theorem extends_addEnd (h : addEnd g bounds sys = .ok sys') : sys.Extends sys' := by
  unfold addEnd at h
  split at h
  · obtain ⟨term?, hterm, h⟩ := Checked.bind_eq_ok.mp h
    cases term? with
    | none => exact Checked.pure_eq_ok.mp h ▸ Extends.refl _
    | some term => exact extends_upperBound h (owned_of_term? hterm)
  · exact Checked.pure_eq_ok.mp h ▸ Extends.refl _

theorem addNeighbours_sound {terms : List Term} (hterms : ∀ term ∈ terms, term.Owned sys)
    (h : addNeighbours terms sys = .ok sys') :
    sys.Extends sys' ∧ ∀ values, sys'.Satisfies values →
      (terms.map (Term.eval values)).Pairwise (· < ·) := by
  induction terms generalizing sys with
  | nil =>
      cases h
      exact ⟨Extends.refl _, fun _ _ => List.Pairwise.nil⟩
  | cons first rest ih =>
      cases rest with
      | nil =>
          cases h
          exact ⟨Extends.refl _, fun _ _ => List.pairwise_singleton _ _⟩
      | cons second rest =>
          obtain ⟨middle, hmiddle, h⟩ := Checked.bind_eq_ok.mp h
          have hfirst := hterms first List.mem_cons_self
          have hsecond := hterms second (by simp)
          have hextends := extends_addGeq hmiddle hsecond hfirst
          obtain ⟨hrest, hsorted⟩ := ih
            (fun term hmem => hextends.owned (hterms term (List.mem_cons_of_mem _ hmem))) h
          refine ⟨hextends.trans hrest, fun values hvalues => ?_⟩
          have hsorted := hsorted values hvalues
          have hgap := ((satisfies_addGeq hmiddle).mp (hrest.satisfies values hvalues)).2
          rw [List.map_cons, List.pairwise_cons]
          refine ⟨fun value hvalue => ?_, hsorted⟩
          rw [List.map_cons, List.mem_cons] at hvalue
          rcases hvalue with rfl | hvalue
          · omega
          · rw [List.map_cons, List.pairwise_cons] at hsorted
            have := hsorted.1 value hvalue
            omega

theorem addWindow_sound {terms : List Term} {interval : Nat}
    (hterms : ∀ term ∈ terms, term.Owned sys) (h : addWindow terms interval sys = .ok sys') :
    sys.Extends sys' ∧ ∀ values, sys'.Satisfies values →
      ∀ first ∈ (terms.map (Term.eval values)).head?,
        ∀ last ∈ (terms.map (Term.eval values)).getLast?, last - first < (interval : Int) := by
  unfold addWindow at h
  split at h
  next first last hfirst hlast =>
    have hextends := extends_addGeq h (hterms first (List.mem_of_mem_head? hfirst))
      (hterms last (List.mem_of_mem_getLast? hlast))
    refine ⟨hextends, fun values hvalues x hx y hy => ?_⟩
    have hgap := ((satisfies_addGeq h).mp hvalues).2
    rw [List.head?_map, hfirst] at hx
    rw [List.getLast?_map, hlast] at hy
    cases hx
    cases hy
    omega
  next hnone =>
    cases h
    refine ⟨Extends.refl _, fun values _ x hx y hy => ?_⟩
    rw [List.head?_map] at hx
    rw [List.getLast?_map] at hy
    obtain ⟨first, hfirst, _⟩ := Option.map_eq_some_iff.mp hx
    obtain ⟨last, hlast, _⟩ := Option.map_eq_some_iff.mp hy
    exact (hnone first last hfirst hlast).elim

theorem terms_of_chain {units : List UnitId} {terms : List Term} (hbase : base.Extends sys)
    (h : units.filterMapM (fun id => sys.term? g id) = .ok terms) :
    (∀ term ∈ terms, term.Owned sys) ∧
      ∀ values, terms.map (Term.eval values) = units.filterMap (base.valueOf? g values) := by
  obtain ⟨found, hfound, rfl⟩ := Checked.filterMapM_eq_ok h
  clear h
  induction hfound with
  | nil => exact ⟨by simp, fun _ => rfl⟩
  | @cons id term? units found hterm _ ih =>
      have hvalue := hbase.map_eval_term? hterm
      obtain ⟨howned, hvalues⟩ := ih
      cases term? with
      | none =>
          refine ⟨by simpa using howned, fun values => ?_⟩
          have hnone := hvalue values
          rw [Option.map_none] at hnone
          simpa [List.filterMap_cons, ← hnone] using hvalues values
      | some term =>
          refine ⟨List.forall_mem_cons.mpr ⟨owned_of_term? hterm, howned⟩, fun values => ?_⟩
          have hsome := hvalue values
          rw [Option.map_some] at hsome
          simpa [List.filterMap_cons, ← hsome] using hvalues values

theorem addChain_sound {chain : IssueChain} (hbase : base.Extends sys)
    (h : addChain g bounds sys chain = .ok sys') :
    sys.Extends sys' ∧ ∀ values, sys'.Satisfies values →
      MeetsChain base g bounds values chain := by
  obtain ⟨terms, hterms, h⟩ := Checked.bind_eq_ok.mp h
  obtain ⟨sorted, hsorted, h⟩ := Checked.bind_eq_ok.mp h
  obtain ⟨howned, hvalues⟩ := terms_of_chain hbase hterms
  obtain ⟨hextends, hascending⟩ := addNeighbours_sound howned hsorted
  unfold MeetsChain
  simp only [← hvalues]
  split at h
  next interval hinterval =>
    split at h
    next hwindow =>
      obtain ⟨hlast, hfits⟩ :=
        addWindow_sound (fun term hmem => hextends.owned (howned term hmem)) h
      refine ⟨hextends.trans hlast, fun values hsatisfies => ⟨?_, ?_⟩⟩
      · exact hascending values (hlast.satisfies values hsatisfies)
      · intro interval' _ hinterval'
        rw [hinterval] at hinterval'
        cases hinterval'
        exact hfits values hsatisfies
    next hwindow =>
      obtain rfl := Checked.pure_eq_ok.mp h
      refine ⟨hextends, fun values hsatisfies => ⟨hascending values hsatisfies, ?_⟩⟩
      exact fun _ hwindow' => absurd hwindow' hwindow
  next hnone =>
    obtain rfl := Checked.pure_eq_ok.mp h
    refine ⟨hextends, fun values hsatisfies => ⟨hascending values hsatisfies, ?_⟩⟩
    intro interval _ hinterval
    rw [hnone] at hinterval
    cases hinterval

/-- What is known of a system that was built for a graph. -/
structure Describes (base : ConstraintSystem) (g : Graph) (bounds : ControlBounds)
    (sys : ConstraintSystem) : Prop where
  free : base.IsFree g g.controlUnits
  grows : base.Extends sys
  root : 0 < sys.unknowns.size → ∃ arc ∈ sys.arcs, arc.source = 0 ∧ 0 ≤ arc.weight
  units : ∀ values, sys.Satisfies values → ∀ id ∈ g.controlUnits,
    MeetsUnit base g bounds values id
  chains : ∀ values, sys.Satisfies values → ∀ order, bounds.order = some order →
    ∀ chain ∈ order.chains, MeetsChain base g bounds values chain

theorem addChains_sound {chains : List IssueChain} (hbase : base.Extends sys)
    (h : chains.foldlM (addChain g bounds) sys = .ok sys') :
    sys.Extends sys' ∧ ∀ chain ∈ chains, ∀ values, sys'.Satisfies values →
      MeetsChain base g bounds values chain := by
  refine meets_foldlM (fun sys => sys) (fun chain before after hbefore hround => ?_) h
  exact addChain_sound (hbase.trans hbefore) hround

theorem addUnits_sound {assembly assembly' : ControlAssembly} {ids : List UnitId}
    (hbase : base.Extends assembly.system)
    (hfound : LookThrough.Complete g bounds assembly.found)
    (h : ids.foldlM (ControlAssembly.addUnit g bounds) assembly = .ok assembly') :
    assembly.system.Extends assembly'.system ∧ ∀ id ∈ ids,
      (∀ index, base.variableOf? id = some index →
        ∃ arc ∈ assembly'.system.arcs, arc.source = 0 ∧ 0 ≤ arc.weight) ∧
      ∀ values, assembly'.system.Satisfies values → MeetsUnit base g bounds values id := by
  obtain ⟨⟨hextends, _⟩, hunits⟩ := Checked.foldlM_forall
    (P := fun now : ControlAssembly =>
      assembly.system.Extends now.system ∧ LookThrough.Complete g bounds now.found)
    (Q := fun id now => (∀ index, base.variableOf? id = some index →
        ∃ arc ∈ now.system.arcs, arc.source = 0 ∧ 0 ≤ arc.weight) ∧
      ∀ values, now.system.Satisfies values → MeetsUnit base g bounds values id)
    (fun id _ before after hbefore hround => by
      obtain ⟨hgrows, hcomplete⟩ := hbefore
      obtain ⟨hextends, hafter, hunit⟩ :=
        ControlAssembly.addUnit_sound (hbase.trans hgrows) hcomplete hround
      refine ⟨⟨hgrows.trans hextends, hafter⟩, hunit, fun other hother => ⟨fun index hindex => ?_,
        hextends.meets_mono hother.2⟩⟩
      obtain ⟨arc, hmem, harc⟩ := hother.1 index hindex
      exact ⟨arc, hextends.arcs hmem, harc⟩)
    ⟨Extends.refl _, hfound⟩ h
  exact ⟨hextends, hunits⟩

theorem exists_describes (h : build g bounds = .ok sys) :
    ∃ base, Describes base g bounds sys := by
  obtain ⟨base, hfree, h⟩ := Checked.bind_eq_ok.mp h
  obtain ⟨assembly, hassembly, h⟩ := Checked.bind_eq_ok.mp h
  obtain ⟨ended, hended, h⟩ := Checked.bind_eq_ok.mp h
  have hfree := isFree_ofFree hfree
  obtain ⟨hextends, hunits⟩ := addUnits_sound (by exact Extends.refl base)
    LookThrough.complete_start hassembly
  have hended := extends_addEnd hended
  have hlast : ended.Extends sys ∧ ∀ values, sys.Satisfies values → ∀ order,
      bounds.order = some order → ∀ chain ∈ order.chains,
        MeetsChain base g bounds values chain := by
    split at h
    next hnone =>
      obtain rfl := Checked.pure_eq_ok.mp h
      refine ⟨Extends.refl _, fun values _ order horder => ?_⟩
      rw [hnone] at horder
      cases horder
    next order horder =>
      obtain ⟨hchains, hmeets⟩ := addChains_sound (hextends.trans hended) h
      refine ⟨hchains, fun values hvalues order' horder' chain hchain => ?_⟩
      rw [horder] at horder'
      cases horder'
      exact hmeets chain hchain values hvalues
  obtain ⟨hchains, hmeets⟩ := hlast
  have hall := (hextends.trans hended).trans hchains
  refine ⟨base, hfree, hall, fun hpos => ?_, fun values hvalues id hid => ?_, hmeets⟩
  · rw [hall.keepsUnits] at hpos
    obtain ⟨id, hid, hslot⟩ := hfree.exists_of_pos hpos
    obtain ⟨index, hindex⟩ := hfree.exists_index hid hslot
    obtain ⟨arc, harc, hroot⟩ := (hunits id hid).1 index hindex
    exact ⟨arc, (hended.trans hchains).arcs harc, hroot⟩
  · exact (hunits id hid).2 values ((hended.trans hchains).satisfies values hvalues)

end ControlSystem

end SlotScheduling
