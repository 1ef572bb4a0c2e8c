import SlotScheduling.Placement.DataPath
import SlotScheduling.Proofs.Graph.Ends
import SlotScheduling.Proofs.Placement.Variables

/-!
# What the constraints of the data path say

Every solution of the system of the data path keeps the free data-path units
within their blocks, after what they depend on and before what uses them, and
whatever does all that is a solution.
-/

namespace SlotScheduling.DataPath

open ConstraintSystem

variable {g : Graph} {options : SchedulingOptions} {base sys sys' : ConstraintSystem}
  {id : UnitId} {unit : ScheduleUnit} {term : Term}

/-- The offset of a dependency is in range, and the value of a unit respects it. -/
def MeetsDep (base : ConstraintSystem) (g : Graph) (values : Nat → Int) (unit : ScheduleUnit)
    (x : Int) (dep : UnitId × EdgeBundle) : Prop :=
  ∃ offset?, dep.2.edge.offset? (g.interval? unit.block) = .ok offset? ∧
    ∀ offset ∈ offset?, ∀ y, base.valueOf? g values dep.1 = some y →
      dep.2.edge.Admits offset (x - y)

/-- The offset of a use by a unit with a slot is in range, and the value of the unit that is
used respects it. -/
def MeetsUse (base : ConstraintSystem) (g : Graph) (values : Nat → Int) (id : UnitId)
    (x : Int) (user : UnitId) : Prop :=
  ∀ consumer bundle, g.units[user]? = some consumer → consumer.slot.isSome →
    consumer.dep? id = some bundle →
    ∃ offset?, bundle.edge.offset? (g.interval? consumer.block) = .ok offset? ∧
      ∀ offset ∈ offset?, ∀ y, base.valueOf? g values user = some y →
        bundle.edge.Admits offset (y - x)

/-- The value of a unit lies within its block, whose end only counts when units are placed
late. -/
def WithinWindow (g : Graph) (options : SchedulingOptions) (unit : ScheduleUnit) (x : Int) :
    Prop :=
  (∃ first, g.startSlot unit.block = .ok first ∧ (first.getD g.entrySlot : Int) ≤ x) ∧
    (options.dataPathLate = true →
      ∃ last, g.endSlot unit.block = .ok (some last) ∧ x ≤ (last : Int))

/-- The value of a free unit respects its window, its dependencies and its uses. -/
def MeetsUnit (base : ConstraintSystem) (g : Graph) (options : SchedulingOptions)
    (values : Nat → Int) (id : UnitId) : Prop :=
  ∀ unit index, g.units[id]? = some unit → unit.slot = none →
    base.variableOf? id = some index →
    (unit.fixedTiming = false → WithinWindow g options unit (values index)) ∧
    (∀ dep ∈ unit.deps.entries, MeetsDep base g values unit (values index) dep) ∧
    ∀ user ∈ unit.uses.toList, MeetsUse base g values id (values index) user

/-- An arc of moderate weight that starts at the constant node, and one that ends there if
units are placed late. -/
def Anchored (options : SchedulingOptions) (arcs : List Arc) : Prop :=
  (∃ arc ∈ arcs, arc.source = 0 ∧ -(2 * Word.count) ≤ arc.weight) ∧
    (options.dataPathLate = true → ∃ arc ∈ arcs, arc.target = 0 ∧ -(2 * Word.count) ≤ arc.weight)

theorem Anchored.mono {arcs arcs' : List Arc} (h : Anchored options arcs)
    (hsubset : arcs ⊆ arcs') : Anchored options arcs' := by
  obtain ⟨⟨arc, hmem, harc⟩, hlate⟩ := h
  refine ⟨⟨arc, hsubset hmem, harc⟩, fun hflag => ?_⟩
  obtain ⟨arc', hmem', harc'⟩ := hlate hflag
  exact ⟨arc', hsubset hmem', harc'⟩

/-- Every slot of the graph is a word. -/
def HasWords (g : Graph) : Prop := ∀ {id slot}, g.slot? id = some slot → slot < Word.count

/-- The edge keeps a fixed distance, no longer than a slot, to a unit that has a slot. -/
structure IsBrace (g : Graph) (edge : DepEdge) (other : UnitId) : Prop where
  fixed : edge.isFixedTiming = true
  distance : edge.distance = 0
  latency : edge.latency < Word.count
  placed : ∃ slot, g.slot? other = some slot

/-- One of the dependencies or uses of the unit is a brace. -/
def IsBraced (g : Graph) (id : UnitId) (unit : ScheduleUnit) : Prop :=
  (∃ dep ∈ unit.deps.entries, IsBrace g dep.2.edge dep.1) ∨
    ∃ user ∈ unit.uses.toList, ∃ consumer bundle, g.units[user]? = some consumer ∧
      consumer.dep? id = some bundle ∧ IsBrace g bundle.edge user

theorem lastSlot_eq_ok {block : BlockId} {last : Nat} (h : lastSlot g id block = .ok last) :
    g.endSlot block = .ok (some last) := by
  obtain ⟨found, hfound, h⟩ := Checked.bind_eq_ok.mp h
  cases found with
  | none => cases h
  | some slot =>
      obtain rfl := Checked.pure_eq_ok.mp h
      exact hfound

theorem adds_addWindow {index : Nat} (hterm : (Term.var index).Owned sys)
    (h : addWindow g options id unit (.var index) sys = .ok sys') :
    sys.Adds sys' fun values => WithinWindow g options unit (values index) := by
  obtain ⟨first, hfirst, h⟩ := Checked.bind_eq_ok.mp h
  obtain ⟨middle, hmiddle, h⟩ := Checked.bind_eq_ok.mp h
  have hlower : sys.Adds middle fun values => (first.getD g.entrySlot : Int) ≤ values index :=
    ⟨extends_lowerBound hmiddle hterm, fun _ => satisfies_lowerBound hmiddle⟩
  split at h
  next hlate =>
    obtain ⟨last, hlast, h⟩ := Checked.bind_eq_ok.mp h
    have hupper : middle.Adds sys' fun values => values index ≤ (last : Int) :=
      ⟨extends_upperBound h (hlower.grows.owned hterm), fun _ => satisfies_upperBound h⟩
    refine (hlower.trans hupper).congr fun values => ?_
    simp [WithinWindow, hlate, hfirst, lastSlot_eq_ok hlast]
  next hearly =>
    obtain rfl := Checked.pure_eq_ok.mp h
    refine hlower.congr fun values => ?_
    simp [WithinWindow, hearly, hfirst]

theorem anchored_addWindow {index : Nat} (hwords : HasWords g)
    (hterm : (Term.var index).Owned sys)
    (h : addWindow g options id unit (.var index) sys = .ok sys') :
    Anchored options sys'.arcs := by
  obtain ⟨first, _, h⟩ := Checked.bind_eq_ok.mp h
  obtain ⟨middle, hmiddle, h⟩ := Checked.bind_eq_ok.mp h
  have harc : ∃ arc ∈ middle.arcs, arc.source = 0 ∧ -(2 * Word.count) ≤ arc.weight := by
    obtain ⟨arc, hmem, hsource, hweight⟩ :=
      exists_arc_of_lowerBound (Int.natCast_nonneg _) hmiddle
    exact ⟨arc, hmem, hsource, le_trans (by decide) hweight⟩
  split at h
  next hlate =>
    obtain ⟨last, hlast, h⟩ := Checked.bind_eq_ok.mp h
    refine ⟨?_, fun _ => ?_⟩
    · obtain ⟨arc, hmem, harc⟩ := harc
      have hupper := extends_upperBound h ((extends_lowerBound hmiddle hterm).owned hterm)
      exact ⟨arc, hupper.arcs hmem, harc⟩
    · obtain ⟨_, _, _, hend, _, hslot⟩ := Graph.exists_unit_of_endSlot (lastSlot_eq_ok hlast)
      have hword := hwords ((Graph.slot?_eq hend).trans hslot)
      refine ⟨_, mem_arcs_addGeq (upperBound_eq_ok h) (Nat.succ_ne_zero index).symm, rfl, ?_⟩
      simp only [Term.shift]
      omega
  next hearly =>
    obtain rfl := Checked.pure_eq_ok.mp h
    exact ⟨harc, fun hlate => absurd hlate hearly⟩

theorem adds_addDep {dep : UnitId × EdgeBundle} (hbase : base.Extends sys)
    (hterm : term.Owned sys) (h : addDep g unit term sys dep = .ok sys') :
    sys.Adds sys' fun values => MeetsDep base g values unit (term.eval values) dep := by
  obtain ⟨offset?, hoffset, h⟩ := Checked.bind_eq_ok.mp h
  cases offset? with
  | none =>
      obtain rfl := Checked.pure_eq_ok.mp h
      exact Adds.nothing fun values => ⟨none, hoffset, fun offset hnone => by cases hnone⟩
  | some offset =>
      obtain ⟨source?, hsource, h⟩ := Checked.bind_eq_ok.mp h
      have hvalue := hbase.map_eval_term? hsource
      cases source? with
      | none =>
          obtain rfl := Checked.pure_eq_ok.mp h
          refine Adds.nothing fun values => ⟨_, hoffset, fun offset _ y hy => ?_⟩
          rw [← hvalue values] at hy
          cases hy
      | some source =>
          refine (adds_addEdge h hterm (owned_of_term? hsource)).congr fun values => ?_
          simp [MeetsDep, hoffset, ← hvalue values]

theorem adds_addUse {user : UnitId} (hbase : base.Extends sys) (hterm : term.Owned sys)
    (h : addUse g id term sys user = .ok sys') :
    sys.Adds sys' fun values => MeetsUse base g values id (term.eval values) user := by
  obtain ⟨consumer, hconsumer, h⟩ := Checked.bind_eq_ok.mp h
  rw [Graph.unit_eq_ok] at hconsumer
  split at h
  next slot bundle hslot hdep =>
    obtain ⟨offset?, hoffset, h⟩ := Checked.bind_eq_ok.mp h
    -- The use is looked up again, but there is only one.
    have hmeets : ∀ values : Nat → Int, MeetsUse base g values id (term.eval values) user ↔
        ∀ offset ∈ offset?, ∀ y, base.valueOf? g values user = some y →
          bundle.edge.Admits offset (y - term.eval values) := by
      intro values
      constructor
      · intro hmeets
        obtain ⟨offset?', hoffset', hadmits⟩ :=
          hmeets consumer bundle hconsumer (by simp [hslot]) hdep
        obtain rfl := Except.ok.inj (hoffset'.symm.trans hoffset)
        exact hadmits
      · intro hadmits consumer' bundle' hconsumer' _ hdep'
        obtain rfl := Option.some.inj (hconsumer.symm.trans hconsumer')
        obtain rfl := Option.some.inj (hdep.symm.trans hdep')
        exact ⟨offset?, hoffset, hadmits⟩
    cases offset? with
    | none =>
        obtain rfl := Checked.pure_eq_ok.mp h
        exact Adds.nothing fun values => (hmeets values).mpr fun _ hnone => by cases hnone
    | some offset =>
        obtain ⟨target?, htarget, h⟩ := Checked.bind_eq_ok.mp h
        have hvalue := hbase.map_eval_term? htarget
        cases target? with
        | none =>
            obtain rfl := Checked.pure_eq_ok.mp h
            refine Adds.nothing fun values => (hmeets values).mpr fun _ _ y hy => ?_
            rw [← hvalue values] at hy
            cases hy
        | some target =>
            refine (adds_addEdge h (owned_of_term? htarget) hterm).congr fun values => ?_
            rw [hmeets]
            simp [← hvalue values]
  next hnone =>
    obtain rfl := Checked.pure_eq_ok.mp h
    refine Adds.nothing fun values consumer' bundle hconsumer' hslot hdep => ?_
    obtain rfl := Option.some.inj (hconsumer.symm.trans hconsumer')
    obtain ⟨slot, hslot⟩ := Option.isSome_iff_exists.mp hslot
    exact (hnone slot bundle hslot hdep).elim

/-! ## Braces -/

section

variable {index : Nat} {edge : DepEdge} {other : UnitId}

theorem term?_of_placed (hfree : base.IsFree g g.dataUnits) (hbase : base.Extends sys)
    {slot : Nat} (hslot : g.slot? other = some slot) {term? : Option Term}
    (hterm : sys.term? g other = .ok term?) : term? = some (.const slot) := by
  rcases term?_cases hterm with ⟨index, hindex, _⟩ | ⟨_, rfl⟩
  · rw [hbase.variableOf?_eq, hfree.variableOf?_eq_none (by simp [hslot])] at hindex
    cases hindex
  · rw [hslot]
    rfl

theorem anchored_of_fixedTiming {target source : Term} {slot : Nat}
    (hends : (target = .var index ∧ source = .const slot) ∨
      (target = .const slot ∧ source = .var index))
    (hslot : slot < Word.count) (hfixed : edge.isFixedTiming = true)
    (hlatency : edge.latency < Word.count)
    (h : sys.addEdge target source edge edge.latency = .ok sys') :
    Anchored options sys'.arcs := by
  rcases hends with ⟨rfl, rfl⟩ | ⟨rfl, rfl⟩
  · obtain ⟨hfrom, hto⟩ := mem_arcs_of_fixedTiming h hfixed (Nat.succ_ne_zero index)
    refine ⟨⟨_, hfrom, rfl, ?_⟩, fun _ => ⟨_, hto, rfl, ?_⟩⟩ <;> simp only [Term.shift] <;> omega
  · obtain ⟨hto, hfrom⟩ := mem_arcs_of_fixedTiming h hfixed (Nat.succ_ne_zero index).symm
    refine ⟨⟨_, hfrom, rfl, ?_⟩, fun _ => ⟨_, hto, rfl, ?_⟩⟩ <;> simp only [Term.shift] <;> omega

theorem anchored_addDep {dep : UnitId × EdgeBundle} (hwords : HasWords g)
    (hfree : base.IsFree g g.dataUnits) (hbase : base.Extends sys)
    (hbrace : IsBrace g dep.2.edge dep.1)
    (h : addDep g unit (.var index) sys dep = .ok sys') : Anchored options sys'.arcs := by
  obtain ⟨slot, hslot⟩ := hbrace.placed
  obtain ⟨offset?, hoffset, h⟩ := Checked.bind_eq_ok.mp h
  rw [DepEdge.offset?_of_distance_eq_zero hbrace.distance] at hoffset
  cases hoffset
  obtain ⟨source?, hsource, h⟩ := Checked.bind_eq_ok.mp h
  obtain rfl := term?_of_placed hfree hbase hslot hsource
  exact anchored_of_fixedTiming (Or.inl ⟨rfl, rfl⟩) (hwords hslot) hbrace.fixed hbrace.latency h

theorem anchored_addUse {user : UnitId} {consumer : ScheduleUnit} {bundle : EdgeBundle}
    (hwords : HasWords g) (hfree : base.IsFree g g.dataUnits) (hbase : base.Extends sys)
    (hconsumer : g.units[user]? = some consumer) (hdep : consumer.dep? id = some bundle)
    (hbrace : IsBrace g bundle.edge user)
    (h : addUse g id (.var index) sys user = .ok sys') : Anchored options sys'.arcs := by
  obtain ⟨slot, hslot⟩ := hbrace.placed
  obtain ⟨consumer', hconsumer', h⟩ := Checked.bind_eq_ok.mp h
  obtain rfl := Option.some.inj (hconsumer.symm.trans (Graph.unit_eq_ok.mp hconsumer'))
  rw [(Graph.slot?_eq hconsumer).symm.trans hslot, hdep] at h
  obtain ⟨offset?, hoffset, h⟩ := Checked.bind_eq_ok.mp h
  rw [DepEdge.offset?_of_distance_eq_zero hbrace.distance] at hoffset
  cases hoffset
  obtain ⟨target?, htarget, h⟩ := Checked.bind_eq_ok.mp h
  obtain rfl := term?_of_placed hfree hbase hslot htarget
  exact anchored_of_fixedTiming (Or.inr ⟨rfl, rfl⟩) (hwords hslot) hbrace.fixed hbrace.latency h

end

theorem adds_addDeps {deps : List (UnitId × EdgeBundle)} (hbase : base.Extends sys)
    (hterm : term.Owned sys) (h : deps.foldlM (addDep g unit term) sys = .ok sys') :
    sys.Adds sys' fun values => ∀ dep ∈ deps,
      MeetsDep base g values unit (term.eval values) dep := by
  refine adds_foldlM (fun dep before after hbefore hround => ?_) h
  exact adds_addDep (hbase.trans hbefore) (hbefore.owned hterm) hround

theorem adds_addUses {users : List UnitId} (hbase : base.Extends sys)
    (hterm : term.Owned sys) (h : users.foldlM (addUse g id term) sys = .ok sys') :
    sys.Adds sys' fun values => ∀ user ∈ users,
      MeetsUse base g values id (term.eval values) user := by
  refine adds_foldlM (fun user before after hbefore hround => ?_) h
  exact adds_addUse (hbase.trans hbefore) (hbefore.owned hterm) hround

/-- A brace among the dependencies or the uses anchors the system. -/
theorem anchored_of_isBraced {index : Nat} {started middle : ConstraintSystem}
    (hwords : HasWords g) (hfree : base.IsFree g g.dataUnits) (hbase : base.Extends started)
    (hterm : (Term.var index).Owned started) (hbraced : IsBraced g id unit)
    (hdeps : unit.deps.entries.foldlM (addDep g unit (.var index)) started = .ok middle)
    (huses : unit.uses.toList.foldlM (addUse g id (.var index)) middle = .ok sys') :
    Anchored options sys'.arcs := by
  have hgrows := (adds_addDeps hbase hterm hdeps).grows
  have hends := (adds_addUses (hbase.trans hgrows) (hgrows.owned hterm) huses).grows
  rcases hbraced with ⟨dep, hdep, hbrace⟩ |
    ⟨user, huser, consumer, bundle, hconsumer, hbundle, hbrace⟩
  · have hanchored := extends_foldlM (fun sys => sys)
      (Q := fun dep sys => IsBrace g dep.2.edge dep.1 → Anchored options sys.arcs)
      (fun dep _ _ hextends hbefore (hbrace : IsBrace g dep.2.edge dep.1) =>
        (hbefore hbrace).mono hextends.arcs)
      (fun dep before after hbefore hround => ?_) hdeps
    · exact (hanchored.2 dep hdep hbrace).mono hends.arcs
    · exact ⟨(adds_addDep (hbase.trans hbefore) (hbefore.owned hterm) hround).grows,
        fun hbrace => anchored_addDep hwords hfree (hbase.trans hbefore) hbrace hround⟩
  · have hmiddle := hbase.trans hgrows
    have hanchored := extends_foldlM (fun sys => sys)
      (Q := fun other sys => other = user → Anchored options sys.arcs)
      (fun _ _ _ hextends hbefore heq => (hbefore heq).mono hextends.arcs)
      (fun other before after hbefore hround => ?_) huses
    · exact hanchored.2 user huser rfl
    · refine ⟨(adds_addUse (hmiddle.trans hbefore) (hbefore.owned (hgrows.owned hterm))
      hround).grows, ?_⟩
      rintro rfl
      exact anchored_addUse hwords hfree (hmiddle.trans hbefore) hconsumer hbundle hbrace hround

theorem adds_start {index : Nat} {started : ConstraintSystem} (hterm : (Term.var index).Owned sys)
    (h : (if unit.fixedTiming then pure sys
      else addWindow g options id unit (.var index) sys) = .ok started) :
    sys.Adds started fun values =>
      unit.fixedTiming = false → WithinWindow g options unit (values index) := by
  split at h
  next hfixed =>
    obtain rfl := Checked.pure_eq_ok.mp h
    exact Adds.nothing fun values hfree => by simp [hfree] at hfixed
  next hfree =>
    exact (adds_addWindow hterm h).congr fun values => by simp [hfree]

theorem addUnit_cases (hunit : g.units[id]? = some unit)
    (h : addUnit g options sys id = .ok sys') :
    (∃ index started middle, unit.slot = none ∧ sys.variableOf? id = some index ∧
      (Term.var index).Owned sys ∧
      (if unit.fixedTiming then pure sys
        else addWindow g options id unit (.var index) sys) = .ok started ∧
      unit.deps.entries.foldlM (addDep g unit (.var index)) started = .ok middle ∧
      unit.uses.toList.foldlM (addUse g id (.var index)) middle = .ok sys') ∨
    sys' = sys ∧ (unit.slot = none → sys.variableOf? id = none) := by
  obtain ⟨unit', hunit', h⟩ := Checked.bind_eq_ok.mp h
  obtain rfl := Option.some.inj (hunit.symm.trans (Graph.unit_eq_ok.mp hunit'))
  obtain ⟨term?, hterm, h⟩ := Checked.bind_eq_ok.mp h
  split at h
  next term hslot =>
    obtain ⟨index, hindex, rfl⟩ :=
      exists_variable_of_term? hterm ((Graph.slot?_eq hunit).trans hslot)
    have hstart : ∃ started, (if unit.fixedTiming then pure sys
          else addWindow g options id unit (.var index) sys) = .ok started ∧
        (do
          let sys ← unit.deps.entries.foldlM (addDep g unit (.var index)) started
          unit.uses.toList.foldlM (addUse g id (.var index)) sys) = .ok sys' := by
      split at h
      next hfixed =>
        simp only [hfixed, if_true]
        exact Checked.bind_eq_ok.mp h
      next hfixed =>
        simp only [hfixed]
        exact Checked.bind_eq_ok.mp h
    obtain ⟨started, hstarted, hend⟩ := hstart
    obtain ⟨middle, hmiddle, hend⟩ := Checked.bind_eq_ok.mp hend
    exact Or.inl ⟨index, started, middle, hslot, hindex, owned_of_term? hterm, hstarted, hmiddle,
      hend⟩
  next hnot =>
    obtain rfl := Checked.pure_eq_ok.mp h
    refine Or.inr ⟨rfl, fun hslot => ?_⟩
    rcases term?_cases hterm with ⟨index, _, heq⟩ | ⟨hnone, _⟩
    · exact (hnot _ hslot heq).elim
    · exact hnone

theorem adds_addUnit (hbase : base.Extends sys) (h : addUnit g options sys id = .ok sys') :
    sys.Adds sys' fun values => MeetsUnit base g options values id := by
  obtain ⟨unit, hunit, _⟩ := Checked.bind_eq_ok.mp h
  rw [Graph.unit_eq_ok] at hunit
  rcases addUnit_cases hunit h with
    ⟨index, started, middle, hslot, hindex, howned, hstarted, hmiddle, hend⟩ | ⟨rfl, hnone⟩
  · have hwindow := adds_start howned hstarted
    have hdeps := adds_addDeps (hbase.trans hwindow.grows) (hwindow.grows.owned howned) hmiddle
    have hboth := hwindow.grows.trans hdeps.grows
    have huses := adds_addUses (hbase.trans hboth) (hboth.owned howned) hend
    refine ((hwindow.trans hdeps).trans huses).congr fun values => ?_
    rw [hbase.variableOf?_eq] at hindex
    constructor
    · rintro ⟨⟨hwithin, hmeetsDeps⟩, hmeetsUses⟩ unit' index' hunit' _ hindex'
      obtain rfl := Option.some.inj (hunit.symm.trans hunit')
      obtain rfl := Option.some.inj (hindex.symm.trans hindex')
      exact ⟨hwithin, hmeetsDeps, hmeetsUses⟩
    · intro hmeets
      obtain ⟨hwithin, hmeetsDeps, hmeetsUses⟩ := hmeets unit index hunit hslot hindex
      exact ⟨⟨hwithin, hmeetsDeps⟩, hmeetsUses⟩
  · refine Adds.nothing fun values unit' index hunit' hslot hindex => ?_
    obtain rfl := Option.some.inj (hunit.symm.trans hunit')
    rw [← hbase.variableOf?_eq, hnone hslot] at hindex
    cases hindex

theorem anchored_addUnit (hwords : HasWords g) (hfree : base.IsFree g g.dataUnits)
    (hbase : base.Extends sys) (h : addUnit g options sys id = .ok sys') {index : Nat}
    (hunit : g.units[id]? = some unit) (hslot : unit.slot = none)
    (hcases : unit.fixedTiming = false ∨ IsBraced g id unit)
    (hindex : base.variableOf? id = some index) : Anchored options sys'.arcs := by
  rcases addUnit_cases hunit h with
    ⟨index, started, middle, _, _, howned, hstarted, hmiddle, hend⟩ | ⟨rfl, hnone⟩
  · have hwindow := (adds_start howned hstarted).grows
    have hdeps := (adds_addDeps (hbase.trans hwindow) (hwindow.owned howned) hmiddle).grows
    have hboth := hwindow.trans hdeps
    have huses := (adds_addUses (hbase.trans hboth) (hboth.owned howned) hend).grows
    rcases hcases with hunfrozen | hbraced
    · rw [hunfrozen, if_neg Bool.false_ne_true] at hstarted
      exact (anchored_addWindow hwords howned hstarted).mono (hdeps.trans huses).arcs
    · exact anchored_of_isBraced hwords hfree (hbase.trans hwindow) (hwindow.owned howned) hbraced
        hmiddle hend
  · rw [← hbase.variableOf?_eq, hnone hslot] at hindex
    cases hindex

/-- What is known of a system that was built for a graph. -/
structure Describes (base : ConstraintSystem) (g : Graph) (options : SchedulingOptions)
    (sys : ConstraintSystem) : Prop where
  free : base.IsFree g g.dataUnits
  adds : base.Adds sys fun values => ∀ id ∈ g.dataUnits, MeetsUnit base g options values id
  anchored : ∀ id unit index, id ∈ g.dataUnits → g.units[id]? = some unit →
    unit.slot = none → unit.fixedTiming = false ∨ IsBraced g id unit →
    base.variableOf? id = some index → Anchored options sys.arcs

theorem Describes.grows (h : Describes base g options sys) : base.Extends sys := h.adds.grows

theorem Describes.units (h : Describes base g options sys) {values : Nat → Int}
    (hvalues : sys.Satisfies values) : ∀ id ∈ g.dataUnits, MeetsUnit base g options values id :=
  ((h.adds.satisfies values).mp hvalues).2

theorem exists_describes (hwords : HasWords g) (h : build g options = .ok sys) :
    ∃ base, Describes base g options sys := by
  obtain ⟨base, hbase, h⟩ := Checked.bind_eq_ok.mp h
  have hfree := isFree_ofFree hbase
  refine ⟨base, hfree, adds_foldlM (fun _ _ _ hbefore hround => adds_addUnit hbefore hround) h,
    ?_⟩
  have hall := extends_foldlM (fun sys => sys)
    (Q := fun id sys => ∀ unit index, g.units[id]? = some unit → unit.slot = none →
        unit.fixedTiming = false ∨ IsBraced g id unit → base.variableOf? id = some index →
        Anchored options sys.arcs) ?_ (fun id before after hbefore hround => ?_) h
  · exact fun id unit index hid => hall.2 id hid unit index
  · intro id before after hextends hbefore unit index hunit hslot hcases hindex
    exact (hbefore unit index hunit hslot hcases hindex).mono hextends.arcs
  · exact ⟨(adds_addUnit hbefore hround).grows, fun unit index hunit hslot hcases hindex =>
      anchored_addUnit hwords hfree hbefore hround hunit hslot hcases hindex⟩

end SlotScheduling.DataPath
