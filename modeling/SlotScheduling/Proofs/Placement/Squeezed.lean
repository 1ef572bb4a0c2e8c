import SlotScheduling.Proofs.Placement.Admitted
import SlotScheduling.Proofs.Placement.DataFitting
import SlotScheduling.Proofs.Placement.Overflows
import SlotScheduling.Proofs.Placement.Relayed

/-!
# Slots that can be exchanged

Where the offsets of a graph leave room to be added up, the system of its control path can be built,
whatever cycles lie in its data path.  Its constraints come from few sources: the entry slot, the
dependencies among control units, what was found for the data-path units, the end of the critical
path and the issue order.  So slots that meet whatever other slots meet of these can be put in their
place, and solve the system if those do.
-/

namespace SlotScheduling

open ConstraintSystem

/-- The slots are those that the control units of the graph have. -/
def Graph.AgreesWith (g : Graph) (slots : UnitId → Int) : Prop :=
  ∀ ⦃id slot⦄, g.IsControl id → g.slot? id = some slot → slots id = slot

namespace ControlSystem

/-- Offsets leave room to be added up, and slots and intervals are words. -/
structure Ready (g : Graph) (bounds : ControlBounds) (ahead behind : Nat) : Prop
    extends bounds.Ranged g ahead behind where
  light : ahead * (g.units.size + 1) ≤ 2 ^ 52
  size : g.units.size < 2 ^ 64
  exit : ∀ {exit}, g.exitRoot = some exit → g.IsControl exit
  slots : ∀ {id slot}, g.IsControl id → g.slot? id = some slot → slot < Word.count
  entrySlot : g.entrySlot < Word.count
  ends : ∀ {last}, bounds.criticalPathEnd = some last → g.entrySlot + last < Word.count
  chained : ∀ {order chain id}, bounds.order = some order → chain ∈ order.chains →
    id ∈ chain.units → g.IsControl id
  intervals : ∀ {order chain interval}, bounds.order = some order → chain ∈ order.chains →
    bounds.interval? g chain.block = some interval → interval < Word.count

/-- The second slots meet whatever the first ones meet. -/
structure Squeezes (g : Graph) (bounds : ControlBounds) (found : LookThrough)
    (slots slots' : UnitId → Int) : Prop where
  agrees : g.AgreesWith slots
  agrees' : g.AgreesWith slots'
  free : ∀ {id}, g.IsControl id → (g.entrySlot : Int) ≤ slots id → (g.entrySlot : Int) ≤ slots' id
  direct : ∀ {source user offset}, g.IsControl source → g.IsControl user →
    bounds.Asks g source user offset → slots source + offset ≤ slots user →
    slots' source + offset ≤ slots' user
  through : ∀ {source user offset sources}, g.IsControl user → bounds.Asks g source user offset →
    g.IsData source → found.sources? source = some sources →
    (∀ entry ∈ sources.entries, slots entry.1 + entry.2 + offset ≤ slots user) →
    ∀ entry ∈ sources.entries, slots' entry.1 + entry.2 + offset ≤ slots' user
  ends : ∀ {exit last}, g.exitRoot = some exit → bounds.criticalPathEnd = some last →
    slots exit ≤ g.entrySlot + last → slots' exit ≤ g.entrySlot + last
  chains : ∀ {order chain first second} {weight : Int}, bounds.order = some order →
    chain ∈ order.chains → first ∈ chain.units → second ∈ chain.units → weight ≤ 1 →
    slots first + weight ≤ slots second → slots' first + weight ≤ slots' second

end ControlSystem

namespace ConstraintSystem

variable {g : Graph} {base sys sys' : ConstraintSystem} {target source term : Term} {id : UnitId}
  {slots : UnitId → Int}

/-- The slots of the graph are the values of its control units. -/
theorem valueOf?_valuesAt (hfree : base.IsFree g g.controlUnits) (hlisted : g.Listed)
    (hid : g.IsControl id) (hslots : g.AgreesWith slots) :
    base.valueOf? g (base.valuesAt slots) id = some (slots id) := by
  unfold valueOf?
  cases hvariable : base.variableOf? id with
  | some index =>
      simp only [valuesAt, variableOf?_eq_some hvariable, Option.map_some, Option.getD_some]
  | none =>
      cases hslot : g.slot? id with
      | some slot => simp only [hslots hid hslot, Option.map_some]
      | none =>
          obtain ⟨index, hindex⟩ := hfree.exists_index (hlisted.control.mpr hid) hslot
          rw [hvariable] at hindex
          cases hindex

/-- A constraint whose weight leaves room for the slots of its ends can be added. -/
theorem exists_adds_addGeq {weight : Int} (hsize : sys.unknowns.size < 2 ^ 64)
    (htarget : sys.Holds target) (hsource : sys.Holds source) (hlow : -(2 ^ 61) ≤ weight)
    (hhigh : weight ≤ 2 ^ 52) (hlight : Arc.Light sys.arcs) :
    ∃ sys', sys.addGeq target source weight = .ok sys' ∧ Arc.Light sys'.arcs ∧
      sys.Adds sys' fun values => weight ≤ target.eval values - source.eval values := by
  have hnode : ∀ {term}, sys.Holds term → term.checkNode = .ok ⟨⟩ := by
    intro term hterm
    have hnode := hterm.owned
    unfold Term.Owned at hnode
    exact if_pos (Nat.lt_of_le_of_lt hnode hsize)
  have hshift := hsource.shift
  have hshift' := htarget.shift
  unfold Word.count at hshift hshift'
  have hraised : Offset.add weight source.shift = .ok (weight + source.shift) :=
    Offset.exists_check (2 ^ 62) (by omega) le_rfl
  have hfolded : Offset.sub (weight + source.shift) target.shift =
      .ok (weight + source.shift - target.shift) :=
    Offset.exists_check (2 ^ 62) (by omega) le_rfl
  have hok : ∃ sys', sys.addGeq target source weight = .ok sys' := by
    rw [addGeq, hnode htarget, hnode hsource, hraised]
    simp only [Checked.ok_bind, hfolded]
    split
    · split
      · exact ⟨_, rfl⟩
      · exact ⟨_, rfl⟩
    · exact ⟨_, rfl⟩
  obtain ⟨sys', hok⟩ := hok
  refine ⟨sys', hok, light_addGeq hlight hok (by unfold Word.count; omega),
    extends_addGeq hok htarget.owned hsource.owned, fun values => satisfies_addGeq hok⟩

/-- Constraints that can be added one by one add up. -/
theorem exists_adds_foldlM {α : Type} {step : ConstraintSystem → α → Checked ConstraintSystem}
    {items : List α} (meets : α → (Nat → Int) → Prop) (hlight : Arc.Light sys.arcs)
    (hround : ∀ item ∈ items, ∀ before, sys.Extends before → Arc.Light before.arcs →
      ∃ after, step before item = .ok after ∧ Arc.Light after.arcs ∧
        before.Adds after (meets item)) :
    ∃ sys', items.foldlM step sys = .ok sys' ∧ Arc.Light sys'.arcs ∧
      sys.Adds sys' fun values => ∀ item ∈ items, meets item values := by
  induction items generalizing sys with
  | nil => exact ⟨sys, rfl, hlight, .nothing fun _ _ hmem => absurd hmem List.not_mem_nil⟩
  | cons item rest ih =>
      obtain ⟨hitem, hrest⟩ := List.forall_mem_cons.mp hround
      obtain ⟨middle, hmiddle, hlight', hadds⟩ := hitem sys (Extends.refl sys) hlight
      obtain ⟨last, hlast, hlight'', hadds'⟩ := ih hlight' fun other hother before hbefore =>
        hrest other hother before (hadds.grows.trans hbefore)
      refine ⟨last, by rw [List.foldlM_cons, hmiddle, Checked.ok_bind, hlast], hlight'', ?_⟩
      exact (hadds.trans hadds').congr fun values => by rw [List.forall_mem_cons]

end ConstraintSystem

namespace ControlSystem

variable {g : Graph} {bounds : ControlBounds} {base sys sys' : ConstraintSystem}
  {found found' : LookThrough} {id : UnitId} {term target : Term} {ahead behind : Nat}

/-- The term stands for the unit. -/
structure Stands (g : Graph) (base : ConstraintSystem) (id : UnitId) (term : Term) : Prop
    extends base.Holds term where
  value : ∀ values, base.valueOf? g values id = some (term.eval values)

/-- No weight is rounded, and slots that solve the system can be exchanged for others that meet
whatever they meet, also of what will be found later. -/
structure Carries (g : Graph) (bounds : ControlBounds) (base : ConstraintSystem)
    (found : LookThrough) (sys : ConstraintSystem) : Prop where
  grows : base.Extends sys
  light : Arc.Light sys.arcs
  squeezed : ∀ {later slots slots'}, LookThrough.Keeps found later →
    Squeezes g bounds later slots slots' → sys.Satisfies (base.valuesAt slots) →
    sys.Satisfies (base.valuesAt slots')

theorem Carries.of_adds {meets : (Nat → Int) → Prop} (h : Carries g bounds base found sys)
    (hfound : LookThrough.Keeps found found') (hlight : Arc.Light sys'.arcs)
    (hadds : sys.Adds sys' meets)
    (hmeets : ∀ {later slots slots'}, LookThrough.Keeps found' later →
      Squeezes g bounds later slots slots' → meets (base.valuesAt slots) →
      meets (base.valuesAt slots')) :
    Carries g bounds base found' sys' := by
  refine ⟨h.grows.trans hadds.grows, hlight, fun hlater hsqueezes hslots => ?_⟩
  obtain ⟨hbefore, hmet⟩ := (hadds.satisfies _).mp hslots
  exact (hadds.satisfies _).mpr
    ⟨h.squeezed (hfound.trans hlater) hsqueezes hbefore, hmeets hlater hsqueezes hmet⟩

section

variable (hg : Ready g bounds ahead behind) (hfree : base.IsFree g g.controlUnits)

include hg hfree

theorem size_lt_of_extends (h : base.Extends sys) : sys.unknowns.size < 2 ^ 64 := by
  rw [h.keepsUnits]
  exact (hfree.size_le fun id hid => (hg.control.mp hid).lt_size).trans_lt hg.size

theorem exists_stands (h : base.Extends sys) (hid : g.IsControl id) :
    ∃ term, sys.term? g id = .ok (some term) ∧ Stands g base id term := by
  obtain ⟨term?, hterm⟩ := sys.exists_term? hid.lt_size
  have hvalue : ∀ values, term?.map (·.eval values) = base.valueOf? g values id :=
    h.map_eval_term? hterm
  rcases term?_cases hterm with ⟨index, hindex, rfl⟩ | ⟨hnone, rfl⟩
  · rw [h.variableOf?_eq] at hindex
    refine ⟨.var index, hterm, ⟨lt_size_of_variableOf? hindex, ?_⟩, fun values => ?_⟩
    · exact (by decide : (0 : Int).natAbs < Word.count)
    · exact (hvalue values).symm
  · cases hslot : g.slot? id with
    | none =>
        obtain ⟨index, hindex⟩ := hfree.exists_index (hg.control.mpr hid) hslot
        rw [← h.variableOf?_eq, hnone] at hindex
        cases hindex
    | some slot =>
        rw [hslot] at hterm hvalue
        exact ⟨.const slot, hterm, ⟨owned_const _, hg.slots hid hslot⟩,
          fun values => (hvalue values).symm⟩

theorem Stands.eval (h : Stands g base id term) (hid : g.IsControl id) {slots : UnitId → Int}
    (hslots : g.AgreesWith slots) : term.eval (base.valuesAt slots) = slots id :=
  Option.some.inj ((h.value _).symm.trans
    (valueOf?_valuesAt hfree hg.toListed hid hslots))

theorem Carries.addGeq (weight : Int) {source : Term} (h : Carries g bounds base found sys)
    (htarget : base.Holds target) (hsource : base.Holds source) (hlow : -(2 ^ 61) ≤ weight)
    (hhigh : weight ≤ 2 ^ 52)
    (hmeets : ∀ {later slots slots'}, LookThrough.Keeps found later →
      Squeezes g bounds later slots slots' →
      weight ≤ target.eval (base.valuesAt slots) - source.eval (base.valuesAt slots) →
      weight ≤ target.eval (base.valuesAt slots') - source.eval (base.valuesAt slots')) :
    ∃ sys', sys.addGeq target source weight = .ok sys' ∧ Carries g bounds base found sys' := by
  obtain ⟨sys', hok, hlight, hadds⟩ := exists_adds_addGeq (size_lt_of_extends hg hfree h.grows)
    (h.grows.holds htarget) (h.grows.holds hsource) hlow hhigh h.light
  exact ⟨sys', hok, h.of_adds (.refl found) hlight hadds hmeets⟩

/-! ## Units and their dependencies -/

variable {assembly : ControlAssembly} {unit : ScheduleUnit} {dep : UnitId × EdgeBundle}
  {source user : UnitId} {offset : Int}

/-- A system under construction carries what is exchanged, and what was found for it is traced. -/
structure Prepares (g : Graph) (bounds : ControlBounds) (ahead behind : Nat)
    (base : ConstraintSystem) (assembly : ControlAssembly) : Prop
    extends Carries g bounds base assembly.found assembly.system where
  traced : LookThrough.Traced g bounds ahead behind assembly.found

omit hfree in
/-- An offset that is passed on once more is still in range. -/
theorem weight_of_entry {sources : ControlSources} {entry : UnitId × Int}
    (htraced : LookThrough.Traced g bounds ahead behind found)
    (hsources : found.sources? source = some sources) (hentry : entry ∈ sources.entries)
    (hasks : bounds.Asks g source user offset) :
    -(2 ^ 61) ≤ entry.2 + offset ∧ entry.2 + offset ≤ 2 ^ 52 := by
  have hcard : (LookThrough.visited found).card + 1 ≤ g.units.size + 1 :=
    Nat.succ_le_succ ((LookThrough.card_visited_le found).trans_eq htraced.size)
  have hspread := ((htraced.spread hsources entry hentry).add
    (LookThrough.spread_of_asks hg.toRanged hasks)).mono hcard
  have hroom := hg.room
  have hlight := hg.light
  rw [Nat.add_mul] at hroom
  obtain ⟨hhigh, hlow⟩ := hspread
  omega

/-- The target is as long after the unit of the entry as the entry and the offset ask for. -/
def FollowsBy (g : Graph) (base : ConstraintSystem) (target : Term) (offset : Int)
    (entry : UnitId × Int) (values : Nat → Int) : Prop :=
  ∀ y, base.valueOf? g values entry.1 = some y → y + entry.2 + offset ≤ target.eval values

theorem Prepares.addDataDep (h : Prepares g bounds ahead behind base assembly)
    (htarget : Stands g base user target) (huser : g.IsControl user) (hdata : g.IsData source)
    (hasks : bounds.Asks g source user offset) :
    ∃ assembly', ControlAssembly.addDataDep g bounds target offset assembly source =
        .ok assembly' ∧ Prepares g bounds ahead behind base assembly' := by
  obtain ⟨sources, found, hsources, hkeeps, htraced, hfound⟩ :=
    LookThrough.exists_sourcesOf_traced hg.toRanged h.traced hdata
  have hcontrol : ∀ entry ∈ sources.entries, g.IsControl entry.1 := fun entry hentry =>
    (htraced.relayed (hfound entry hentry) entry hentry).isControl
  rw [ControlAssembly.addDataDep, hsources, Checked.ok_bind]
  have hround : ∀ entry ∈ sources.entries, ∀ before, assembly.system.Extends before →
      Arc.Light before.arcs → ∃ term, before.term? g entry.1 = .ok (some term) ∧
      Offset.add entry.2 offset = .ok (entry.2 + offset) ∧
      ∃ after, before.addGeq target term (entry.2 + offset) = .ok after ∧
        Arc.Light after.arcs ∧ before.Adds after (FollowsBy g base target offset entry) := by
    intro entry hentry before hbefore hlight
    have hgrows := h.grows.trans hbefore
    obtain ⟨term, hterm, hstands⟩ := exists_stands hg hfree hgrows (hcontrol entry hentry)
    obtain ⟨hlow, hhigh⟩ := weight_of_entry hg htraced (hfound entry hentry) hentry hasks
    obtain ⟨after, hok, hlight', hadds⟩ := exists_adds_addGeq (size_lt_of_extends hg hfree hgrows)
      (hgrows.holds htarget.toHolds) (hgrows.holds hstands.toHolds) hlow hhigh hlight
    refine ⟨term, hterm, Offset.exists_check (2 ^ 61) (by omega) (by decide), after, hok, hlight',
      hadds.congr fun values => ?_⟩
    rw [FollowsBy, hstands.value values]
    constructor
    · rintro hle y ⟨⟩
      omega
    · intro hle
      have := hle _ rfl
      omega
  refine Checked.exists_bind (exists_adds_foldlM (FollowsBy g base target offset) h.light
    fun entry hentry before hbefore hlight => ?_) fun sys hsys => ⟨_, rfl, ?_, htraced⟩
  · obtain ⟨term, hterm, hsum, after, hok, hadded⟩ := hround entry hentry before hbefore hlight
    exact ⟨after, by simp only [hterm, Checked.ok_bind, hsum, hok], hadded⟩
  obtain ⟨hlight, hadds⟩ := hsys
  refine h.toCarries.of_adds hkeeps hlight hadds ?_
  intro later slots slots' hlater hsqueezes hmet entry hentry y hy
  have hvalue : ∀ {slots : UnitId → Int}, g.AgreesWith slots → ∀ entry ∈ sources.entries,
      base.valueOf? g (base.valuesAt slots) entry.1 = some (slots entry.1) :=
    fun hslots entry hentry =>
      valueOf?_valuesAt hfree hg.toListed (hcontrol entry hentry) hslots
  rw [hvalue hsqueezes.agrees' entry hentry] at hy
  obtain rfl := Option.some.inj hy
  rw [htarget.eval hg hfree huser hsqueezes.agrees']
  refine hsqueezes.through huser hasks hdata (hlater (hfound entry hentry)) (fun other hother => ?_)
    entry hentry
  have hle := hmet other hother _ (hvalue hsqueezes.agrees other hother)
  rwa [htarget.eval hg hfree huser hsqueezes.agrees] at hle

theorem Prepares.addControlDep (h : Prepares g bounds ahead behind base assembly) {edge : DepEdge}
    (hloose : edge.isFixedTiming = false) (htarget : Stands g base user target)
    (huser : g.IsControl user) (hsource : g.IsControl source)
    (hasks : bounds.Asks g source user offset) :
    ∃ assembly', ControlAssembly.addControlDep g target offset assembly source edge =
        .ok assembly' ∧ Prepares g bounds ahead behind base assembly' := by
  obtain ⟨term, hterm, hstands⟩ := exists_stands hg hfree h.grows hsource
  obtain ⟨hhigh, hlow⟩ := LookThrough.spread_of_asks hg.toRanged hasks
  have hroom := hg.room
  have hlight := hg.light
  rw [Nat.mul_succ] at hroom hlight
  obtain ⟨sys', hok, hcarries⟩ := h.toCarries.addGeq hg hfree offset htarget.toHolds
    hstands.toHolds (by omega) (by omega)
    fun {later slots slots'} _ hsqueezes hle => by
      rw [htarget.eval hg hfree huser hsqueezes.agrees,
        hstands.eval hg hfree hsource hsqueezes.agrees] at hle
      rw [htarget.eval hg hfree huser hsqueezes.agrees',
        hstands.eval hg hfree hsource hsqueezes.agrees']
      have := hsqueezes.direct hsource huser hasks (by omega)
      omega
  refine ⟨{ assembly with system := sys' }, ?_, hcarries, h.traced⟩
  rw [ControlAssembly.addControlDep, hterm, Checked.ok_bind]
  simp only [addEdge, hloose, Bool.false_eq_true, if_false, hok, Checked.ok_bind]
  rfl

theorem Prepares.addDep (h : Prepares g bounds ahead behind base assembly)
    (hunit : g.units[user]? = some unit) (huser : g.IsControl user)
    (hdep : dep ∈ unit.deps.entries) (htarget : Stands g base user target) :
    ∃ assembly', ControlAssembly.addDep g bounds unit target assembly dep = .ok assembly' ∧
      Prepares g bounds ahead behind base assembly' := by
  obtain ⟨offset?, hoffset, -⟩ := hg.within hunit dep hdep
  obtain ⟨producer, hproducer⟩ := hg.toWellFormed.exists_source hunit hdep
  rw [ControlAssembly.addDep, Graph.unit_eq_ok.mpr hproducer, Checked.ok_bind, hoffset,
    Checked.ok_bind]
  cases offset? with
  | none => exact ⟨assembly, rfl, h⟩
  | some offset =>
      have hget := Table.get?_of_mem_entries (hg.tidy hunit).nodup hdep
      have hasks : bounds.Asks g dep.1 user offset := ⟨unit, dep.2, hunit, hget, hoffset⟩
      simp only
      split
      next hdata =>
        exact h.addDataDep hg hfree htarget huser
          ⟨producer, hproducer, by simpa [ScheduleUnit.isData] using hdata⟩ hasks
      next hcontrol =>
        exact h.addControlDep hg hfree ((hg.tidy hunit).loose dep hdep) htarget huser
          ⟨producer, hproducer, by simpa [ScheduleUnit.isData] using hcontrol⟩ hasks

theorem Prepares.addUnit (h : Prepares g bounds ahead behind base assembly)
    (hid : g.IsControl id) :
    ∃ assembly', ControlAssembly.addUnit g bounds assembly id = .ok assembly' ∧
      Prepares g bounds ahead behind base assembly' := by
  have hcontrol := hid
  obtain ⟨unit, hunit, -⟩ := hcontrol
  obtain ⟨target, hterm, htarget⟩ := exists_stands hg hfree h.grows hid
  have hdeps : ∀ {sys}, Carries g bounds base assembly.found sys →
      ∃ assembly', unit.deps.entries.foldlM (ControlAssembly.addDep g bounds unit target)
          { assembly with system := sys } = .ok assembly' ∧
        Prepares g bounds ahead behind base assembly' := by
    intro sys hcarries
    have hstarted : Prepares g bounds ahead behind base { assembly with system := sys } :=
      ⟨hcarries, h.traced⟩
    exact Checked.exists_foldlM
      (fun dep hdep now hnow => hnow.addDep hg hfree hunit hid hdep htarget) hstarted
  rw [ControlAssembly.addUnit, Graph.unit_eq_ok.mpr hunit, Checked.ok_bind, hterm,
    Checked.ok_bind]
  rcases term?_cases hterm with ⟨index, -, heq⟩ | ⟨_, heq⟩
  · cases heq
    have hentry := hg.entrySlot
    unfold Word.count at hentry
    obtain ⟨sys, hok, hcarries⟩ := h.toCarries.addGeq hg hfree g.entrySlot htarget.toHolds
      (holds_const (by decide) : base.Holds (.const 0)) (by omega) (by omega)
      fun {later slots slots'} _ hsqueezes hle => by
        rw [htarget.eval hg hfree hid hsqueezes.agrees, Term.eval, Int.sub_zero] at hle
        rw [htarget.eval hg hfree hid hsqueezes.agrees', Term.eval, Int.sub_zero]
        exact hsqueezes.free hid hle
    simp only [lowerBound, hok, Checked.ok_bind]
    exact hdeps hcarries
  · obtain ⟨slot, _, rfl⟩ := Option.map_eq_some_iff.mp heq.symm
    exact hdeps h.toCarries

/-! ## The end and the order -/

theorem Carries.addEnd (h : Carries g bounds base found sys) :
    ∃ sys', addEnd g bounds sys = .ok sys' ∧ Carries g bounds base found sys' := by
  unfold ControlSystem.addEnd
  split
  next last exit hlast hexit =>
    obtain ⟨term, hterm, hstands⟩ := exists_stands hg hfree h.grows (hg.exit hexit)
    have hends := hg.ends hlast
    unfold Word.count at hends
    obtain ⟨sys', hok, hcarries⟩ := h.addGeq hg hfree
      (-((g.entrySlot : Int) + (last : Int))) (holds_const (by decide) : base.Holds (.const 0))
      hstands.toHolds (by omega) (by omega)
      fun {later slots slots'} _ hsqueezes hle => by
        rw [hstands.eval hg hfree (hg.exit hexit) hsqueezes.agrees, Term.eval] at hle
        rw [hstands.eval hg hfree (hg.exit hexit) hsqueezes.agrees', Term.eval]
        have := hsqueezes.ends hexit hlast (by omega)
        omega
    have hneg : Offset.neg ((g.entrySlot : Int) + (last : Int)) =
        .ok (-((g.entrySlot : Int) + (last : Int))) :=
      Offset.exists_check (2 ^ 52) (by omega) (by decide)
    exact ⟨sys', by simp only [hterm, Checked.ok_bind, upperBound, hneg, hok], hcarries⟩
  next => exact ⟨sys, rfl, h⟩

theorem exists_standing_terms (h : base.Extends sys) {ids : List UnitId}
    (hids : ∀ id ∈ ids, g.IsControl id) :
    ∃ terms, ids.filterMapM (fun id => sys.term? g id) = .ok terms ∧
      List.Forall₂ (Stands g base) ids terms := by
  induction ids with
  | nil => exact ⟨[], rfl, .nil⟩
  | cons id rest ih =>
      obtain ⟨hid, hrest⟩ := List.forall_mem_cons.mp hids
      obtain ⟨term, hterm, hstands⟩ := exists_stands hg hfree h hid
      obtain ⟨terms, hterms, hall⟩ := ih hrest
      refine ⟨term :: terms, ?_, .cons hstands hall⟩
      rw [List.filterMapM_cons, hterm, Checked.ok_bind, hterms]
      rfl

variable {order : IssueOrder} {chain : IssueChain}

/-- Two units of a chain can be kept apart by at most one slot. -/
theorem Carries.addGeq_chain (weight : Int) {first second : UnitId} {term term' : Term}
    (h : Carries g bounds base found sys) (horder : bounds.order = some order)
    (hchain : chain ∈ order.chains) (hfirst : first ∈ chain.units) (hsecond : second ∈ chain.units)
    (hterm : Stands g base first term) (hterm' : Stands g base second term')
    (hlow : -(2 ^ 61) ≤ weight) (hhigh : weight ≤ 1) :
    ∃ sys', sys.addGeq term' term weight = .ok sys' ∧ Carries g bounds base found sys' := by
  have hcontrol := hg.chained horder hchain hfirst
  have hcontrol' := hg.chained horder hchain hsecond
  refine h.addGeq hg hfree weight hterm'.toHolds hterm.toHolds hlow (by omega)
    fun {later slots slots'} _ hsqueezes hle => ?_
  rw [hterm.eval hg hfree hcontrol hsqueezes.agrees,
    hterm'.eval hg hfree hcontrol' hsqueezes.agrees] at hle
  rw [hterm.eval hg hfree hcontrol hsqueezes.agrees',
    hterm'.eval hg hfree hcontrol' hsqueezes.agrees']
  have := hsqueezes.chains horder hchain hfirst hsecond hhigh (by omega)
  omega

theorem Carries.addNeighbours {ids : List UnitId} {terms : List Term}
    (h : Carries g bounds base found sys) (horder : bounds.order = some order)
    (hchain : chain ∈ order.chains) (hids : ∀ id ∈ ids, id ∈ chain.units)
    (hterms : List.Forall₂ (Stands g base) ids terms) :
    ∃ sys', addNeighbours terms sys = .ok sys' ∧ Carries g bounds base found sys' := by
  induction hterms generalizing sys with
  | nil => exact ⟨sys, rfl, h⟩
  | @cons id term ids terms hfirst hrest ih =>
      cases hrest with
      | nil => exact ⟨sys, rfl, h⟩
      | @cons id' term' ids terms hsecond hrest =>
          obtain ⟨hid, hrestIds⟩ := List.forall_mem_cons.mp hids
          obtain ⟨middle, hok, hmiddle⟩ := h.addGeq_chain hg hfree 1 horder hchain hid
            (hrestIds id' List.mem_cons_self) hfirst hsecond (by decide) le_rfl
          rw [ControlSystem.addNeighbours, hok, Checked.ok_bind]
          exact ih hmiddle hrestIds

theorem Carries.addWindow {terms : List Term} {interval : Nat}
    (h : Carries g bounds base found sys) (horder : bounds.order = some order)
    (hchain : chain ∈ order.chains)
    (hterms : List.Forall₂ (Stands g base) chain.units terms) (hinterval : interval < Word.count) :
    ∃ sys', addWindow terms interval sys = .ok sys' ∧ Carries g bounds base found sys' := by
  have hstands : ∀ term ∈ terms, ∃ id ∈ chain.units, Stands g base id term := by
    intro term hterm
    obtain ⟨position, hposition⟩ := List.getElem?_of_mem hterm
    obtain ⟨hlt, rfl⟩ := List.getElem?_eq_some_iff.mp hposition
    have hlt' : position < chain.units.length := hterms.length_eq ▸ hlt
    exact ⟨_, List.getElem_mem hlt', hterms.get hlt' hlt⟩
  unfold ControlSystem.addWindow
  split
  next first last hfirst hlast =>
    unfold Word.count at hinterval
    obtain ⟨id, hid, hfirst⟩ := hstands first (List.mem_of_mem_head? hfirst)
    obtain ⟨id', hid', hlast⟩ := hstands last (List.mem_of_mem_getLast? hlast)
    exact h.addGeq_chain hg hfree _ horder hchain hid' hid hlast hfirst (by omega) (by omega)
  next => exact ⟨sys, rfl, h⟩

theorem Carries.addChain (h : Carries g bounds base found sys) (horder : bounds.order = some order)
    (hchain : chain ∈ order.chains) :
    ∃ sys', addChain g bounds sys chain = .ok sys' ∧ Carries g bounds base found sys' := by
  obtain ⟨terms, hterms, hall⟩ := exists_standing_terms hg hfree h.grows
    fun id hid => hg.chained horder hchain hid
  obtain ⟨sorted, hsorted, hcarries⟩ :=
    h.addNeighbours hg hfree horder hchain (fun _ hid => hid) hall
  rw [ControlSystem.addChain, hterms, Checked.ok_bind, hsorted, Checked.ok_bind]
  split
  next interval hinterval =>
    split
    · exact hcarries.addWindow hg hfree horder hchain hall (hg.intervals horder hchain hinterval)
    · exact ⟨sorted, rfl, hcarries⟩
  next => exact ⟨sorted, rfl, hcarries⟩

end

/-- The system can be built, and its solutions can be exchanged for what meets the same. -/
theorem exists_build_squeezes (hg : Ready g bounds ahead behind) :
    ∃ sys found, build g bounds = .ok sys ∧ Arc.Light sys.arcs ∧
      LookThrough.Traced g bounds ahead behind found ∧
      ∀ {slots slots'}, Squeezes g bounds found slots slots' →
        sys.Satisfies (sys.valuesAt slots) → sys.Satisfies (sys.valuesAt slots') := by
  obtain ⟨base, hbase⟩ := exists_ofFree fun id hid => (hg.control.mp hid).lt_size
  have hfree := isFree_ofFree hbase
  have hstart : Carries g bounds base (.start g) base := by
    refine ⟨Extends.refl _, fun arc harc => by simp [hfree.arcs] at harc, fun _ _ hslots => ?_⟩
    exact ⟨hslots.1, fun arc harc => by simp [hfree.arcs] at harc⟩
  have hprepares : Prepares g bounds ahead behind base { system := base, found := .start g } :=
    ⟨hstart, LookThrough.traced_start⟩
  obtain ⟨assembly, hassembly, hunits⟩ := Checked.exists_foldlM
    (fun id hid assembly h => h.addUnit hg hfree (hg.control.mp hid)) hprepares
  obtain ⟨ended, hended, hcarries⟩ := hunits.toCarries.addEnd hg hfree
  have hbuilt : ∃ sys, build g bounds = .ok sys ∧
      Carries g bounds base assembly.found sys := by
    rw [build, hbase, Checked.ok_bind]
    simp only [hassembly, Checked.ok_bind, hended]
    cases horder : bounds.order with
    | none => exact ⟨ended, rfl, hcarries⟩
    | some order =>
        exact Checked.exists_foldlM
          (fun chain hchain sys h => h.addChain hg hfree horder hchain) hcarries
  obtain ⟨sys, hbuild, hsys⟩ := hbuilt
  refine ⟨sys, assembly.found, hbuild, hsys.light, hunits.traced, fun hsqueezes hslots => ?_⟩
  rw [valuesAt_congr hsys.grows.keepsUnits.symm] at hslots ⊢
  exact hsys.squeezed (.refl _) hsqueezes hslots

end ControlSystem

end SlotScheduling
