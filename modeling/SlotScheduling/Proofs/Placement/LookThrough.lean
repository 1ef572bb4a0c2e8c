import Mathlib.Data.List.Perm.Subperm
import Mathlib.Logic.Relation
import SlotScheduling.Placement.LookThrough
import SlotScheduling.Proofs.Graph.WellFormed
import SlotScheduling.Proofs.Tables

/-!
# What looking through the data path finds

A unit that lies on no cycle of data-path units is looked through only after all that
it depends on.  So whatever was looked through before, its control sources take in
every path to it from a control unit through such units.  On a cycle the walk meets a
unit that is still open, and what it finds depends on where it started.
-/

namespace SlotScheduling

namespace Graph

variable {g g' : Graph} {source user : UnitId}

/-- A data-path unit depends on another one. -/
def Feeds (g : Graph) (source user : UnitId) : Prop :=
  g.IsData source ∧ g.IsData user ∧ g.DependsOn user source

/-- The unit lies on a cycle of data-path units. -/
def Circular (g : Graph) (id : UnitId) : Prop := Relation.TransGen g.Feeds id id

theorem isData_of_feeds (h : Relation.TransGen g.Feeds source user) : g.IsData user := by
  cases h with
  | single hfeeds => exact hfeeds.2.1
  | tail _ hfeeds => exact hfeeds.2.1

end Graph

namespace ControlSources

variable {sources : ControlSources} {control other : UnitId} {offset known : Int}

/-- The control unit is among the sources, with at least that offset. -/
def Reaches (sources : ControlSources) (control : UnitId) (offset : Int) : Prop :=
  ∃ known, sources.get? control = some known ∧ offset ≤ known

theorem Reaches.mono (h : sources.Reaches control known) (hle : offset ≤ known) :
    sources.Reaches control offset := by
  obtain ⟨largest, hget, hknown⟩ := h
  exact ⟨largest, hget, Int.le_trans hle hknown⟩

theorem reaches_raise : (sources.raise control offset).Reaches control offset := by
  unfold Reaches raise
  rw [Table.get?_upsert, if_pos rfl]
  refine ⟨_, rfl, ?_⟩
  cases sources.get? control with
  | none => exact Int.le_refl offset
  | some known => exact Int.le_max_right known offset

theorem Reaches.raise (h : sources.Reaches other known) :
    (sources.raise control offset).Reaches other known := by
  obtain ⟨largest, hget, hle⟩ := h
  unfold Reaches ControlSources.raise
  rw [Table.get?_upsert]
  by_cases heq : control = other
  · rw [if_pos heq, hget]
    exact ⟨_, rfl, Int.le_trans hle (Int.le_max_left largest offset)⟩
  · rw [if_neg heq]
    exact ⟨largest, hget, hle⟩

/-- Everything that was reached is still reached. -/
def Within (sources sources' : ControlSources) : Prop :=
  ∀ ⦃control offset⦄, sources.Reaches control offset → sources'.Reaches control offset

theorem Within.refl (sources : ControlSources) : sources.Within sources := fun _ _ h => h

theorem Within.trans {sources' sources'' : ControlSources} (h : sources.Within sources')
    (h' : sources'.Within sources'') : sources.Within sources'' :=
  fun _ _ hreaches => h' (h hreaches)

theorem within_raise : sources.Within (sources.raise control offset) := fun _ _ => Reaches.raise

/-- Sources are taken over with an offset of their own. -/
theorem within_foldlM {inner sources' : ControlSources}
    (h : inner.entries.foldlM (fun sources source =>
      return ControlSources.raise sources source.1 (← Offset.add source.2 offset)) sources =
        .ok sources') :
    sources.Within sources' ∧ ∀ {control span}, inner.Reaches control span →
      sources'.Reaches control (span + offset) := by
  obtain ⟨hkept, hadded⟩ := Checked.foldlM_forall (P := sources.Within)
    (Q := fun (entry : UnitId × Int) now => now.Reaches entry.1 (entry.2 + offset))
    (fun entry _ before after hbefore hround => by
      obtain ⟨sum, hsum, hround⟩ := Checked.bind_eq_ok.mp hround
      obtain rfl := Checked.pure_eq_ok.mp hround
      obtain rfl := (Offset.check_eq_ok.mp hsum).2
      exact ⟨hbefore.trans within_raise, reaches_raise, fun _ => Reaches.raise⟩)
    (.refl sources) h
  refine ⟨hkept, fun hreaches => ?_⟩
  obtain ⟨known, hget, hle⟩ := hreaches
  exact (hadded _ (Table.mem_entries_of_get?_eq_some hget)).mono (by simpa using hle)

end ControlSources

/-- An edge between the units asks for that offset. -/
def ControlBounds.Asks (bounds : ControlBounds) (g : Graph) (source user : UnitId)
    (offset : Int) : Prop :=
  ∃ unit bundle, g.units[user]? = some unit ∧ unit.dep? source = some bundle ∧
    bounds.offset? g unit.block bundle.edge = .ok (some offset)

theorem ControlBounds.Asks.dependsOn {bounds : ControlBounds} {g : Graph} {source user : UnitId}
    {offset : Int} (h : bounds.Asks g source user offset) : g.DependsOn user source := by
  obtain ⟨unit, bundle, hunit, hbundle, _⟩ := h
  exact ⟨unit, hunit, Table.mem_keys_iff.mpr ⟨bundle, hbundle⟩⟩

namespace LookThrough

variable {g : Graph} {bounds : ControlBounds} {found found' : LookThrough} {id source : UnitId}
  {unit : ScheduleUnit} {sources sources' : ControlSources} {path : List UnitId} {offset : Int}

/-- The sources take in what a dependency on a control unit asks for, and what was
found for a data-path unit. -/
def TakesIn (g : Graph) (bounds : ControlBounds) (found : LookThrough) (unit : ScheduleUnit)
    (dep : UnitId × EdgeBundle) (sources : ControlSources) : Prop :=
  ∀ offset, bounds.offset? g unit.block dep.2.edge = .ok (some offset) →
    (g.IsControl dep.1 → sources.Reaches dep.1 offset) ∧
    (g.IsData dep.1 → ∀ inner, found.sources? dep.1 = some inner →
      ∀ {control span}, inner.Reaches control span → sources.Reaches control (span + offset))

theorem TakesIn.mono {dep : UnitId × EdgeBundle} (h : TakesIn g bounds found unit dep sources)
    (hwithin : sources.Within sources') : TakesIn g bounds found unit dep sources' := by
  intro offset hoffset
  obtain ⟨hcontrol, hdata⟩ := h offset hoffset
  exact ⟨fun hisControl => hwithin (hcontrol hisControl), fun hisData inner hinner _ _ hreaches =>
    hwithin (hdata hisData inner hinner hreaches)⟩

theorem addDep_sound {dep : UnitId × EdgeBundle}
    (h : addDep g bounds found unit sources dep = .ok sources') :
    sources.Within sources' ∧ TakesIn g bounds found unit dep sources' := by
  obtain ⟨offset?, hoffset, h⟩ := Checked.bind_eq_ok.mp h
  cases offset? with
  | none =>
      obtain rfl := Checked.pure_eq_ok.mp h
      refine ⟨.refl _, fun offset hsome => ?_⟩
      rw [hoffset] at hsome
      cases hsome
  | some offset =>
      obtain ⟨producer, hproducer, h⟩ := Checked.bind_eq_ok.mp h
      rw [Graph.unit_eq_ok] at hproducer
      by_cases hcontrol : producer.control = true
      · rw [if_pos hcontrol] at h
        obtain rfl := Checked.pure_eq_ok.mp h
        refine ⟨ControlSources.within_raise, fun offset' hsome => ?_⟩
        rw [hoffset] at hsome
        cases hsome
        refine ⟨fun _ => ControlSources.reaches_raise, fun hdata => ?_⟩
        exact absurd hdata (Graph.IsControl.not_isData ⟨producer, hproducer, hcontrol⟩)
      · rw [if_neg hcontrol] at h
        have hdata : g.IsData dep.1 := ⟨producer, hproducer, by simpa using hcontrol⟩
        have hnot : ¬g.IsControl dep.1 := fun hcontrol => hcontrol.not_isData hdata
        split at h
        next hnone =>
          obtain rfl := Checked.pure_eq_ok.mp h
          refine ⟨.refl _, fun _ _ => ⟨fun hcontrol => absurd hcontrol hnot, ?_⟩⟩
          intro _ inner hinner
          rw [hnone] at hinner
          cases hinner
        next inner hinner =>
          obtain ⟨hkept, htaken⟩ := ControlSources.within_foldlM h
          refine ⟨hkept, fun offset' hsome => ⟨fun hcontrol => absurd hcontrol hnot, ?_⟩⟩
          rw [hoffset] at hsome
          cases hsome
          intro _ inner' hinner'
          obtain rfl := Option.some.inj (hinner.symm.trans hinner')
          exact htaken

theorem addUse_sound {user : UnitId} (h : addUse g id sources user = .ok sources') :
    sources.Within sources' := by
  obtain ⟨consumer, _, h⟩ := Checked.bind_eq_ok.mp h
  split at h
  · exact Checked.pure_eq_ok.mp h ▸ .refl sources
  · split at h
    · exact Checked.pure_eq_ok.mp h ▸ ControlSources.within_raise
    · exact Checked.pure_eq_ok.mp h ▸ .refl sources

theorem combine_sound (h : combine g bounds found id = .ok sources)
    (hasks : bounds.Asks g source id offset) :
    (g.IsControl source → sources.Reaches source offset) ∧
      (g.IsData source → ∀ inner, found.sources? source = some inner →
        ∀ {control span}, inner.Reaches control span →
          sources.Reaches control (span + offset)) := by
  obtain ⟨unit, bundle, hunit, hbundle, hoffset⟩ := hasks
  obtain ⟨unit', hunit', h⟩ := Checked.bind_eq_ok.mp h
  obtain rfl := Option.some.inj (hunit.symm.trans (Graph.unit_eq_ok.mp hunit'))
  obtain ⟨direct, hdirect, h⟩ := Checked.bind_eq_ok.mp h
  obtain ⟨_, hdeps⟩ := Checked.foldlM_forall (P := fun _ => True)
    (Q := TakesIn g bounds found unit)
    (fun dep _ before after _ hround => by
      obtain ⟨hwithin, htakes⟩ := addDep_sound hround
      exact ⟨trivial, htakes, fun other hother => hother.mono hwithin⟩) trivial hdirect
  have hwithin : direct.Within sources := by
    split at h
    · exact Checked.foldlM_induction (P := direct.Within)
        (fun user _ before after hbefore hround => hbefore.trans (addUse_sound hround))
        (.refl direct) h
    · exact Checked.pure_eq_ok.mp h ▸ .refl direct
  exact (hdeps _ (Table.mem_entries_of_get?_eq_some hbundle)).mono hwithin offset hoffset

/-! ## Walks over the data path -/

/-- The sources of a unit take in its control dependencies and, off all cycles, the
sources of its other dependencies. -/
structure Complete (g : Graph) (bounds : ControlBounds) (found : LookThrough) : Prop where
  size : found.size = g.units.size
  direct : ∀ {id sources control offset}, found.sources? id = some sources →
    g.IsControl control → bounds.Asks g control id offset → sources.Reaches control offset
  through : ∀ {id sources source offset}, found.sources? id = some sources → ¬g.Circular id →
    g.IsData source → bounds.Asks g source id offset →
      ∃ inner, found.sources? source = some inner ∧
        ∀ {control span}, inner.Reaches control span → sources.Reaches control (span + offset)

/-- A walk keeps what was found, and finds nothing for the units on its path. -/
structure Resolves (g : Graph) (bounds : ControlBounds) (path : List UnitId)
    (found found' : LookThrough) : Prop extends Complete g bounds found' where
  kept : ∀ {id sources}, found.sources? id = some sources → found'.sources? id = some sources
  pending : ∀ id ∈ path, found'.sources? id = found.sources? id

theorem Resolves.refl (h : Complete g bounds found) : Resolves g bounds path found found :=
  ⟨h, fun h => h, fun _ _ => rfl⟩

theorem Resolves.trans {found'' : LookThrough} (h : Resolves g bounds path found found')
    (h' : Resolves g bounds path found' found'') : Resolves g bounds path found found'' :=
  ⟨h'.toComplete, fun hsources => h'.kept (h.kept hsources),
    fun id hid => (h'.pending id hid).trans (h.pending id hid)⟩

theorem complete_start : Complete g bounds (start g) := by
  have hnone : ∀ id, (start g).sources? id = none := by
    intro id
    simp [sources?, start, Array.getD_eq_getD_getElem?, Array.getElem?_replicate]
    split <;> rfl
  refine ⟨by simp [start], fun hsources => ?_, fun hsources => ?_⟩
  all_goals
    rw [hnone] at hsources
    cases hsources

theorem sources?_set (hid : id < found.size) (other : UnitId) :
    sources? (found.setIfInBounds id (some sources)) other =
      if other = id then some sources else found.sources? other := by
  simp only [sources?, Array.getD_eq_getD_getElem?, Array.getElem?_setIfInBounds]
  by_cases heq : other = id
  · simp [heq, hid]
  · simp [heq, Ne.symm heq]

/-- A unit is found once the units it depends on are, but for those that it feeds. -/
theorem Resolves.set (hfound : Resolves g bounds path found found')
    (hid : id < g.units.size) (hnone : found'.sources? id = none) (hpath : id ∉ path)
    (hcombine : combine g bounds found' id = .ok sources)
    (hinner : ∀ source offset, ¬g.Circular id → g.IsData source →
      bounds.Asks g source id offset → ∃ inner, found'.sources? source = some inner) :
    Resolves g bounds path found (found'.setIfInBounds id (some sources)) := by
  have hget : ∀ other, sources? (found'.setIfInBounds id (some sources)) other = _ :=
    sources?_set (hfound.size ▸ hid)
  have hne : ∀ {other sources}, found'.sources? other = some sources → other ≠ id := by
    rintro other sources hsources rfl
    rw [hnone] at hsources
    cases hsources
  refine ⟨⟨by simpa using hfound.size, ?_, ?_⟩, ?_, ?_⟩
  · intro other known control offset hknown hcontrol hasks
    rw [hget] at hknown
    split at hknown
    next heq =>
      obtain rfl := Option.some.inj hknown
      exact (combine_sound hcombine (heq ▸ hasks)).1 hcontrol
    next => exact hfound.direct hknown hcontrol hasks
  · intro other known source offset hknown hopen hdata hasks
    rw [hget] at hknown
    split at hknown
    next heq =>
      subst heq
      obtain rfl := Option.some.inj hknown
      obtain ⟨inner, hinner⟩ := hinner source offset hopen hdata hasks
      refine ⟨inner, by rw [hget, if_neg (hne hinner), hinner], ?_⟩
      exact (combine_sound hcombine hasks).2 hdata inner hinner
    next =>
      obtain ⟨inner, hinner, hreaches⟩ := hfound.through hknown hopen hdata hasks
      exact ⟨inner, by rw [hget, if_neg (hne hinner), hinner], hreaches⟩
  · intro other known hknown
    have hkept := hfound.kept hknown
    rw [hget, if_neg (hne hkept), hkept]
  · intro other hother
    have hne : other ≠ id := fun heq => hpath (heq ▸ hother)
    rw [hget, if_neg hne]
    exact hfound.pending other hother

/-- Every data-path unit that a unit depends on is visited, so it is found unless it is
on the path. -/
theorem resolves_sources {inside : LookThrough} {visit : LookThrough → UnitId → Checked LookThrough}
    (hfound : Complete g bounds found) (hunit : g.units[id]? = some unit) (hdata : g.IsData id)
    (hvisit : ∀ source before after, Complete g bounds before → g.Feeds source id →
      visit before source = .ok after → Resolves g bounds path before after ∧
        (source ∉ path → ∃ sources, after.sources? source = some sources))
    (h : unit.deps.keys.reverse.foldlM (fun found source => do
      if (← g.unit source).isData then visit found source else return found) found = .ok inside) :
    Resolves g bounds path found inside ∧ ∀ source, g.Feeds source id → source ∉ path →
      ∃ sources, inside.sources? source = some sources := by
  obtain ⟨hresolves, hall⟩ := Checked.foldlM_forall
    (P := Resolves g bounds path found)
    (Q := fun source now => g.Feeds source id → source ∉ path →
      ∃ sources, sources? now source = some sources)
    (fun source hsource before after hbefore hround => by
      obtain ⟨producer, hproducer, hround⟩ := Checked.bind_eq_ok.mp hround
      rw [Graph.unit_eq_ok] at hproducer
      split at hround
      next hisData =>
        have hproduces : g.IsData source :=
          ⟨producer, hproducer, by simpa [ScheduleUnit.isData] using hisData⟩
        have hfeeds : g.Feeds source id :=
          ⟨hproduces, hdata, unit, hunit, List.mem_reverse.mp hsource⟩
        obtain ⟨hafter, hsome⟩ := hvisit source before after hbefore.toComplete hfeeds hround
        refine ⟨hbefore.trans hafter, fun _ => hsome, fun other hother hfeeds hnot => ?_⟩
        obtain ⟨sources, hsources⟩ := hother hfeeds hnot
        exact ⟨sources, hafter.kept hsources⟩
      next hnotData =>
        obtain rfl := Checked.pure_eq_ok.mp hround
        refine ⟨hbefore, fun hfeeds => absurd ?_ hnotData, fun _ hother => hother⟩
        obtain ⟨producer', hproducer', hdata⟩ := hfeeds.1
        obtain rfl := Option.some.inj (hproducer.symm.trans hproducer')
        simpa [ScheduleUnit.isData] using hdata)
    (.refl hfound) h
  refine ⟨hresolves, fun source hfeeds => hall source ?_ hfeeds⟩
  obtain ⟨unit', hunit', hmem⟩ := hfeeds.2.2
  obtain rfl := Option.some.inj (hunit.symm.trans hunit')
  exact List.mem_reverse.mpr hmem

/-- The units on the path are fed by the unit at its end, so that this lies on a cycle
if it depends on one of them. -/
theorem resolves_resolve {depth : Nat} (hfound : Complete g bounds found) (hdata : g.IsData id)
    (hpath : ∀ other ∈ path, Relation.TransGen g.Feeds id other) (hnodup : path.Nodup)
    (hdepth : g.units.size < depth + path.length)
    (h : resolve g bounds depth path found id = .ok found') :
    Resolves g bounds path found found' ∧
      (id ∉ path → ∃ sources, found'.sources? id = some sources) := by
  induction depth generalizing path found found' id with
  | zero =>
      -- The path has no room for another unit.
      have hsubset : path ⊆ List.range g.units.size := fun other hother =>
        List.mem_range.mpr (Graph.isData_of_feeds (hpath other hother)).lt_size
      have hlength := (hnodup.subperm hsubset).length_le
      rw [List.length_range] at hlength
      omega
  | succ depth ih =>
      unfold resolve at h
      split at h
      next hseen =>
        obtain rfl := Checked.pure_eq_ok.mp h
        refine ⟨.refl hfound, fun hnot => ?_⟩
        exact Option.isSome_iff_exists.mp (hseen.resolve_right hnot)
      next hfresh =>
        rw [not_or, Bool.not_eq_true, Option.isSome_eq_false_iff, Option.isNone_iff_eq_none]
          at hfresh
        obtain ⟨hnone, hout⟩ := hfresh
        obtain ⟨unit, hunit, h⟩ := Checked.bind_eq_ok.mp h
        obtain ⟨inside, hinside, h⟩ := Checked.bind_eq_ok.mp h
        obtain ⟨sources, hsources, h⟩ := Checked.bind_eq_ok.mp h
        obtain rfl := Checked.pure_eq_ok.mp h
        rw [Graph.unit_eq_ok] at hunit
        have hlt := Graph.lt_size_of_getElem? hunit
        obtain ⟨hresolves, hall⟩ := resolves_sources hfound hunit hdata
          (fun source before after hbefore hfeeds hround => by
            have hlonger : ∀ other ∈ id :: path, Relation.TransGen g.Feeds source other :=
              List.forall_mem_cons.mpr
                ⟨.single hfeeds, fun other hother => (hpath other hother).head hfeeds⟩
            exact ih hbefore hfeeds.1 hlonger (List.nodup_cons.mpr ⟨hout, hnodup⟩)
              (by rw [List.length_cons]; omega) hround) hinside
        have hstill : inside.sources? id = none := by
          rw [hresolves.pending id List.mem_cons_self, hnone]
        have hbelow : Resolves g bounds path found inside :=
          ⟨hresolves.toComplete, hresolves.kept, fun other hother =>
            hresolves.pending other (List.mem_cons_of_mem id hother)⟩
        have hlast := hbelow.set hlt hstill hout hsources
            fun source offset hopen hproduces hasks => by
          have hfeeds : g.Feeds source id := ⟨hproduces, hdata, hasks.dependsOn⟩
          refine hall source hfeeds fun hmem => hopen ?_
          rcases List.mem_cons.mp hmem with rfl | hother
          · exact .single hfeeds
          · exact (hpath source hother).tail hfeeds
        refine ⟨hlast, fun _ => ⟨sources, ?_⟩⟩
        rw [sources?_set (hbelow.size ▸ hlt), if_pos rfl]

theorem sourcesOf_sound (hfound : Complete g bounds found) (hdata : g.IsData id)
    (h : sourcesOf g bounds found id = .ok (sources, found')) :
    Complete g bounds found' ∧ found'.sources? id = some sources := by
  obtain ⟨resolved, hresolved, h⟩ := Checked.bind_eq_ok.mp h
  cases Checked.pure_eq_ok.mp h
  obtain ⟨hresolves, hsome⟩ := resolves_resolve hfound hdata (by simp) List.nodup_nil
    (by simp) hresolved
  obtain ⟨sources, hsources⟩ := hsome List.not_mem_nil
  exact ⟨hresolves.toComplete, by rw [hsources, Option.getD_some]⟩

/-! ## Paths over the data path -/

/-- A path leads from a control unit to a data-path unit, over data-path units that lie
on no cycle, with that sum of offsets. -/
inductive Spans (g : Graph) (bounds : ControlBounds) (control : UnitId) : UnitId → Int → Prop
  | start {id : UnitId} {offset : Int} (hcontrol : g.IsControl control) (hdata : g.IsData id)
      (hopen : ¬g.Circular id) (hasks : bounds.Asks g control id offset) :
      Spans g bounds control id offset
  | step {source id : UnitId} {span offset : Int} (hspans : Spans g bounds control source span)
      (hdata : g.IsData id) (hopen : ¬g.Circular id) (hasks : bounds.Asks g source id offset) :
      Spans g bounds control id (span + offset)

theorem Spans.isData {control : UnitId} {span : Int} (h : Spans g bounds control id span) :
    g.IsData id := by
  cases h with
  | start _ hdata _ _ => exact hdata
  | step _ hdata _ _ => exact hdata

theorem Complete.reaches (hfound : Complete g bounds found) {control : UnitId} {span : Int}
    (h : Spans g bounds control id span) (hsources : found.sources? id = some sources) :
    sources.Reaches control span := by
  induction h generalizing sources with
  | start hcontrol _ _ hasks => exact hfound.direct hsources hcontrol hasks
  | step hspans _ hopen hasks ih =>
      obtain ⟨inner, hinner, hreaches⟩ := hfound.through hsources hopen hspans.isData hasks
      exact hreaches (ih hinner)

end LookThrough

end SlotScheduling
