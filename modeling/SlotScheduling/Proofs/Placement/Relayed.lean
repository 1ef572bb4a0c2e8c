import SlotScheduling.Proofs.Placement.Spanned

/-!
# What is found on cycles

Where data-path units lie on cycles, what is found for a unit depends on where the walk started.
Even then an offset is only found over dependencies whose ends were both looked through, the source
first, and whatever was found for the source is passed on to the user with it.  So an offset adds up
no more dependencies than there are units, and looking through the data path does not fail as long
as there is room for that many.
-/

namespace SlotScheduling

/-- The offset of every dependency is known and lies between two bounds, with room to add up as many
of them as there are units. -/
structure ControlBounds.Ranged (bounds : ControlBounds) (g : Graph) (ahead behind : Nat) : Prop
    extends g.WellFormed, g.Tidy where
  unfrozen : ∀ {id : UnitId} {unit : ScheduleUnit}, g.units[id]? = some unit →
    unit.fixedTiming = false
  within : ∀ {id : UnitId} {unit : ScheduleUnit}, g.units[id]? = some unit →
    ∀ dep ∈ unit.deps.entries,
      ∃ offset?, bounds.offset? g unit.block dep.2.edge = .ok offset? ∧
        ∀ offset ∈ offset?, offset ≤ (ahead : Int) ∧ -(behind : Int) ≤ offset
  room : (ahead + behind) * (g.units.size + 1) ≤ 2 ^ 61

namespace LookThrough

variable {g : Graph} {bounds : ControlBounds} {found found' : LookThrough} {id control : UnitId}
  {unit : ScheduleUnit} {sources : ControlSources} {path : List UnitId} {span : Int}
  {ahead behind : Nat}

/-- What was found is still found. -/
def Keeps (found found' : LookThrough) : Prop :=
  ∀ ⦃id sources⦄, found.sources? id = some sources → found'.sources? id = some sources

theorem Keeps.refl (found : LookThrough) : Keeps found found := fun _ _ h => h

theorem Keeps.trans {found'' : LookThrough} (h : Keeps found found') (h' : Keeps found' found'') :
    Keeps found found'' :=
  fun _ _ hsources => h' (h hsources)

/-- A walk keeps what was found, and finds nothing for the units on its path. -/
structure Visits (path : List UnitId) (found found' : LookThrough) : Prop where
  kept : Keeps found found'
  pending : ∀ id ∈ path, found'.sources? id = found.sources? id

theorem Visits.refl (path : List UnitId) (found : LookThrough) : Visits path found found :=
  ⟨.refl found, fun _ _ => rfl⟩

theorem Visits.trans {found'' : LookThrough} (h : Visits path found found')
    (h' : Visits path found' found'') : Visits path found found'' :=
  ⟨h.kept.trans h'.kept, fun id hid => (h'.pending id hid).trans (h.pending id hid)⟩

theorem sources?_start (g : Graph) (id : UnitId) : (start g).sources? id = none := by
  simp [sources?, start, Array.getD_eq_getD_getElem?, Array.getElem?_replicate]
  split <;> rfl

/-- Only units of the graph are looked through. -/
theorem lt_size_of_sources? (h : found.sources? id = some sources) : id < found.size := by
  by_contra hge
  simp [sources?, Array.getD_eq_getD_getElem?, Array.getElem?_eq_none (Nat.le_of_not_lt hge)] at h

theorem keeps_set (hnone : found.sources? id = none) (hid : id < found.size) :
    Keeps found (found.setIfInBounds id (some sources)) := by
  intro other known hknown
  rw [sources?_set hid, if_neg, hknown]
  rintro rfl
  rw [hnone] at hknown
  cases hknown

/-! ## How far the offsets go -/

/-- The units that were looked through. -/
def visited (found : LookThrough) : Finset UnitId :=
  (Finset.range found.size).filter fun id => (found.sources? id).isSome

theorem mem_visited : id ∈ visited found ↔ ∃ sources, found.sources? id = some sources := by
  rw [visited, Finset.mem_filter, Finset.mem_range, Option.isSome_iff_exists]
  refine and_iff_right_of_imp ?_
  rintro ⟨sources, hsources⟩
  exact lt_size_of_sources? hsources

theorem card_visited_le (found : LookThrough) : (visited found).card ≤ found.size :=
  (Finset.card_filter_le _ _).trans_eq (Finset.card_range _)

theorem card_visited_set (hnone : found.sources? id = none) (hid : id < found.size) :
    (visited (found.setIfInBounds id (some sources))).card = (visited found).card + 1 := by
  have hinsert : visited (found.setIfInBounds id (some sources)) = insert id (visited found) := by
    ext other
    rw [Finset.mem_insert, mem_visited, mem_visited, sources?_set hid]
    by_cases hother : other = id
    · simp [hother]
    · simp [hother]
  rw [hinsert, Finset.card_insert_of_notMem]
  rw [mem_visited, hnone]
  rintro ⟨_, hsome⟩
  cases hsome

/-- The offset adds up at most that many dependencies. -/
def Spread (ahead behind count : Nat) (offset : Int) : Prop :=
  offset ≤ (ahead * count : Nat) ∧ -((behind * count : Nat) : Int) ≤ offset

theorem Spread.mono {count count' : Nat} {offset : Int} (h : Spread ahead behind count offset)
    (hle : count ≤ count') : Spread ahead behind count' offset := by
  have hahead := Nat.mul_le_mul_left ahead hle
  have hbehind := Nat.mul_le_mul_left behind hle
  obtain ⟨hhigh, hlow⟩ := h
  exact ⟨by omega, by omega⟩

theorem Spread.add {count : Nat} {span offset : Int} (h : Spread ahead behind count span)
    (hoffset : offset ≤ (ahead : Int) ∧ -(behind : Int) ≤ offset) :
    Spread ahead behind (count + 1) (span + offset) := by
  obtain ⟨hhigh, hlow⟩ := h
  unfold Spread
  rw [Nat.mul_succ, Nat.mul_succ]
  push_cast at hhigh hlow ⊢
  omega

/-- As many dependencies as there are units do not lead out of the range. -/
theorem Spread.natAbs_le {count : Nat} {offset : Int} (hg : bounds.Ranged g ahead behind)
    (h : Spread ahead behind count offset) (hcount : count ≤ g.units.size + 1) :
    offset.natAbs ≤ 2 ^ 61 := by
  have hroom := hg.room
  rw [Nat.add_mul] at hroom
  obtain ⟨hhigh, hlow⟩ := h.mono hcount
  omega

theorem spread_of_asks (hg : bounds.Ranged g ahead behind) {source user : UnitId} {offset : Int}
    (hasks : bounds.Asks g source user offset) :
    offset ≤ (ahead : Int) ∧ -(behind : Int) ≤ offset := by
  obtain ⟨unit, bundle, hunit, hbundle, hoffset⟩ := hasks
  obtain ⟨offset?, hknown, hwithin⟩ := hg.within hunit _ (Table.mem_entries_of_get?_eq_some hbundle)
  rw [hoffset] at hknown
  cases hknown
  exact hwithin offset rfl

/-! ## What one unit takes from those that it depends on -/

/-- One dependency of a unit leads to the control unit: directly, or by way of what was found for a
data-path unit. -/
inductive Yields (g : Graph) (bounds : ControlBounds) (found : LookThrough) (id : UnitId) :
    UnitId → Int → Prop
  | direct {control : UnitId} {offset : Int} (hcontrol : g.IsControl control)
      (hasks : bounds.Asks g control id offset) : Yields g bounds found id control offset
  | raised {source control : UnitId} {inner : ControlSources} {span offset : Int}
      (hdata : g.IsData source) (hinner : found.sources? source = some inner)
      (hentry : (control, span) ∈ inner.entries) (hasks : bounds.Asks g source id offset) :
      Yields g bounds found id control (span + offset)

/-- Each of the sources is led to by a dependency of the unit. -/
structure Collects (g : Graph) (bounds : ControlBounds) (found : LookThrough) (id : UnitId)
    (sources : ControlSources) : Prop where
  nodup : sources.keys.Nodup
  yields : ∀ entry ∈ sources.entries, Yields g bounds found id entry.1 entry.2

theorem collects_empty : Collects g bounds found id .empty :=
  ⟨List.nodup_nil, fun _ hmem => absurd hmem List.not_mem_nil⟩

theorem Collects.raise {offset : Int} (h : Collects g bounds found id sources)
    (hyields : Yields g bounds found id control offset) :
    Collects g bounds found id (sources.raise control offset) := by
  unfold ControlSources.raise Table.upsert
  split
  · refine ⟨by rw [Table.keys_modify]; exact h.nodup, fun entry hentry => ?_⟩
    rcases Table.mem_entries_modify hentry with hold | ⟨old, hold, rfl⟩
    · exact h.yields entry hold
    · rcases max_choice old offset with heq | heq
      · simpa only [heq] using h.yields _ hold
      · simpa only [heq] using hyields
  · refine ⟨Table.nodup_keys_insert h.nodup, fun entry hentry => ?_⟩
    rcases Table.mem_entries_insert.mp hentry with rfl | ⟨hold, _⟩
    · exact hyields
    · exact h.yields entry hold

/-! ## What was found in the end -/

/-- What was found for a unit comes to it from a control unit over units that were looked through,
each of which passes on everything that was found for the one before it. -/
inductive Relayed (g : Graph) (bounds : ControlBounds) (found : LookThrough) (control : UnitId) :
    UnitId → Int → Prop
  | direct {id : UnitId} {offset : Int} {sources : ControlSources} (hcontrol : g.IsControl control)
      (hdata : g.IsData id) (hasks : bounds.Asks g control id offset)
      (hfound : found.sources? id = some sources) (hreaches : sources.Reaches control offset) :
      Relayed g bounds found control id offset
  | through {source id : UnitId} {span offset : Int} {inner sources : ControlSources}
      (hrelayed : Relayed g bounds found control source span) (hdata : g.IsData id)
      (hasks : bounds.Asks g source id offset) (hinner : found.sources? source = some inner)
      (hfound : found.sources? id = some sources)
      (hpasses : ∀ {other span}, inner.Reaches other span → sources.Reaches other (span + offset)) :
      Relayed g bounds found control id (span + offset)

theorem Relayed.mono (h : Relayed g bounds found control id span) (hkept : Keeps found found') :
    Relayed g bounds found' control id span := by
  induction h with
  | direct hcontrol hdata hasks hfound hreaches =>
      exact .direct hcontrol hdata hasks (hkept hfound) hreaches
  | through _ hdata hasks hinner hfound hpasses ih =>
      exact .through ih hdata hasks (hkept hinner) (hkept hfound) hpasses

theorem Relayed.isData (h : Relayed g bounds found control id span) : g.IsData id := by
  cases h with
  | direct _ hdata => exact hdata
  | through _ hdata => exact hdata

theorem Relayed.reaches (h : Relayed g bounds found control id span) :
    ∃ sources, found.sources? id = some sources ∧ sources.Reaches control span := by
  induction h with
  | direct _ _ _ hfound hreaches => exact ⟨_, hfound, hreaches⟩
  | through _ _ _ hinner hfound hpasses ih =>
      obtain ⟨inner, hinner', hreaches⟩ := ih
      obtain rfl := Option.some.inj (hinner.symm.trans hinner')
      exact ⟨_, hfound, hpasses hreaches⟩

theorem Relayed.isControl (h : Relayed g bounds found control id span) : g.IsControl control := by
  induction h with
  | direct hcontrol => exact hcontrol
  | through _ _ _ _ _ _ ih => exact ih

/-- Some unit depends on a control unit that was found. -/
theorem Relayed.isUsed (h : Relayed g bounds found control id span) :
    ∃ user, g.DependsOn user control := by
  induction h with
  | direct _ _ hasks => exact ⟨_, hasks.dependsOn⟩
  | through _ _ _ _ _ _ ih => exact ih

/-- Everything that was found was relayed, and adds up no more dependencies than units were looked
through. -/
structure Traced (g : Graph) (bounds : ControlBounds) (ahead behind : Nat) (found : LookThrough) :
    Prop where
  size : found.size = g.units.size
  nodup : ∀ {id sources}, found.sources? id = some sources → sources.keys.Nodup
  spread : ∀ {id sources}, found.sources? id = some sources →
    ∀ entry ∈ sources.entries, Spread ahead behind (visited found).card entry.2
  relayed : ∀ {id sources}, found.sources? id = some sources →
    ∀ entry ∈ sources.entries, Relayed g bounds found entry.1 id entry.2

theorem traced_start : Traced g bounds ahead behind (start g) := by
  refine ⟨by simp [start], fun hsources => ?_, fun hsources => ?_, fun hsources => ?_⟩
  all_goals
    rw [sources?_start] at hsources
    cases hsources

section

variable (hg : bounds.Ranged g ahead behind) (hfound : Traced g bounds ahead behind found)

include hg hfound

theorem Yields.spread (h : Yields g bounds found id control span) :
    Spread ahead behind ((visited found).card + 1) span := by
  cases h with
  | direct _ hasks =>
      have hzero : Spread ahead behind (visited found).card 0 := by
        unfold Spread
        omega
      simpa using hzero.add (spread_of_asks hg hasks)
  | raised _ hinner hentry hasks =>
      exact (hfound.spread hinner _ hentry).add (spread_of_asks hg hasks)

theorem Yields.natAbs_le (h : Yields g bounds found id control span) : span.natAbs ≤ 2 ^ 61 :=
  (h.spread hg hfound).natAbs_le hg
    (Nat.succ_le_succ ((card_visited_le found).trans_eq hfound.size))

/-- What a unit collects is found for it, once it is known to be all that its dependencies lead
to. -/
theorem Traced.set (hdata : g.IsData id) (hnone : found.sources? id = none)
    (hcombine : combine g bounds found id = .ok sources)
    (hcollects : Collects g bounds found id sources) :
    Traced g bounds ahead behind (found.setIfInBounds id (some sources)) := by
  have hlt : id < found.size := hfound.size ▸ hdata.lt_size
  have hkept : Keeps found (found.setIfInBounds id (some sources)) := keeps_set hnone hlt
  have hget : sources? (found.setIfInBounds id (some sources)) id = some sources := by
    rw [sources?_set hlt, if_pos rfl]
  refine ⟨by simpa using hfound.size, fun {other known} hknown => ?_,
    fun {other known} hknown entry hentry => ?_, fun {other known} hknown entry hentry => ?_⟩
  · rw [sources?_set hlt] at hknown
    split at hknown
    · cases hknown
      exact hcollects.nodup
    · exact hfound.nodup hknown
  · rw [card_visited_set hnone hlt]
    rw [sources?_set hlt] at hknown
    split at hknown
    · cases hknown
      exact (hcollects.yields entry hentry).spread hg hfound
    · exact (hfound.spread hknown entry hentry).mono (Nat.le_succ _)
  · rw [sources?_set hlt] at hknown
    split at hknown
    next heq =>
      subst heq
      cases hknown
      obtain ⟨control, span⟩ := entry
      cases hcollects.yields (control, span) hentry with
      | direct hcontrol hasks =>
          exact .direct hcontrol hdata hasks hget ((combine_sound hcombine hasks).1 hcontrol)
      | raised hsource hinner hmem hasks =>
          exact .through ((hfound.relayed hinner _ hmem).mono hkept) hdata hasks (hkept hinner) hget
            fun hreaches => (combine_sound hcombine hasks).2 hsource _ hinner hreaches
    next => exact (hfound.relayed hknown entry hentry).mono hkept

/-! ## Walks do not fail -/

theorem exists_addDep_collects (hunit : g.units[id]? = some unit) {dep : UnitId × EdgeBundle}
    (hmem : dep ∈ unit.deps.entries) (hsources : Collects g bounds found id sources) :
    ∃ sources', addDep g bounds found unit sources dep = .ok sources' ∧
      Collects g bounds found id sources' := by
  obtain ⟨offset?, hoffset, -⟩ := hg.within hunit dep hmem
  obtain ⟨producer, hproducer⟩ := hg.toWellFormed.exists_source hunit hmem
  cases offset? with
  | none => exact ⟨sources, by rw [addDep, hoffset]; rfl, hsources⟩
  | some offset =>
      have hget := Table.get?_of_mem_entries (hg.tidy hunit).nodup hmem
      have hasks : bounds.Asks g dep.1 id offset := ⟨unit, dep.2, hunit, hget, hoffset⟩
      rw [addDep, hoffset, Checked.ok_bind]
      simp only [Graph.unit_eq_ok.mpr hproducer, Checked.ok_bind]
      cases hcontrol : producer.control with
      | true =>
          exact ⟨_, if_pos rfl, hsources.raise (.direct ⟨producer, hproducer, hcontrol⟩ hasks)⟩
      | false =>
          rw [if_neg Bool.false_ne_true]
          cases hinner : found.sources? dep.1 with
          | none => exact ⟨sources, rfl, hsources⟩
          | some inner =>
              refine Checked.exists_foldlM (P := Collects g bounds found id)
                (fun entry hentry before hbefore => ?_) hsources
              have hnext : Yields g bounds found id entry.1 (entry.2 + offset) :=
                .raised ⟨producer, hproducer, hcontrol⟩ hinner hentry hasks
              refine ⟨_, ?_, hbefore.raise hnext⟩
              rw [Offset.add, Offset.exists_check _ (hnext.natAbs_le hg hfound) (by decide)]
              rfl

theorem exists_combine_collects (hid : id < g.units.size) :
    ∃ sources, combine g bounds found id = .ok sources ∧ Collects g bounds found id sources := by
  have hunit := Array.getElem?_eq_getElem hid
  obtain ⟨sources, hsources, hcollects⟩ := Checked.exists_foldlM
    (P := Collects g bounds found id)
    (fun dep hdep _ hbefore => exists_addDep_collects hg hfound hunit hdep hbefore) collects_empty
  refine ⟨sources, ?_, hcollects⟩
  rw [combine, Graph.unit_eq_ok.mpr hunit, Checked.ok_bind, hsources, Checked.ok_bind,
    hg.unfrozen hunit]
  rfl

/-- Whatever lies on its path, looking through a unit does not fail. -/
theorem exists_resolve_traced (depth : Nat) (path : List UnitId) (hdata : g.IsData id) :
    ∃ found', resolve g bounds depth path found id = .ok found' ∧ Visits path found found' ∧
      Traced g bounds ahead behind found' := by
  induction depth generalizing path found id with
  | zero => exact ⟨found, rfl, .refl path found, hfound⟩
  | succ depth ih =>
      unfold resolve
      split
      · exact ⟨found, rfl, .refl path found, hfound⟩
      next hfresh =>
        rw [not_or, Bool.not_eq_true, Option.isSome_eq_false_iff, Option.isNone_iff_eq_none]
          at hfresh
        obtain ⟨hnone, hout⟩ := hfresh
        have hisData := hdata
        obtain ⟨unit, hunit, -⟩ := hisData
        have hvisit : ∀ source ∈ unit.deps.keys.reverse, ∀ before : LookThrough,
            (Visits (id :: path) found before ∧ Traced g bounds ahead behind before) →
            ∃ after, (do
              if (← g.unit source).isData then resolve g bounds depth (id :: path) before source
              else return before) = .ok after ∧
                Visits (id :: path) found after ∧ Traced g bounds ahead behind after := by
          intro source hsource before hbefore
          obtain ⟨bundle, hbundle⟩ := Table.mem_keys_iff.mp (List.mem_reverse.mp hsource)
          obtain ⟨producer, hproducer⟩ := hg.toWellFormed.exists_source hunit
            (Table.mem_entries_of_get?_eq_some hbundle)
          rw [Graph.unit_eq_ok.mpr hproducer, Checked.ok_bind]
          split
          next hproduces =>
            obtain ⟨after, hafter, hvisits, htraced⟩ := ih hbefore.2 (id :: path)
              ⟨producer, hproducer, by simpa [ScheduleUnit.isData] using hproduces⟩
            exact ⟨after, hafter, hbefore.1.trans hvisits, htraced⟩
          next => exact ⟨before, rfl, hbefore⟩
        obtain ⟨inside, hinside, hvisits, htraced⟩ :=
          Checked.exists_foldlM hvisit ⟨.refl (id :: path) found, hfound⟩
        obtain ⟨sources, hsources, hcollects⟩ := exists_combine_collects hg htraced hdata.lt_size
        -- The unit is on its own path, so that nothing was found for it on the way.
        have hstill : inside.sources? id = none :=
          (hvisits.pending id List.mem_cons_self).trans hnone
        have hlt : id < inside.size := htraced.size ▸ hdata.lt_size
        refine ⟨_, ?_, ⟨hvisits.kept.trans (keeps_set hstill hlt), fun other hother => ?_⟩,
          htraced.set hg hdata hstill hsources hcollects⟩
        · rw [Graph.unit_eq_ok.mpr hunit, Checked.ok_bind, hinside, Checked.ok_bind, hsources,
            Checked.ok_bind]
          rfl
        · have hne : other ≠ id := fun heq => hout (heq ▸ hother)
          rw [sources?_set hlt, if_neg hne]
          exact hvisits.pending other (List.mem_cons_of_mem id hother)

theorem exists_sourcesOf_traced (hdata : g.IsData id) :
    ∃ sources found', sourcesOf g bounds found id = .ok (sources, found') ∧ Keeps found found' ∧
      Traced g bounds ahead behind found' ∧
      ∀ entry ∈ sources.entries, found'.sources? id = some sources := by
  obtain ⟨found', hresolve, hvisits, htraced⟩ :=
    exists_resolve_traced hg hfound (g.units.size + 1) [] hdata
  refine ⟨(found'.sources? id).getD .empty, found', by rw [sourcesOf, hresolve]; rfl, hvisits.kept,
    htraced, fun entry hentry => ?_⟩
  cases hsources : found'.sources? id with
  | none =>
      rw [hsources] at hentry
      exact absurd hentry List.not_mem_nil
  | some sources => rfl

end

end LookThrough

end SlotScheduling
