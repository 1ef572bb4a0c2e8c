import SlotScheduling.Proofs.Graph.Changes

/-!
# Units that do not dangle

Spreading over dependencies that a unit does not dangle changes no slot, and
reaches whatever a control unit directly depends on.
-/

namespace SlotScheduling.Graph

variable {g g' : Graph} {id source : UnitId} {block : BlockId}

/-- The unit exists and does not dangle. -/
def IsNeeded (g : Graph) (id : UnitId) : Prop :=
  ∃ unit, g.units[id]? = some unit ∧ unit.dangling = false

instance (g : Graph) (id : UnitId) : Decidable (g.IsNeeded id) :=
  inferInstanceAs (Decidable (∃ unit ∈ g.units[id]?, unit.dangling = false))

/-- All that differs is that some units do not dangle any more. -/
structure Undangles (g g' : Graph) : Prop where
  frame : g'.frame = g.frame
  slots : ∀ id, g'.slot? id = g.slot? id
  needed : ∀ {id}, g.IsNeeded id → g'.IsNeeded id
  classes : g'.class? = g.class?

theorem Undangles.refl (g : Graph) : Undangles g g := ⟨rfl, fun _ => rfl, fun h => h, rfl⟩

theorem Undangles.trans {g'' : Graph} (h : Undangles g g') (h' : Undangles g' g'') :
    Undangles g g'' where
  frame := h'.frame.trans h.frame
  slots := fun id => (h'.slots id).trans (h.slots id)
  needed := fun hneeded => h'.needed (h.needed hneeded)
  classes := h'.classes.trans h.classes

theorem slot?_changeUnit {change : ScheduleUnit → ScheduleUnit}
    (h : g.changeUnit id change = .ok g') (hchange : ∀ unit, (change unit).slot = unit.slot)
    (other : UnitId) : g'.slot? other = g.slot? other := by
  simp only [slot?, getElem?_changeUnit h]
  split
  · cases g.units[other]? with
    | none => rfl
    | some unit => exact hchange unit
  · rfl

theorem undangles_setDangling (h : g.setDangling id false = .ok g') :
    Undangles g g' ∧ g'.IsNeeded id := by
  have hget := getElem?_changeUnit h
  obtain ⟨hlt, _⟩ := changeUnit_eq_ok.mp h
  refine ⟨⟨frame_changeUnit h fun _ => rfl, slot?_changeUnit h fun _ => rfl, ?_,
    class?_changeUnit h fun _ _ => rfl⟩, ?_⟩
  · rintro other ⟨unit, hunit, hneeded⟩
    rw [IsNeeded, hget]
    by_cases heq : id = other
    · simp [heq, hunit]
    · simp [heq, hunit, hneeded]
  · rw [IsNeeded, hget, if_pos rfl, Array.getElem?_eq_getElem hlt]
    exact ⟨_, rfl, rfl⟩

theorem undangleSources_sound {work work' sources : List UnitId}
    (h : undangleSources block g work sources = .ok (g', work')) :
    Undangles g g' ∧ ∀ source ∈ sources,
      (∀ {unit}, g.units[source]? = some unit → unit.block = block) → g'.IsNeeded source := by
  refine Checked.foldlM_forall (P := fun after : Graph × List UnitId => Undangles g after.1)
    (Q := fun source after =>
      (∀ {unit}, g.units[source]? = some unit → unit.block = block) → after.1.IsNeeded source)
    ?_ (Undangles.refl g) h
  rintro source _ ⟨before, work⟩ ⟨after, work'⟩ hbefore hround
  obtain ⟨unit, hunit, hround⟩ := Checked.bind_eq_ok.mp hround
  rw [unit_eq_ok] at hunit
  have hblock : (∀ {unit}, g.units[source]? = some unit → unit.block = block) →
      unit.block = block := by
    intro hall
    obtain ⟨unit', hunit', hagree⟩ := exists_of_frame_eq hbefore.frame hunit
    rw [hagree.block]
    exact hall hunit'
  split at hround
  next hdangling =>
    obtain ⟨changed, hchanged, hround⟩ := Checked.bind_eq_ok.mp hround
    obtain ⟨hstep, hneeded⟩ := undangles_setDangling hchanged
    cases hround
    exact ⟨hbefore.trans hstep, fun _ => hneeded,
      fun other hother hall => hstep.needed (hother hall)⟩
  next hdangling =>
    cases hround
    refine ⟨hbefore, fun hall => ⟨unit, hunit, ?_⟩, fun other hother => hother⟩
    have hflag : ¬unit.dangling = true := by
      intro hflag
      simp [hflag, hblock hall] at hdangling
    exact Bool.eq_false_iff.mpr hflag

theorem undangles_undangleFrom {rounds : Nat} {work : List UnitId}
    (h : undangleFrom block rounds g work = .ok g') : Undangles g g' := by
  induction rounds generalizing g work with
  | zero =>
      cases h
      exact Undangles.refl _
  | succ rounds ih =>
      cases work with
      | nil =>
          cases h
          exact Undangles.refl _
      | cons id work =>
          obtain ⟨unit, _, h⟩ := Checked.bind_eq_ok.mp h
          obtain ⟨⟨middle, work'⟩, hmiddle, h⟩ := Checked.bind_eq_ok.mp h
          exact (undangleSources_sound hmiddle).1.trans (ih h)

theorem undangle_sound {root : UnitId} (h : g.undangle root = .ok g') :
    Undangles g g' ∧ ∀ {unit}, g.units[root]? = some unit → ∀ source ∈ unit.deps.keys,
      (∀ {producer}, g.units[source]? = some producer → producer.block = unit.block) →
        g'.IsNeeded source := by
  obtain ⟨unit, hunit, h⟩ := Checked.bind_eq_ok.mp h
  obtain ⟨marked, hmarked, h⟩ := Checked.bind_eq_ok.mp h
  rw [unit_eq_ok] at hunit
  obtain ⟨hmark, hroot⟩ := undangles_setDangling hmarked
  obtain ⟨unit', hunit', h⟩ := Checked.bind_eq_ok.mp h
  obtain ⟨⟨spread, work⟩, hspread, h⟩ := Checked.bind_eq_ok.mp h
  rw [unit_eq_ok] at hunit'
  obtain ⟨hsources, hneeded⟩ := undangleSources_sound hspread
  have hrest := undangles_undangleFrom h
  refine ⟨hmark.trans (hsources.trans hrest), fun {unit''} hunit'' source hsource hblock => ?_⟩
  obtain rfl := Option.some.inj (hunit.symm.trans hunit'')
  obtain ⟨old, hold, hagree⟩ := exists_of_frame_eq hmark.frame hunit'
  obtain rfl := Option.some.inj (hunit.symm.trans hold)
  refine hrest.needed (hneeded source (hagree.deps ▸ hsource) fun {producer} hproducer => ?_)
  obtain ⟨old', hold', hagree'⟩ := exists_of_frame_eq hmark.frame hproducer
  rw [hagree'.block]
  exact hblock hold'

theorem undangleAll_sound {roots : List UnitId} (h : roots.foldlM undangle g = .ok g') :
    Undangles g g' ∧ ∀ root ∈ roots, ∀ {unit}, g.units[root]? = some unit →
      ∀ source ∈ unit.deps.keys,
        (∀ {producer}, g.units[source]? = some producer → producer.block = unit.block) →
          g'.IsNeeded source := by
  refine Checked.foldlM_forall (P := Undangles g)
    (Q := fun root g' => ∀ {unit}, g.units[root]? = some unit → ∀ source ∈ unit.deps.keys,
      (∀ {producer}, g.units[source]? = some producer → producer.block = unit.block) →
        g'.IsNeeded source) ?_ (Undangles.refl g) h
  intro root _ before after hbefore hround
  obtain ⟨hstep, hneeded⟩ := undangle_sound hround
  refine ⟨hbefore.trans hstep, fun {unit} hunit source hsource hblock => ?_, ?_⟩
  · obtain ⟨unit', hunit', hagree⟩ := exists_of_frame_eq hbefore.frame.symm hunit
    refine hneeded hunit' source (hagree.deps ▸ hsource) fun {producer} hproducer => ?_
    obtain ⟨producer', hproducer', hagree'⟩ := exists_of_frame_eq hbefore.frame hproducer
    rw [hagree'.block, hblock hproducer']
    exact hagree.block
  · intro other hother unit hunit source hsource hblock
    exact hstep.needed (hother hunit source hsource hblock)

theorem isNeeded_changeUnit {change : ScheduleUnit → ScheduleUnit}
    (h : g.changeUnit id change = .ok g')
    (hchange : ∀ unit, (change unit).dangling = unit.dangling) {other : UnitId} :
    g'.IsNeeded other ↔ g.IsNeeded other :=
  exists_changeUnit_iff h fun unit => by rw [hchange]

theorem isNeeded_placeAll {placements : List (UnitId × Nat)}
    (h : g.placeAll placements = .ok g') : g'.IsNeeded id ↔ g.IsNeeded id := by
  refine Checked.foldlM_induction (P := fun g' => g'.IsNeeded id ↔ g.IsNeeded id)
    (fun placement _ before after hbefore hround => ?_) Iff.rfl h
  have hstep : after.IsNeeded id ↔ before.IsNeeded id := isNeeded_changeUnit hround fun _ => rfl
  exact hstep.trans hbefore

end SlotScheduling.Graph
