import SlotScheduling.Proofs.Freezing.Frozen

/-!
# Absorbed graphs

Frozen units come to stand behind the units of a graph, in their order, and their
dependencies come along.  The units that were there stay as they are.
-/

namespace SlotScheduling.Graph

variable {g g' : Graph} {base id other : Nat} {anchor : Option UnitId}

/-! ## New positions -/

/-- The unit comes along, rather than being folded into the anchor. -/
def Moves (anchor : Option UnitId) (id : UnitId) : Prop := anchor = none ∨ id ≠ 0

theorem relocate_none (base id : Nat) : relocate base none id = id + base := rfl

theorem relocate_some {base id : Nat} (anchor : UnitId) (hne : id ≠ 0) :
    relocate base (some anchor) id = id + base - 1 :=
  if_neg hne

theorem ne_zero_of_moves_some {unit : UnitId} (h : Moves (some unit) id) : id ≠ 0 :=
  h.resolve_left (by simp)

theorem base_le_relocate (h : Moves anchor id) : base ≤ relocate base anchor id := by
  cases anchor with
  | none =>
      rw [relocate_none]
      exact Nat.le_add_left base id
  | some unit =>
      have hne := ne_zero_of_moves_some h
      rw [relocate_some unit hne]
      omega

theorem relocate_lt (h : Moves anchor id) (hlt : id < other) :
    relocate base anchor id < relocate base anchor other := by
  cases anchor with
  | none =>
      rw [relocate_none, relocate_none]
      exact Nat.add_lt_add_right hlt base
  | some unit =>
      have hne := ne_zero_of_moves_some h
      have hle : 1 ≤ id + base := by omega
      rw [relocate_some unit hne, relocate_some unit (Nat.ne_of_gt (Nat.zero_lt_of_lt hlt))]
      exact Nat.sub_lt_sub_right hle (Nat.add_lt_add_right hlt base)

theorem relocate_le (h : Moves anchor id) (hle : id ≤ other) :
    relocate base anchor id ≤ relocate base anchor other := by
  rcases Nat.lt_or_eq_of_le hle with hlt | rfl
  · exact Nat.le_of_lt (relocate_lt h hlt)
  · exact Nat.le_refl _

theorem exists_relocate (anchor : Option UnitId) (h : base ≤ id) :
    ∃ old, Moves anchor old ∧ relocate base anchor old = id := by
  cases anchor with
  | none => exact ⟨id - base, Or.inl rfl, Nat.sub_add_cancel h⟩
  | some unit =>
      have hne : id - base + 1 ≠ 0 := Nat.succ_ne_zero _
      refine ⟨id - base + 1, Or.inr hne, ?_⟩
      rw [relocate_some unit hne, Nat.add_right_comm, Nat.add_sub_cancel,
        Nat.sub_add_cancel h]

theorem relocate_injective (hanchor : ∀ unit ∈ anchor, unit < base) :
    Function.Injective (relocate base anchor) := by
  intro id other h
  have hfolded : ∀ {id other : Nat}, id = 0 → other ≠ 0 →
      relocate base anchor id = relocate base anchor other → Moves anchor id := by
    rintro id other rfl hother h
    cases anchor with
    | none => exact Or.inl rfl
    | some unit =>
        have hle : base ≤ relocate base (some unit) other := base_le_relocate (Or.inr hother)
        rw [← h] at hle
        exact absurd (hanchor unit rfl) (Nat.not_lt.mpr hle)
  rcases Nat.lt_trichotomy id other with hlt | heq | hlt
  · by_cases hid : id = 0
    · have hmoves := hfolded hid (Nat.ne_of_gt (Nat.zero_lt_of_lt hlt)) h
      exact absurd h (Nat.ne_of_lt (relocate_lt hmoves hlt))
    · exact absurd h (Nat.ne_of_lt (relocate_lt (Or.inr hid) hlt))
  · exact heq
  · by_cases hother : other = 0
    · have hmoves := hfolded hother (Nat.ne_of_gt (Nat.zero_lt_of_lt hlt)) h.symm
      exact absurd h (Nat.ne_of_gt (relocate_lt hmoves hlt))
    · exact absurd h (Nat.ne_of_gt (relocate_lt (Or.inr hother) hlt))

/-! ## Renamed units -/

section

variable {rename : UnitId → UnitId} {unit : ScheduleUnit}

theorem dep?_renameUnit (hrename : Function.Injective rename) (source : UnitId) :
    (renameUnit rename unit).dep? (rename source) = unit.dep? source := by
  have hkeys : ((fun dep : UnitId × EdgeBundle => decide (dep.1 = rename source)) ∘
      fun dep : UnitId × EdgeBundle => (rename dep.1, dep.2)) =
        fun dep => decide (dep.1 = source) := by
    funext dep
    simp [hrename.eq_iff]
  simp only [renameUnit, ScheduleUnit.dep?, Table.get?, List.find?_map, Option.map_map, hkeys]
  rfl

end

/-! ## Adopted units -/

theorem foldl_adopt (g : Graph) (units : List ScheduleUnit) :
    (units.foldl adopt g).units = g.units ++ units.toArray ∧
      { units.foldl adopt g with
        units := g.units, controlUnits := g.controlUnits, dataUnits := g.dataUnits } = g := by
  induction units generalizing g with
  | nil => simp
  | cons unit rest ih =>
      obtain ⟨hunits, hrest⟩ := ih (g.adopt unit)
      refine ⟨?_, ?_⟩
      · rw [List.foldl_cons, hunits, adopt, List.toArray_cons]
        simp
      · have hrest := congrArg (fun adopted : Graph =>
          { adopted with
            units := g.units, controlUnits := g.controlUnits, dataUnits := g.dataUnits }) hrest
        exact hrest

theorem listed_foldl_adopt {units : List ScheduleUnit} (hg : g.Listed)
    (hids : ∀ {index : Nat} {unit : ScheduleUnit}, units[index]? = some unit →
      unit.id = g.units.size + index) : (units.foldl adopt g).Listed := by
  induction units generalizing g with
  | nil => exact hg
  | cons unit rest ih =>
      have hfirst : unit.id = g.units.size + 0 := hids rfl
      refine ih (hg.adopt hfirst) fun {index unit'} hunit => ?_
      have hid : unit'.id = g.units.size + (index + 1) := hids hunit
      rw [hid, adopt, Array.size_push, Nat.add_assoc, Nat.add_comm 1 index]

/-- The units that come along, at their new positions. -/
def movedUnits (base : Nat) (anchor : Option UnitId) (units : List ScheduleUnit) :
    List ScheduleUnit :=
  (if anchor.isSome then units.drop 1 else units).map (renameUnit (relocate base anchor))

theorem getElem?_movedUnits (units : List ScheduleUnit) (h : Moves anchor id) :
    (movedUnits base anchor units)[relocate base anchor id - base]? =
      units[id]?.map (renameUnit (relocate base anchor)) := by
  unfold movedUnits
  rw [List.getElem?_map]
  congr 1
  cases anchor with
  | none => rw [relocate_none, Nat.add_sub_cancel, Option.isSome_none, if_neg Bool.false_ne_true]
  | some unit =>
      have hne := ne_zero_of_moves_some h
      have hindex : 1 + (id + base - 1 - base) = id := by omega
      rw [relocate_some unit hne, Option.isSome_some, if_pos rfl, List.getElem?_drop, hindex]

theorem length_movedUnits {units : List ScheduleUnit} (h : Moves anchor units.length) :
    (movedUnits base anchor units).length = relocate base anchor units.length - base := by
  unfold movedUnits
  rw [List.length_map]
  cases anchor with
  | none => rw [relocate_none, Nat.add_sub_cancel, Option.isSome_none, if_neg Bool.false_ne_true]
  | some unit =>
      rw [relocate_some unit (ne_zero_of_moves_some h), Option.isSome_some, if_pos rfl,
        List.length_drop]
      omega

theorem size_foldl_adopt {units : List ScheduleUnit} (h : Moves anchor units.length) :
    ((movedUnits g.units.size anchor units).foldl adopt g).units.size =
      relocate g.units.size anchor units.length := by
  rw [(foldl_adopt g _).1, Array.size_append]
  show g.units.size + (movedUnits g.units.size anchor units).length = _
  rw [length_movedUnits h, Nat.add_sub_of_le (base_le_relocate h)]

/-! ## Registered uses -/

/-- The graphs differ in nothing but the uses of units. -/
structure SameButUses (g g' : Graph) : Prop where
  bare : g'.bare = g.bare
  edges : g'.bundle? = g.bundle?

theorem changeUnits_addUse {sources : List UnitId}
    (h : g.changeUnits sources (·.addUse id) = .ok g') : SameButUses g g' ∧
      ∀ {user source}, g'.IsUsedBy source user ↔
        (source ∈ sources ∧ user = id) ∨ g.IsUsedBy source user := by
  induction sources generalizing g with
  | nil =>
      obtain rfl := Checked.pure_eq_ok.mp h
      exact ⟨⟨rfl, rfl⟩, by simp⟩
  | cons first rest ih =>
      unfold changeUnits at h
      rw [List.foldlM_cons] at h
      obtain ⟨middle, hfirst, h⟩ := Checked.bind_eq_ok.mp h
      obtain ⟨hlt, _⟩ := changeUnit_eq_ok.mp hfirst
      have hfound := Array.getElem?_eq_getElem hlt
      obtain ⟨⟨hbare, hedges⟩, huses⟩ := ih h
      refine ⟨⟨hbare.trans (bare_changeUnit hfirst fun _ => rfl),
        hedges.trans (bundle?_changeUnit hfirst fun _ => rfl)⟩, fun {user source} => ?_⟩
      rw [huses, isUsedBy_addUse hfound hfirst, List.mem_cons]
      tauto

/-- Units whose uses are registered depend on what they are a use of, and the other way round. -/
theorem registerUses_eq_ok (h : g.registerUses base = .ok g')
    (hnew : ∀ {user source}, g.IsUsedBy source user → g.DependsOn user source)
    (hold : ∀ {user source}, user < base → g.DependsOn user source → g.IsUsedBy source user) :
    SameButUses g g' ∧ ∀ {user source}, g'.DependsOn user source ↔ g'.IsUsedBy source user := by
  have hfold := Checked.foldlM_forall
    (P := fun g' => SameButUses g g' ∧
      (∀ {user source}, g'.IsUsedBy source user → g.DependsOn user source) ∧
      ∀ {user source}, g.IsUsedBy source user → g'.IsUsedBy source user)
    (Q := fun id g' => ∀ {source}, g.DependsOn id source → g'.IsUsedBy source id)
    (fun id _ before after hbefore hround => ?_) ⟨⟨rfl, rfl⟩, hnew, fun h => h⟩ h
  · obtain ⟨⟨hsame, huses, hkept⟩, hall⟩ := hfold
    refine ⟨hsame, fun {user source} => ?_⟩
    have hdepends : g'.DependsOn user source ↔ g.DependsOn user source := by
      rw [dependsOn_iff_bundle?, dependsOn_iff_bundle?, hsame.edges]
    rw [hdepends]
    refine ⟨fun hdepends => ?_, huses⟩
    by_cases hlt : user < base
    · exact hkept (hold hlt hdepends)
    · have hle := Nat.not_lt.mp hlt
      obtain ⟨unit, hunit, _⟩ := id hdepends
      have hsize := lt_size_of_getElem? hunit
      refine hall user (List.mem_range'_1.mpr ⟨hle, ?_⟩) hdepends
      rwa [Nat.add_sub_of_le (Nat.le_trans hle (Nat.le_of_lt hsize))]
  · obtain ⟨hsame, huses, hkept⟩ := hbefore
    obtain ⟨unit, hunit, hround⟩ := Checked.bind_eq_ok.mp hround
    rw [unit_eq_ok] at hunit
    obtain ⟨hchanged, hadded⟩ := changeUnits_addUse hround
    have hdepends : ∀ {source}, g.DependsOn id source ↔ source ∈ unit.deps.keys := by
      intro source
      rw [dependsOn_iff_bundle?, ← hsame.edges, ← dependsOn_iff_bundle?]
      exact ⟨fun ⟨unit', hunit', hmem⟩ => Option.some.inj (hunit'.symm.trans hunit) ▸ hmem,
        fun hmem => ⟨unit, hunit, hmem⟩⟩
    refine ⟨⟨⟨hchanged.bare.trans hsame.bare, hchanged.edges.trans hsame.edges⟩, ?_, ?_⟩, ?_, ?_⟩
    · intro user source huse
      rcases hadded.mp huse with ⟨hmem, rfl⟩ | huse
      · exact hdepends.mpr hmem
      · exact huses huse
    · exact fun huse => hadded.mpr (Or.inr (hkept huse))
    · exact fun hdep => hadded.mpr (Or.inl ⟨hdepends.mp hdep, rfl⟩)
    · exact fun other hother {source} hdep => hadded.mpr (Or.inr (hother hdep))

/-! ## Absorbed graphs -/

variable {sub : Graph} {done : Completed} {units : List ScheduleUnit} {unit : ScheduleUnit}

/-- The units of a graph that was frozen stand behind those of the first graph. -/
structure Absorbs (sub : Graph) (done : Completed) (anchor : Option UnitId) (g g' : Graph) : Prop
    extends WellFormed g' where
  agrees : AgreesBelow g.units.size g g'
  size : g'.units.size = relocate g.units.size anchor done.exit
  moved : ∀ {id unit}, Moves anchor id → id < done.exit → sub.units[id]? = some unit →
    g'.units[relocate g.units.size anchor id]?.map ScheduleUnit.bare =
      some { unit.frozen with id := relocate g.units.size anchor id }
  tied : ∀ {id : UnitId} {s t : Nat}, Moves anchor id ∨ s ≤ t → id < done.exit →
    id ≠ done.terminator → sub.slot? id = some s → sub.slot? done.terminator = some t →
    Tied g'.bundle? (relocate g.units.size anchor id)
      (relocate g.units.size anchor done.terminator) ((s : Int) - t)
  rest : g'.entryBlock = g.entryBlock ∧ g'.entrySlot = g.entrySlot ∧ g'.loopOp = g.loopOp ∧
    g'.exitRoot = g.exitRoot
  holders : g'.holders = (g.adoptTables sub anchor.isSome (relocate g.units.size anchor)).holders
  intervals : g'.intervals = g.intervals.insertAll sub.intervals.entries
  terminators : g'.terminators = g.terminators.insertAll
    (sub.terminators.entries.map fun entry => (entry.1, relocate g.units.size anchor entry.2))

/-- The frozen units of a graph, before they move. -/
structure FrozenUnits (sub : Graph) (done : Completed) (units : List ScheduleUnit) : Prop where
  length : units.length = done.exit
  bare : ∀ {id : UnitId}, id < done.exit →
    units[id]?.map ScheduleUnit.bare = sub.units[id]?.map ScheduleUnit.frozen
  uses : ∀ {id : UnitId} {unit : ScheduleUnit}, units[id]? = some unit → unit.uses = {}
  tied : ∀ {id : UnitId} {s t : Nat}, id < done.exit → id ≠ done.terminator →
    sub.slot? id = some s → sub.slot? done.terminator = some t →
    Tied (Completed.edgesOf units.toArray) id done.terminator ((s : Int) - t)

theorem frozenUnits_of_eq_ok (hsub : Complete sub done) (h : done.frozenUnits = .ok units) :
    FrozenUnits sub done units := by
  obtain ⟨hattached, htied⟩ := Completed.frozenUnits_eq_ok hsub h
  have hbare : units.map ScheduleUnit.bare = done.migrants.map ScheduleUnit.bare := by
    have hbare := hattached.bare
    simpa using hbare
  refine ⟨?_, fun {id} hid => ?_, fun {id unit} hunit => ?_, htied⟩
  · rw [← Completed.length_migrants hsub, ← List.length_map (f := ScheduleUnit.bare), hbare,
      List.length_map]
  · rw [← List.getElem?_map, hbare, List.getElem?_map, Completed.getElem?_migrants hsub hid,
      Option.map_map]
    rfl
  · have hunit : units.toArray[id]? = some unit := by simpa using hunit
    exact hattached.uses hunit

/-- Frozen units that were put behind the units of a graph, with their uses still missing. -/
structure Adopted (units : List ScheduleUnit) (anchor : Option UnitId) (g g' : Graph) : Prop where
  old : ∀ {id}, id < g.units.size → g'.units[id]? = g.units[id]?
  new : ∀ {id}, Moves anchor id → g'.units[relocate g.units.size anchor id]? =
    units[id]?.map (renameUnit (relocate g.units.size anchor))

theorem adopted_foldl_adopt (units : List ScheduleUnit) (anchor : Option UnitId) (g : Graph) :
    Adopted units anchor g ((movedUnits g.units.size anchor units).foldl adopt g) := by
  obtain ⟨hunits, _⟩ := foldl_adopt g (movedUnits g.units.size anchor units)
  refine ⟨fun {id} hid => ?_, fun {id} hmoves => ?_⟩
  · rw [hunits, Array.getElem?_append, if_pos hid]
  · rw [hunits, Array.getElem?_append, if_neg (Nat.not_lt.mpr (base_le_relocate hmoves)),
      List.getElem?_toArray, getElem?_movedUnits units hmoves]

theorem Adopted.bundle?_new (h : Adopted units anchor g g')
    (hanchor : ∀ unit ∈ anchor, unit < g.units.size) (hid : Moves anchor id) (source : UnitId) :
    g'.bundle? (relocate g.units.size anchor id) (relocate g.units.size anchor source) =
      Completed.edgesOf units.toArray id source := by
  rw [bundle?, h.new hid, Completed.edgesOf, List.getElem?_toArray]
  cases units[id]? with
  | none => rfl
  | some unit => exact dep?_renameUnit (relocate_injective hanchor) source

/-- Frozen units that were renamed carry their new positions. -/
theorem FrozenUnits.positions (h : FrozenUnits sub done units) (hsub : sub.Listed) {index : Nat}
    (hunit : (movedUnits base anchor units)[index]? = some unit) : unit.id = base + index := by
  obtain ⟨id, hmoves, heq⟩ := exists_relocate anchor (Nat.le_add_right base index)
  have hindex : relocate base anchor id - base = index := by
    rw [heq, Nat.add_sub_cancel_left]
  rw [← hindex, getElem?_movedUnits units hmoves] at hunit
  obtain ⟨old, hold, rfl⟩ := Option.map_eq_some_iff.mp hunit
  have hlt : id < done.exit := h.length ▸ (List.getElem?_eq_some_iff.mp hold).1
  have hbare := h.bare hlt
  rw [hold, Option.map_some] at hbare
  obtain ⟨frozen, hfrozen, hsame⟩ := Option.map_eq_some_iff.mp hbare.symm
  have hid : frozen.id = old.id := by
    have hid := congrArg ScheduleUnit.id hsame
    exact hid
  rw [← heq, ← hsub.positions hfrozen, hid]
  rfl

theorem FrozenUnits.listed (h : FrozenUnits sub done units) (hsub : sub.Listed) (hg : g.Listed) :
    ((movedUnits g.units.size anchor units).foldl adopt g).Listed :=
  listed_foldl_adopt hg fun hunit => h.positions hsub hunit

/-- Every unit of the grown graph was there or comes from the frozen units. -/
theorem Adopted.linked (h : Adopted units anchor g g') (hunits : FrozenUnits sub done units)
    (hg : g.WellFormed) {user source : UnitId} :
    (g'.IsUsedBy source user → g'.DependsOn user source) ∧
      (user < g.units.size → g'.DependsOn user source → g'.IsUsedBy source user) := by
  have hused : source < g.units.size → (g'.IsUsedBy source user ↔ g.IsUsedBy source user) := by
    intro hsource
    rw [IsUsedBy, IsUsedBy, h.old hsource]
  have hdepends : user < g.units.size → (g'.DependsOn user source ↔ g.DependsOn user source) := by
    intro huser
    rw [DependsOn, DependsOn, h.old huser]
  constructor
  · intro huse
    by_cases hsource : source < g.units.size
    · have hdepends' := hg.linked.mpr ((hused hsource).mp huse)
      obtain ⟨consumer, hconsumer, _⟩ := id hdepends'
      exact (hdepends (lt_size_of_getElem? hconsumer)).mpr hdepends'
    · obtain ⟨id, hmoves, rfl⟩ := exists_relocate anchor (Nat.not_lt.mp hsource)
      obtain ⟨unit, hunit, hmem⟩ := huse
      rw [h.new hmoves] at hunit
      obtain ⟨old, hold, rfl⟩ := Option.map_eq_some_iff.mp hunit
      have hmem : user ∈ old.uses := hmem
      rw [hunits.uses hold] at hmem
      exact absurd hmem List.not_mem_nil
  · intro huser hdep
    have huse := hg.linked.mp ((hdepends huser).mp hdep)
    obtain ⟨producer, hproducer, _⟩ := id huse
    exact (hused (lt_size_of_getElem? hproducer)).mpr huse

/-- What a unit looks like behind the units of another graph. -/
theorem Adopted.moved (h : Adopted units anchor g g') (hunits : FrozenUnits sub done units)
    (hsub : sub.Listed) (hmoves : Moves anchor id) (hid : id < done.exit)
    (hunit : sub.units[id]? = some unit) :
    g'.units[relocate g.units.size anchor id]?.map ScheduleUnit.bare =
      some { unit.frozen with id := relocate g.units.size anchor id } := by
  have hbare := hunits.bare hid
  rw [hunit, Option.map_some] at hbare
  obtain ⟨old, hold, hsame⟩ := Option.map_eq_some_iff.mp hbare
  have hrenamed : (renameUnit (relocate g.units.size anchor) old).bare =
      { old.bare with id := relocate g.units.size anchor old.bare.id } := rfl
  have hposition : unit.frozen.id = id := by
    have hposition := hsub.positions hunit
    exact hposition
  rw [h.new hmoves, hold, Option.map_some, Option.map_some, hrenamed, hsame, hposition]

theorem Complete.moves_terminator (h : Complete sub done) (hid : id < done.exit)
    (hne : id ≠ done.terminator) : Moves anchor done.terminator := by
  rw [h.last] at hid
  have hlt : id < done.terminator := Nat.lt_of_le_of_ne (Nat.le_of_lt_succ hid) hne
  exact Or.inr (Nat.ne_of_gt (Nat.zero_lt_of_lt hlt))

/-- Even a folded entry is tied to the terminator, unless it issues after it. -/
theorem Adopted.tied (h : Adopted units anchor g g') (hdone : Complete sub done)
    (hunits : FrozenUnits sub done units) (hanchor : ∀ unit ∈ anchor, unit < g.units.size)
    {s t : Nat} (hmoves : Moves anchor id ∨ s ≤ t) (hid : id < done.exit)
    (hne : id ≠ done.terminator) (hs : sub.slot? id = some s)
    (ht : sub.slot? done.terminator = some t) :
    Tied g'.bundle? (relocate g.units.size anchor id)
      (relocate g.units.size anchor done.terminator) ((s : Int) - t) := by
  have hlast : Moves anchor done.terminator := hdone.moves_terminator hid hne
  obtain ⟨bundle, distance, hedge, hcases⟩ := hunits.tied hid hne hs ht
  refine ⟨bundle, distance, hedge, ?_⟩
  rcases hcases with ⟨hbundle, hapart, hpos⟩ | ⟨hbundle, hapart⟩
  · have hmoves : Moves anchor id := hmoves.resolve_right (by omega)
    exact Or.inl ⟨(h.bundle?_new hanchor hmoves _).trans hbundle, hapart, hpos⟩
  · exact Or.inr ⟨(h.bundle?_new hanchor hlast _).trans hbundle, hapart⟩

/-- What comes along depends on nothing that was there, unless the entry is folded. -/
theorem Adopted.bundle?_old (h : Adopted units none g g') (id : UnitId) {last : UnitId}
    (hlast : last < g.units.size) : g'.bundle? (relocate g.units.size none id) last = none := by
  rw [bundle?, h.new (Or.inl rfl)]
  cases units[id]? with
  | none => rfl
  | some unit =>
      have hnone : (renameUnit (relocate g.units.size none) unit).dep? last = none := by
        refine Option.eq_none_iff_forall_ne_some.mpr fun bundle hbundle => ?_
        obtain ⟨dep, _, heq⟩ := List.mem_map.mp (Table.mem_entries_of_get?_eq_some hbundle)
        have hsame : relocate g.units.size none dep.1 = last := congrArg Prod.fst heq
        have hle : g.units.size ≤ relocate g.units.size none dep.1 := base_le_relocate (Or.inl rfl)
        exact absurd hlast (Nat.not_lt.mpr (hsame ▸ hle))
      exact hnone

/-- A graph is absorbed by another one as the units that it was frozen to. -/
theorem absorb_eq_ok (hg : g.WellFormed) (hsub : sub.Listed) (hdone : Complete sub done)
    (hanchor : ∀ unit ∈ anchor, unit < g.units.size) (h : g.absorb done anchor = .ok g') :
    Absorbs sub done anchor g g' ∧ (anchor = none → ∀ {id last}, last < g.units.size →
      g'.bundle? (relocate g.units.size none id) last = none) := by
  obtain ⟨units, hunits, h⟩ := Checked.bind_eq_ok.mp h
  obtain ⟨registered, hregister, h⟩ := Checked.bind_eq_ok.mp h
  obtain rfl := Checked.pure_eq_ok.mp h
  have hfrozen := frozenUnits_of_eq_ok hdone hunits
  have hregister : Graph.registerUses
      ((movedUnits g.units.size anchor units).foldl adopt g) g.units.size = .ok registered :=
    hregister
  obtain ⟨_, hrest⟩ := foldl_adopt g (movedUnits g.units.size anchor units)
  have hadopted := adopted_foldl_adopt units anchor g
  have hmoves : Moves anchor done.exit := Or.inr (hdone.last ▸ Nat.succ_ne_zero _)
  have hsize := size_foldl_adopt (g := g) (hfrozen.length ▸ hmoves)
  rw [hfrozen.length] at hsize
  have hlisted : ((movedUnits g.units.size anchor units).foldl adopt g).Listed :=
    hfrozen.listed hsub hg.toListed
  generalize (movedUnits g.units.size anchor units).foldl adopt g = grown at *
  obtain ⟨hsame, hlinked⟩ := registerUses_eq_ok hregister
    (hadopted.linked hfrozen hg).1 (hadopted.linked hfrozen hg).2
  have hlisted' := hlisted.of_bare_eq hsame.bare
  have hpart : ∀ {α : Type} (part : Graph → α),
      (∀ (g : Graph) units control data, part { g with
        units := units, controlUnits := control, dataUnits := data } = part g) →
      part registered = part g := by
    intro α part hpart
    have hregistered := congrArg part hsame.bare
    have hgrown := congrArg part hrest
    rw [hpart] at hgrown
    exact ((hpart registered _ _ _).symm.trans (hregistered.trans (hpart grown _ _ _))).trans hgrown
  rw [hdone.graph]
  refine ⟨?_, fun hnone {id last} hlast => ?_⟩
  swap
  · subst hnone
    have hedges := congrFun (congrFun hsame.edges (relocate g.units.size none id)) last
    exact Eq.trans hedges (hadopted.bundle?_old id hlast)
  refine ⟨⟨⟨hlisted'.positions, hlisted'.control, hlisted'.data, hlisted'.controlNodup,
    hlisted'.dataNodup⟩, hlinked⟩, ⟨fun {id} hid => ?_, fun {target} htarget => ?_⟩, ?_,
    fun {id unit} hmoves hid hunit => ?_, fun {id s t} hmoves hid hne hs ht => ?_, ?_, ?_, ?_, ?_⟩
  · exact (getElem?_of_bare_eq hsame.bare id).trans (by rw [hadopted.old hid])
  · have hedges := congrFun hsame.edges target
    refine Eq.trans hedges ?_
    funext source
    rw [bundle?, bundle?, hadopted.old htarget]
  · exact (size_eq_of_bare_eq hsame.bare).trans hsize
  · refine Eq.trans (getElem?_of_bare_eq hsame.bare _) ?_
    exact hadopted.moved hfrozen hsub hmoves hid hunit
  · have htied := hadopted.tied hdone hfrozen hanchor hmoves hid hne hs ht
    rw [← hsame.edges] at htied
    exact htied
  · exact ⟨hpart (·.entryBlock) fun _ _ _ _ => rfl, hpart (·.entrySlot) fun _ _ _ _ => rfl,
      hpart (·.loopOp) fun _ _ _ _ => rfl, hpart (·.exitRoot) fun _ _ _ _ => rfl⟩
  · have hholders := hpart (·.holders) fun _ _ _ _ => rfl
    simp only [adoptTables, hholders]
  · have hintervals := hpart (·.intervals) fun _ _ _ _ => rfl
    simp only [adoptTables, hintervals]
  · have hterminators := hpart (·.terminators) fun _ _ _ _ => rfl
    simp only [adoptTables, hterminators]

end SlotScheduling.Graph
