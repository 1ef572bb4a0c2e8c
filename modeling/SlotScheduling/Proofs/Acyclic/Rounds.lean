import SlotScheduling.Proofs.Acyclic.Settled

/-!
# The rounds of the control path

Where no unit waits for itself, a round of the control path places its units at the lowest slots
that respect the dependencies and the order that is asked for, as long as these are words.  A first
round asks for no order; a second one asks for the order of the first round where units share
function units.
-/

namespace SlotScheduling

theorem rel_or_rel_of_pairwise {α : Type} {R : α → α → Prop} {list : List α} {a b : α}
    (h : list.Pairwise R) (ha : a ∈ list) (hb : b ∈ list) (hne : a ≠ b) : R a b ∨ R b a := by
  have hsymm : Std.Symm fun a b => R a b ∨ R b a := ⟨fun _ _ => Or.symm⟩
  exact (h.imp Or.inl : list.Pairwise fun a b => R a b ∨ R b a).forall ha hb hne

namespace Graph

variable {g h : Graph} {bounds : ControlBounds} {orders : UnitId → UnitId → Prop}
  {block : BlockId} {entrySlot : Nat} {slots first : UnitId → Int}
  {id exit control source user : UnitId} {bundle : EdgeBundle} {offset span : Int}

/-! ## Small numbers -/

/-- Whatever is seen from the control path issues no later than some control unit. -/
theorem Respects.exists_control (h : g.Respects orders slots) (hseen : g.IsSeen id) :
    ∃ user, g.IsControl user ∧ slots id ≤ slots user := by
  have hdepends : ∀ {source user}, g.DependsOn user source → slots source ≤ slots user := by
    intro source user hdepends
    obtain ⟨bundle, hbundle⟩ := dependsOn_iff_bundle?.mp hdepends
    exact h.source_le hbundle
  obtain ⟨source, user, hreaches, huser, hlast⟩ := hseen
  refine ⟨user, huser, le_trans ?_ (hdepends hlast)⟩
  clear hlast
  induction hreaches with
  | refl => exact le_rfl
  | tail _ hfeeds ih => exact ih.trans (hdepends hfeeds.2.2)

/-- The system of a round can be built if some slots that respect its dependencies are words. -/
theorem Acyclic.buildable (hg : Acyclic block entrySlot exit g) (hposes : bounds.Poses g orders)
    (hsize : g.units.size < 2 ^ 64) (hslots : g.Respects orders slots)
    (hwords : ∀ {id}, g.IsControl id → slots id < Word.count) :
    ControlSystem.Buildable g bounds := by
  have hentrySlot : g.entrySlot < Word.count := by
    have := hwords hg.root
    rw [hslots.entry] at this
    omega
  have hunrecorded : ∀ block, bounds.interval? g block = none := by
    intro block
    rw [ControlBounds.interval?, if_neg (by simp [hposes.placing]), interval?, hg.unrecorded]
    rfl
  have hsmall : ∀ {control user : UnitId} {x : Int}, g.IsControl control → g.IsControl user →
      0 ≤ x → slots control + x ≤ slots user → x.natAbs ≤ 2 ^ 52 := by
    intro control user x hcontrol huser hpos hle
    have := hslots.after hcontrol.lt_size
    have hword := hwords huser
    unfold Word.count at hword
    omega
  refine { toWellFormed := hg.toWellFormed, toTidy := hg.toTidy,
           unfrozen := fun hunit => (hg.units hunit).unfrozen, untangled := hg.forward.untangled,
           known := ?known, direct := ?direct, spans := ?spans, through := ?through, size := hsize,
           exit := ?exit, slots := ?slots, entrySlot := hentrySlot, ends := ?ends,
           chained := hposes.chained, intervals := ?intervals }
  case known =>
    intro id unit hunit dep hdep
    have hbundle := (bundle?_eq hunit dep.1).trans
      (Table.get?_of_mem_entries (hg.tidy hunit).nodup hdep)
    exact ⟨_, DepEdge.offset?_of_distance_eq_zero (hg.forward hbundle).2 _⟩
  case direct =>
    intro source user offset hsource huser hasks
    have hle := hslots.asks hg.forward hasks
    obtain ⟨bundle, -, rfl⟩ := hg.forward.asks_iff.mp hasks
    exact hsmall hsource huser (Int.natCast_nonneg _) hle
  case spans =>
    intro control id span hseen hspans
    obtain ⟨user, huser, hle⟩ := hslots.exists_control hseen
    exact hsmall hspans.isControl huser (hg.forward.spans_nonneg hspans)
      ((hslots.spans hg.forward hspans).trans hle)
  case through =>
    intro control source user span offset hspans huser hasks
    have hle := hslots.spans hg.forward hspans
    have hle' := hslots.asks hg.forward hasks
    have hpos := hg.forward.spans_nonneg hspans
    obtain ⟨bundle, -, rfl⟩ := hg.forward.asks_iff.mp hasks
    exact hsmall hspans.isControl huser (by omega) (by omega)
  case exit =>
    intro exit' hexit
    obtain rfl := Option.some.inj (hg.exitRoot.symm.trans hexit)
    exact hg.exitControl
  case slots =>
    intro id slot hid hslot
    by_cases hroot : id = g.entryRoot
    · rw [hroot, hg.placed] at hslot
      cases hslot
      exact hentrySlot
    · rw [hg.cleared hid hroot] at hslot
      cases hslot
  case ends =>
    intro last hlast
    rw [hposes.unended] at hlast
    cases hlast
  case intervals =>
    intro order chain interval _ _ hinterval
    rw [hunrecorded] at hinterval
    cases hinterval

/-! ## A round -/

/-- A round places the control units at their slots in the lowest assignment. -/
theorem Acyclic.exists_round (hg : Acyclic block entrySlot exit g) (hposes : bounds.Poses g orders)
    (hsize : g.units.size < 2 ^ 64) (hslots : g.Earliest orders slots)
    (hwords : ∀ {id}, g.IsControl id → slots id < Word.count) :
    ∃ sys placed g', ControlSystem.build g bounds = .ok sys ∧ sys.unknowns.size ≠ 0 ∧
      sys.earliest = .ok placed ∧
      (∀ id, id ∈ placed.map Prod.fst ↔ id ∈ g.controlUnits ∧ g.slot? id = none) ∧
      g.placeAll placed = .ok g' ∧ ControlSystem.Placed g bounds g' ∧
      ∀ {id}, g.IsControl id → g'.slotAt id = slots id := by
  have hbuildable := hg.buildable hposes hsize hslots.toRespects hwords
  have hadmits := hslots.toRespects.admits hg hposes
  obtain ⟨sys, hbuild, -⟩ := ControlSystem.exists_build hbuildable
  obtain ⟨placed, hplaced⟩ := ControlSystem.exists_earliest_of_admits hbuildable hbuild hadmits
    fun hid => ⟨(Int.natCast_nonneg _).trans (hslots.after hid.lt_size), hwords hid⟩
  obtain ⟨g', hplace⟩ := ControlSystem.exists_placeAll hbuildable.toListed hbuild hplaced
  have hsolves := ControlSystem.solves_of_earliest hbuildable hbuild hplaced hplace
  obtain ⟨base, hdescribes⟩ := ControlSystem.exists_describes hbuild
  obtain ⟨value, hvalue, hsame⟩ := hg.exists_respects hposes hsolves.admits
  have hfree := hdescribes.unknowns_ne_zero (hg.control.mpr hg.exitControl)
    (hg.cleared hg.exitControl hg.leaves)
  refine ⟨sys, placed, g', hbuild, hfree, hplaced, fun _ => hdescribes.mem_placed hplaced, hplace,
    hsolves.toPlaced, fun {id} hid => le_antisymm (hsolves.least hadmits hid) ?_⟩
  exact (hslots.least hvalue hid.lt_size).trans (hsame hid).le

/-! ## The order of a round -/

theorem Turns.asymm (h : g.Turns slots source user) : ¬g.Turns slots user source :=
  fun hback => Issues.irrefl (h.2.trans hback.2)

theorem Issues.congr {slots' : UnitId → Int} (h : Issues slots source user)
    (hsource : slots source = slots' source) (huser : slots user = slots' user) :
    Issues slots' source user := by
  rw [Issues, ← hsource, ← huser]
  exact h

/-- Units that share a function unit are in a chain. -/
theorem exists_chain_of_shares {order : IssueOrder} (hg : g.OfBlock block entrySlot)
    (hskeleton : h.skeleton = g.skeleton) (horder : IssueOrder.build h = .ok order)
    (hshares : g.Shares source user) :
    ∃ chain ∈ order.chains, source ∈ chain.units ∧ user ∈ chain.units := by
  obtain ⟨hne, unit, unit', hunit, hunit', hcontrol, hcontrol', hsame, hshared⟩ :=
    hshares.of_skeleton_eq hskeleton.symm
  obtain ⟨chain, hchain, -, hmem, hmem'⟩ := IssueOrder.exists_chain (hg.of_skeleton_eq hskeleton)
    horder hne hunit hcontrol hunit' hcontrol' hsame hshared
  exact ⟨chain, hchain, hmem, hmem'⟩

/-- The chains of an order ask for exactly the turns of the slots that it was made for. -/
theorem poses_of_build {order : IssueOrder} (hg : g.OfBlock block entrySlot)
    (hskeleton : h.skeleton = g.skeleton) (horder : IssueOrder.build h = .ok order)
    (hslots : ∀ {id}, g.IsControl id → h.slotAt id = first id) :
    ControlBounds.Poses { order := some order } g (g.Turns first) := by
  have hchains : ∀ {chain}, chain ∈ order.chains → (∀ id ∈ chain.units, g.IsControl id) ∧
      chain.units.Pairwise (g.Turns first) := by
    intro chain hchain
    obtain ⟨-, hcontrol, hpairs⟩ :=
      PipelineSearch.pairwise_of_chain hg hskeleton horder hchain
    exact ⟨hcontrol, hpairs.imp fun hpair => ⟨hpair.1,
      hpair.2.congr (hslots hpair.1.isControl) (hslots hpair.1.symm.isControl)⟩⟩
  refine ⟨rfl, rfl, rfl, fun heq hchain hid => ?_,
    fun hturns => ⟨hturns.1.isControl, hturns.1.symm.isControl⟩, fun {slots} => ⟨?_, ?_⟩⟩
  · cases heq
    exact (hchains hchain).1 _ hid
  · intro hturns order' chain heq hchain
    cases heq
    exact List.pairwise_map.mpr ((hchains hchain).2.imp hturns)
  · intro hsorted source user hturns
    obtain ⟨chain, hchain, hsource, huser⟩ :=
      exists_chain_of_shares hg hskeleton horder hturns.1
    have hpairs := (hchains hchain).2.and (List.pairwise_map.mp (hsorted rfl hchain))
    rcases rel_or_rel_of_pairwise hpairs hsource huser hturns.1.1 with ⟨-, hlt⟩ | ⟨hback, -⟩
    · exact hlt
    · exact absurd hback hturns.asymm

end Graph

end SlotScheduling
