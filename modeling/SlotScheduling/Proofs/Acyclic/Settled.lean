import Mathlib.Data.Finset.Max
import SlotScheduling.Proofs.Acyclic.Assignments
import SlotScheduling.Proofs.Pipeline.Started

/-!
# Slots of the control path and of all units

Where no unit waits for itself, slots of the control path that are admitted extend to slots of all
units that respect every dependency: a data-path unit issues as soon as the units that it waits for
allow.  So looking through the data path loses no assignment and allows no other.
-/

namespace SlotScheduling

/-- Beside the dependencies, the bounds ask for nothing but an order of control units. -/
structure ControlBounds.Poses (bounds : ControlBounds) (g : Graph)
    (orders : UnitId → UnitId → Prop) : Prop where
  placing : bounds.pipelining = false
  unended : bounds.criticalPathEnd = none
  unwindowed : bounds.moduloWindow = false
  chained : ∀ {order chain id}, bounds.order = some order → chain ∈ order.chains →
    id ∈ chain.units → g.IsControl id
  control : ∀ {source user}, orders source user → g.IsControl source ∧ g.IsControl user
  chains : ∀ {slots : UnitId → Int}, (∀ {source user}, orders source user →
      slots source < slots user) ↔ ∀ {order chain}, bounds.order = some order →
    chain ∈ order.chains → (chain.units.map slots).Pairwise (· < ·)

namespace Graph

variable {g h : Graph} {bounds : ControlBounds} {orders : UnitId → UnitId → Prop}
  {block : BlockId} {entrySlot count : Nat} {slots value : UnitId → Int}
  {id exit control source user : UnitId} {bundle : EdgeBundle} {offset span : Int}

/-- The graph of a single block in which no unit waits for itself, with its control path to be
scheduled from the entry. -/
structure Acyclic (block : BlockId) (entrySlot : Nat) (exit : UnitId) (g : Graph) : Prop
    extends Enclosed block entrySlot exit g where
  leaves : exit ≠ g.entryRoot
  forward : g.Forward
  fed : ∀ {id}, g.IsData id → ∃ source, g.DependsOn id source
  unrecorded : g.intervals = {}
  placed : g.slot? g.entryRoot = some g.entrySlot
  cleared : ∀ {id}, g.IsControl id → id ≠ g.entryRoot → g.slot? id = none

theorem Acyclic.of_frame_eq (hg : Acyclic block entrySlot exit g) (hframe : h.frame = g.frame)
    (hslots : ∀ id, h.slot? id = g.slot? id) : Acyclic block entrySlot exit h := by
  have hskeleton := skeleton_eq_of_frame_eq hframe
  have hbundles := bundle?_of_frame_eq hframe
  refine ⟨hg.toEnclosed.of_skeleton_eq hskeleton, hg.leaves, ?_, fun hdata => ?_, ?_, ?_,
    fun hid hne => ?_⟩
  · rw [Forward, hbundles]
    exact hg.forward
  · obtain ⟨source, hdepends⟩ := hg.fed ((isData_iff_of_frame_eq hframe).mp hdata)
    exact ⟨source, dependsOn_of_outline_eq (outline_eq_of_skeleton_eq hskeleton).symm hdepends⟩
  · exact (congrArg Graph.intervals hframe :).trans hg.unrecorded
  · have hentrySlot : h.entrySlot = g.entrySlot :=
      eq_of_skeleton_eq (·.entrySlot) hskeleton fun _ => rfl
    rw [hslots, hentrySlot]
    exact hg.placed
  · rw [hslots]
    exact hg.cleared ((isControl_iff_of_frame_eq hframe).mp hid) hne

theorem Forward.lt_of_transGen (hg : g.Forward) (h : Relation.TransGen g.Feeds source user) :
    source < user := by
  have hstep : ∀ {source user}, g.Feeds source user → source < user := fun hfeeds => by
    obtain ⟨bundle, hbundle⟩ := dependsOn_iff_bundle?.mp hfeeds.2.2
    exact (hg hbundle).1
  induction h with
  | single hfeeds => exact hstep hfeeds
  | tail _ hfeeds ih => exact ih.trans (hstep hfeeds)

theorem Forward.untangled (hg : g.Forward) : g.Untangled :=
  fun _ hcircular => lt_irrefl _ (hg.lt_of_transGen hcircular)

/-- Within one iteration, every dependency asks for its latency. -/
theorem Forward.asks_iff (hg : g.Forward) : bounds.Asks g source user offset ↔
    ∃ bundle, g.bundle? user source = some bundle ∧ offset = bundle.edge.latency := by
  constructor
  · rintro ⟨unit, bundle, hunit, hdep, hoffset⟩
    have hbundle := (bundle?_eq hunit source).trans hdep
    rw [ControlBounds.offset?, DepEdge.offset?_of_distance_eq_zero (hg hbundle).2] at hoffset
    exact ⟨bundle, hbundle, (Option.some.inj (Except.ok.inj hoffset)).symm⟩
  · rintro ⟨bundle, hbundle, rfl⟩
    obtain ⟨unit, hunit, hdep⟩ := exists_of_bundle? hbundle
    exact ⟨unit, bundle, hunit, hdep, DepEdge.offset?_of_distance_eq_zero (hg hbundle).2 _⟩

theorem Forward.asks (hg : g.Forward) (hbundle : g.bundle? user source = some bundle) :
    bounds.Asks g source user bundle.edge.latency :=
  hg.asks_iff.mpr ⟨bundle, hbundle, rfl⟩

theorem Forward.spans_nonneg (hg : g.Forward) (h : LookThrough.Spans g bounds control id span) :
    0 ≤ span := by
  induction h with
  | start _ _ _ hasks =>
      obtain ⟨bundle, -, rfl⟩ := hg.asks_iff.mp hasks
      exact Int.natCast_nonneg _
  | step _ _ _ hasks ih =>
      obtain ⟨bundle, -, rfl⟩ := hg.asks_iff.mp hasks
      exact Int.add_nonneg ih (Int.natCast_nonneg _)

/-! ## From all units to the control path -/

theorem Respects.asks (h : g.Respects orders slots) (hg : g.Forward)
    (hasks : bounds.Asks g source user offset) : slots source + offset ≤ slots user := by
  obtain ⟨bundle, hbundle, rfl⟩ := hg.asks_iff.mp hasks
  exact h.le hbundle

theorem Respects.spans (h : g.Respects orders slots) (hg : g.Forward)
    (hspans : LookThrough.Spans g bounds control id span) : slots control + span ≤ slots id := by
  induction hspans with
  | start _ _ _ hasks => exact h.asks hg hasks
  | step _ _ _ hasks ih =>
      have := h.asks hg hasks
      omega

theorem Respects.admits (h : g.Respects orders slots) (hg : Acyclic block entrySlot exit g)
    (hposes : bounds.Poses g orders) : ControlSystem.Admits g bounds slots where
  fixed {id slot} hid hslot := by
    by_cases hroot : id = g.entryRoot
    · subst hroot
      rw [hg.placed, Option.some.injEq] at hslot
      exact hslot ▸ h.entry
    · rw [hg.cleared hid hroot] at hslot
      cases hslot
  free hid _ := h.after hid.lt_size
  direct _ _ hasks := h.asks hg.forward hasks
  through hspans _ hasks := by
    have := h.spans hg.forward hspans
    have := h.asks hg.forward hasks
    omega
  ends _ hlast := by
    rw [hposes.unended] at hlast
    cases hlast
  chains horder hchain := hposes.chains.mp h.turns horder hchain
  windows _ _ hwindow := by
    rw [hposes.unwindowed] at hwindow
    cases hwindow

/-! ## From the control path to all units -/

/-- Up to some position, a data-path unit issues as soon as the units that it waits for allow. -/
structure Settles (g : Graph) (bounds : ControlBounds) (slots : UnitId → Int) (count : Nat)
    (value : UnitId → Int) : Prop where
  control : ∀ {id}, g.IsControl id → value id = slots id
  met : ∀ {user source bundle}, user < count → g.IsData user →
    g.bundle? user source = some bundle → value source + bundle.edge.latency ≤ value user
  attained : ∀ {id}, id < count → g.IsData id → ∃ control span,
    LookThrough.Spans g bounds control id span ∧ value id = slots control + span

/-- One of the units that a unit waits for holds it up longest. -/
theorem Tidy.exists_longest (hg : g.Tidy) (hfed : ∃ source, g.DependsOn id source)
    (value : UnitId → Int) : ∃ source bundle, g.bundle? id source = some bundle ∧
      ∀ {other bundle'}, g.bundle? id other = some bundle' →
        value other + bundle'.edge.latency ≤ value source + bundle.edge.latency := by
  obtain ⟨source, unit, hunit, hsource⟩ := hfed
  obtain ⟨dep, hdep, -⟩ := List.mem_map.mp hsource
  obtain ⟨longest, hlongest, hmax⟩ := Finset.exists_max_image unit.deps.entries.toFinset
    (fun dep => value dep.1 + dep.2.edge.latency) ⟨dep, List.mem_toFinset.mpr hdep⟩
  refine ⟨longest.1, longest.2, ?_, fun {other bundle'} hbundle => ?_⟩
  · rw [bundle?_eq hunit]
    exact Table.get?_of_mem_entries (hg.tidy hunit).nodup (List.mem_toFinset.mp hlongest)
  · rw [bundle?_eq hunit] at hbundle
    exact hmax _ (List.mem_toFinset.mpr (Table.mem_entries_of_get?_eq_some hbundle))

/-- What a data-path unit waits for longest is reached from the control path. -/
theorem Settles.exists_spans (h : g.Settles bounds slots count value) (hg : g.Forward)
    (hwell : g.WellFormed) (hid : id ≤ count) (hdata : g.IsData id)
    (hbundle : g.bundle? id source = some bundle) : ∃ control span,
      LookThrough.Spans g bounds control id span ∧
        value source + bundle.edge.latency = slots control + span := by
  have hasks : bounds.Asks g source id bundle.edge.latency := hg.asks hbundle
  rcases isControl_or_isData (lt_size_of_bundle? hwell hbundle).2 with hcontrol | hsource
  · exact ⟨source, _, .start hcontrol hdata (hg.untangled id) hasks, by rw [h.control hcontrol]⟩
  · obtain ⟨control, span, hspans, heq⟩ := h.attained ((hg hbundle).1.trans_le hid) hsource
    exact ⟨control, _, hspans.step hdata (hg.untangled id) hasks, by rw [heq, add_assoc]⟩

theorem Settles.succ (h : g.Settles bounds slots count value)
    (hg : Acyclic block entrySlot exit g) :
    ∃ value', g.Settles bounds slots (count + 1) value' := by
  by_cases hdata : g.IsData count
  · obtain ⟨source, bundle, hbundle, hlongest⟩ := hg.toTidy.exists_longest (hg.fed hdata) value
    have hsame : ∀ {id}, id ≠ count →
        Function.update value count (value source + bundle.edge.latency) id = value id :=
      fun hne => Function.update_of_ne hne _ _
    refine ⟨Function.update value count (value source + bundle.edge.latency),
      fun {id} hid => ?_, fun {user other bundle'} hlt huser hbundle' => ?_,
      fun {id} hlt hid => ?_⟩
    · rw [hsame (by rintro rfl; exact hid.not_isData hdata), h.control hid]
    · have hbefore := (hg.forward hbundle').1
      rw [hsame (hbefore.trans_le (Nat.le_of_lt_succ hlt)).ne]
      rcases Nat.lt_succ_iff_lt_or_eq.mp hlt with hlt | rfl
      · rw [hsame hlt.ne]
        exact h.met hlt huser hbundle'
      · rw [Function.update_self]
        exact hlongest hbundle'
    · rcases Nat.lt_succ_iff_lt_or_eq.mp hlt with hlt | rfl
      · rw [hsame hlt.ne]
        exact h.attained hlt hid
      · rw [Function.update_self]
        exact h.exists_spans hg.forward hg.toWellFormed le_rfl hdata hbundle
  · have hlt : ∀ {id}, id < count + 1 → g.IsData id → id < count := fun hlt hid =>
      Nat.lt_of_le_of_ne (Nat.le_of_lt_succ hlt) fun heq => hdata (heq ▸ hid)
    exact ⟨value, h.control, fun hle huser => h.met (hlt hle huser) huser,
      fun hle hid => h.attained (hlt hle hid) hid⟩

theorem Acyclic.exists_settles (hg : Acyclic block entrySlot exit g) (bounds : ControlBounds)
    (slots : UnitId → Int) (count : Nat) : ∃ value, g.Settles bounds slots count value := by
  induction count with
  | zero => exact ⟨slots, fun _ => rfl, fun hlt => absurd hlt (Nat.not_lt_zero _),
      fun hlt => absurd hlt (Nat.not_lt_zero _)⟩
  | succ count ih =>
      obtain ⟨value, hvalue⟩ := ih
      exact hvalue.succ hg

/-- Around admitted slots of the control path, settled units meet every dependency. -/
theorem Settles.le_of_bundle? (h : g.Settles bounds slots g.units.size value)
    (hg : Acyclic block entrySlot exit g) (hslots : ControlSystem.Admits g bounds slots)
    (hbundle : g.bundle? user source = some bundle) :
    value source + bundle.edge.latency ≤ value user := by
  obtain ⟨huser, hsource⟩ := lt_size_of_bundle? hg.toWellFormed hbundle
  have hasks : bounds.Asks g source user bundle.edge.latency := hg.forward.asks hbundle
  rcases isControl_or_isData huser with hcontrol | hdata
  · rw [h.control hcontrol]
    rcases isControl_or_isData hsource with hcontrol' | hdata'
    · rw [h.control hcontrol']
      exact hslots.direct hcontrol' hcontrol hasks
    · obtain ⟨control, span, hspans, heq⟩ := h.attained hsource hdata'
      rw [heq]
      exact hslots.through hspans hcontrol hasks
  · exact h.met huser hdata hbundle

/-- Admitted slots of the control path are those of an assignment to all units. -/
theorem Acyclic.exists_respects (hg : Acyclic block entrySlot exit g)
    (hposes : bounds.Poses g orders) (hslots : ControlSystem.Admits g bounds slots) :
    ∃ value, g.Respects orders value ∧ ∀ {id}, g.IsControl id → value id = slots id := by
  obtain ⟨value, hvalue⟩ := hg.exists_settles bounds slots g.units.size
  have hentered : ∀ {id}, g.IsControl id → (g.entrySlot : Int) ≤ slots id := by
    intro id hid
    by_cases hroot : id = g.entryRoot
    · rw [hroot, hslots.fixed hg.root hg.placed]
    · exact hslots.free hid (hg.cleared hid hroot)
  refine ⟨value, ⟨?_, fun {id} hid => ?_, fun {user source bundle} hbundle => ?_,
    fun {source user} horder => ?_⟩, hvalue.control⟩
  · rw [hvalue.control hg.root, hslots.fixed hg.root hg.placed]
  · rcases isControl_or_isData hid with hcontrol | hdata
    · exact hvalue.control hcontrol ▸ hentered hcontrol
    · obtain ⟨control, span, hspans, heq⟩ := hvalue.attained hid hdata
      have := hentered hspans.isControl
      have := hg.forward.spans_nonneg hspans
      omega
  · have := hvalue.le_of_bundle? hg hslots hbundle
    rw [DepEdge.admits_iff_le (hg.toTidy.loose hbundle)]
    omega
  · obtain ⟨hsource, huser⟩ := hposes.control horder
    rw [hvalue.control hsource, hvalue.control huser]
    exact hposes.chains.mpr (fun horder hchain => hslots.chains horder hchain) horder

end Graph

end SlotScheduling
