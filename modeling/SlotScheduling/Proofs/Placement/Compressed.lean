import Mathlib.Order.Interval.Finset.Nat
import Mathlib.Data.Nat.Count
import SlotScheduling.Proofs.Placement.Squeezed

/-!
# How late the earliest slots are

Of slots that meet all constraints, those in which nothing is in flight can be left out: every
latency that was waited for is still waited for.  So no earliest slot is later than all latencies
together allow, although over a cycle of the data path one latency can stand in many constraints.
The exit is a case of its own, since the moves that it waits for count with the interval.
-/

namespace SlotScheduling

/-! ## Leaving out time -/

namespace Compression

variable {spans : List (Int × Nat)} {start t a b : Int} {length : Nat}

/-- The slot is one of those that follow the start of a span. -/
def IsBusy (spans : List (Int × Nat)) (t : Int) : Prop :=
  ∃ span ∈ spans, span.1 ≤ t ∧ t < span.1 + span.2

instance : DecidablePred (IsBusy spans) := fun t =>
  inferInstanceAs (Decidable (∃ span ∈ spans, span.1 ≤ t ∧ t < span.1 + span.2))

/-- How many of the slots from a start on are busy. -/
def busyCount (spans : List (Int × Nat)) (start : Int) (slots : Nat) : Nat :=
  Nat.count (fun slot => IsBusy spans (start + slot)) slots

/-- From a start on, only slots that are busy count. -/
def compress (spans : List (Int × Nat)) (start t : Int) : Int :=
  min t start + busyCount spans start (t - start).toNat

/-- Spans make no more slots busy than they are long. -/
theorem busyCount_le_sum (spans : List (Int × Nat)) (start : Int) (slots : Nat) :
    busyCount spans start slots ≤ (spans.map Prod.snd).sum := by
  induction spans with
  | nil => exact (Nat.count_of_forall_not fun slot _ => by simp [IsBusy]).le
  | cons span rest ih =>
      rw [busyCount, Nat.count_eq_card_filter_range] at ih ⊢
      have hcover : (Finset.range slots).filter
            (fun slot : Nat => IsBusy (span :: rest) (start + slot)) ⊆
          Finset.Ico (span.1 - start).toNat (span.1 + span.2 - start).toNat ∪
            (Finset.range slots).filter (fun slot : Nat => IsBusy rest (start + slot)) := by
        intro slot hslot
        obtain ⟨hmem, other, hother, hbusy⟩ := Finset.mem_filter.mp hslot
        rcases List.mem_cons.mp hother with rfl | hrest
        · exact Finset.mem_union_left _ (Finset.mem_Ico.mpr (by omega))
        · exact Finset.mem_union_right _ (Finset.mem_filter.mpr ⟨hmem, other, hrest, hbusy⟩)
      refine ((Finset.card_le_card hcover).trans (Finset.card_union_le _ _)).trans ?_
      rw [Nat.card_Ico, List.map_cons, List.sum_cons]
      omega

/-- Later slots make up for themselves at most. -/
theorem busyCount_add_le (spans : List (Int × Nat)) (start : Int) (before after : Nat) :
    busyCount spans start (before + after) ≤ busyCount spans start before + after := by
  rw [busyCount, Nat.count_add]
  exact Nat.add_le_add_left (Nat.count_le _) _

theorem compress_of_le (h : t ≤ start) : compress spans start t = t := by
  rw [compress, Int.toNat_of_nonpos (by omega), busyCount, Nat.count_zero]
  omega

theorem compress_le (spans : List (Int × Nat)) (start t : Int) :
    compress spans start t ≤ start + ((spans.map Prod.snd).sum : Nat) := by
  have hcount := busyCount_le_sum spans start (t - start).toNat
  unfold compress
  omega

theorem compress_mono (spans : List (Int × Nat)) (start : Int) (h : a ≤ b) :
    compress spans start a ≤ compress spans start b := by
  have hcount : busyCount spans start (a - start).toNat ≤ busyCount spans start (b - start).toNat :=
    Nat.count_monotone _ (by omega)
  unfold compress
  omega

/-- Time that is left out does not come back. -/
theorem compress_le_add (spans : List (Int × Nat)) (start : Int) (h : a ≤ b) :
    compress spans start b ≤ compress spans start a + (b - a) := by
  obtain ⟨after, hafter⟩ := Nat.exists_eq_add_of_le
    (by omega : (a - start).toNat ≤ (b - start).toNat)
  have hcount := busyCount_add_le spans start (a - start).toNat after
  rw [← hafter] at hcount
  unfold compress
  omega

theorem compress_le_self (spans : List (Int × Nat)) (start t : Int) :
    compress spans start t ≤ t := by
  by_cases hle : t ≤ start
  · exact (compress_of_le hle).le
  · have hadd := compress_le_add spans start (le_of_not_ge hle)
    rw [compress_of_le le_rfl] at hadd
    omega

/-- A span keeps its length. -/
theorem add_le_compress (start : Int) (hspan : (a, length) ∈ spans) :
    compress spans start a + length ≤ compress spans start (a + length) := by
  obtain ⟨after, hafter⟩ := Nat.exists_eq_add_of_le
    (by omega : (a - start).toNat ≤ (a + length - start).toNat)
  -- All slots of the span that are not before the start are busy.
  have hbusy : ∀ slot < after, IsBusy spans (start + ((a - start).toNat + slot : Nat)) :=
    fun slot hslot => ⟨_, hspan, by simp only; omega, by simp only; omega⟩
  have hcount : busyCount spans start (a + length - start).toNat =
      busyCount spans start (a - start).toNat + after := by
    rw [hafter, busyCount, Nat.count_add, Nat.count_of_forall hbusy, busyCount]
  unfold compress
  omega

/-- What waits for a span, or for less, still does. -/
theorem compress_waits (start : Int) {slack : Int} (hspan : (a, length) ∈ spans)
    (hslack : 0 ≤ slack) (h : a + (length - slack) ≤ b) :
    compress spans start a + (length - slack) ≤ compress spans start b := by
  have hlength := add_le_compress start hspan
  by_cases hle : a + length ≤ b
  · have := compress_mono spans start hle
    omega
  · have := compress_le_add spans start (le_of_not_ge hle)
    omega

end Compression

open Compression ConstraintSystem

theorem DepEdge.exists_slack_of_minGap? {edge : DepEdge} {interval : Option Nat} {gap : Int}
    (h : edge.minGap? interval = some gap) :
    ∃ slack : Int, 0 ≤ slack ∧ gap = edge.latency - slack := by
  unfold minGap? at h
  split at h
  · exact ⟨0, le_rfl, by rw [← Option.some.inj h, Int.sub_zero]⟩
  · obtain ⟨known, _, rfl⟩ := Option.map_eq_some_iff.mp h
    exact ⟨edge.distance * known, by positivity, rfl⟩

theorem DepEdge.exists_slack {edge : DepEdge} {interval : Option Nat} {offset : Int}
    (h : edge.offset? interval = .ok (some offset)) :
    ∃ slack : Int, 0 ≤ slack ∧ offset = edge.latency - slack :=
  exists_slack_of_minGap? (offset?_eq_minGap? h).symm

theorem ControlBounds.Asks.exists_slack {bounds : ControlBounds} {g : Graph} {source user : UnitId}
    {offset : Int} (h : bounds.Asks g source user offset) :
    ∃ (bundle : EdgeBundle) (slack : Int), g.bundle? user source = some bundle ∧ 0 ≤ slack ∧
      offset = bundle.edge.latency - slack := by
  obtain ⟨unit, bundle, hunit, hbundle, hoffset⟩ := h
  obtain ⟨slack, hslack, heq⟩ := DepEdge.exists_slack hoffset
  exact ⟨bundle, slack, (Graph.bundle?_eq hunit source).trans hbundle, hslack, heq⟩

namespace ControlSystem

variable {g g' : Graph} {bounds : ControlBounds} {found : LookThrough} {slots : UnitId → Int}
  {id source user control exit : UnitId} {span offset : Int} {sources : ControlSources}
  {latencies : List (UnitId × Nat)} {start wait ahead behind : Nat} {base : ConstraintSystem}

/-! ## When units issue -/

/-- When everything that was found for a data-path unit is there. -/
def readyAt (found : LookThrough) (slots : UnitId → Int) (id : UnitId) : Int :=
  (((found.sources? id).getD .empty).entries.map fun entry => slots entry.1 + entry.2).max?.getD 0

/-- When a unit issues at the earliest. -/
def issueAt (g : Graph) (found : LookThrough) (slots : UnitId → Int) (id : UnitId) : Int :=
  if id ∈ g.controlUnits then slots id else readyAt found slots id

theorem readyAt_isGreatest (slots : UnitId → Int) (hsources : found.sources? id = some sources)
    {entry : UnitId × Int} (hentry : entry ∈ sources.entries) :
    slots entry.1 + entry.2 ≤ readyAt found slots id ∧
      ∃ last ∈ sources.entries, readyAt found slots id = slots last.1 + last.2 := by
  have hmem : slots entry.1 + entry.2 ∈ sources.entries.map fun entry => slots entry.1 + entry.2 :=
    List.mem_map_of_mem hentry
  obtain ⟨greatest, hgreatest⟩ := Option.ne_none_iff_exists'.mp
    fun hnone => List.ne_nil_of_mem hmem (List.max?_eq_none_iff.mp hnone)
  obtain ⟨hin, hle⟩ := List.max?_eq_some_iff.mp hgreatest
  have hready : readyAt found slots id = greatest := by
    rw [readyAt, hsources, Option.getD_some, hgreatest, Option.getD_some]
  rw [hready]
  obtain ⟨last, hlast, heq⟩ := List.mem_map.mp hin
  exact ⟨hle _ hmem, last, hlast, heq.symm⟩

theorem readyAt_le (slots : UnitId → Int) (hsources : found.sources? id = some sources)
    {entry : UnitId × Int} (hentry : entry ∈ sources.entries) {bound : Int}
    (hbound : ∀ entry ∈ sources.entries, slots entry.1 + entry.2 ≤ bound) :
    readyAt found slots id ≤ bound := by
  obtain ⟨-, last, hlast, heq⟩ := readyAt_isGreatest slots hsources hentry
  exact heq.le.trans (hbound last hlast)

theorem le_readyAt_of_reaches (slots : UnitId → Int) (hsources : found.sources? id = some sources)
    (hreaches : sources.Reaches control span) : slots control + span ≤ readyAt found slots id := by
  obtain ⟨known, hknown, hle⟩ := hreaches
  have hready := (readyAt_isGreatest slots hsources
    (Table.mem_entries_of_get?_eq_some hknown)).1
  simp only at hready
  omega

theorem issueAt_of_isControl (hg : g.Listed) (hid : g.IsControl id) :
    issueAt g found slots id = slots id :=
  if_pos (hg.control.mpr hid)

theorem issueAt_of_isData (hg : g.Listed) (hid : g.IsData id) :
    issueAt g found slots id = readyAt found slots id :=
  if_neg fun hmem => (hg.control.mp hmem).not_isData hid

/-! ## Compressed slots -/

/-- The latencies that are waited for are listed, but for those of the exit, on which nothing
depends.  The slots that are there, and the first one, are not later than a start. -/
structure Flows (g : Graph) (bounds : ControlBounds) (exit : UnitId)
    (latencies : List (UnitId × Nat)) (start wait : Nat) : Prop where
  exitRoot : g.exitRoot = some exit
  exitControl : g.IsControl exit
  unused : ∀ user, ¬g.DependsOn user exit
  latencies : ∀ {user source bundle}, user ≠ exit → g.bundle? user source = some bundle →
    (source, bundle.edge.latency) ∈ latencies
  waits : ∀ {source offset}, bounds.Asks g source exit offset → offset ≤ wait
  entrySlot : g.entrySlot ≤ start
  slots : ∀ {id slot}, g.IsControl id → g.slot? id = some slot → slot ≤ start
  chained : ∀ {order chain id}, bounds.order = some order → chain ∈ order.chains →
    id ∈ chain.units → g.IsControl id ∧ id ≠ exit

/-- What is in flight: the latencies after their sources issue, and each control unit for a slot. -/
def inFlight (g : Graph) (found : LookThrough) (latencies : List (UnitId × Nat))
    (slots : UnitId → Int) : List (Int × Nat) :=
  (latencies ++ g.controlUnits.map fun id => (id, 1)).map fun latency : UnitId × Nat =>
    (issueAt g found slots latency.1, latency.2)

theorem sum_inFlight (g : Graph) (found : LookThrough) (latencies : List (UnitId × Nat))
    (slots : UnitId → Int) : ((inFlight g found latencies slots).map Prod.snd).sum =
      (latencies.map Prod.snd).sum + g.controlUnits.length := by
  simp [inFlight, Function.comp_def]

/-- The last slot that the latencies leave room for. -/
def lastSlot (g : Graph) (latencies : List (UnitId × Nat)) (start wait : Nat) : Nat :=
  start + ((latencies.map Prod.snd).sum + g.controlUnits.length) + wait

/-- Time in which nothing is in flight is left out.  The exit keeps its slot up to the last one. -/
def compressed (g : Graph) (found : LookThrough) (latencies : List (UnitId × Nat))
    (start wait : Nat) (exit : UnitId) (slots : UnitId → Int) (id : UnitId) : Int :=
  if id = exit then min (slots id) (lastSlot g latencies start wait)
  else compress (inFlight g found latencies slots) start (slots id)

theorem compressed_of_ne (h : id ≠ exit) : compressed g found latencies start wait exit slots id =
    compress (inFlight g found latencies slots) start (slots id) :=
  if_neg h

theorem compressed_exit : compressed g found latencies start wait exit slots exit =
    min (slots exit) (lastSlot g latencies start wait) :=
  if_pos rfl

theorem compressed_le_lastSlot (id : UnitId) :
    compressed g found latencies start wait exit slots id ≤ lastSlot g latencies start wait := by
  unfold compressed
  split
  · exact min_le_right _ _
  · have hle := compress_le (inFlight g found latencies slots) start (slots id)
    rw [sum_inFlight] at hle
    unfold lastSlot
    omega

section

variable (hflows : Flows g bounds exit latencies start wait)

include hflows

omit hflows in
/-- Slots that are there stay as they are. -/
theorem compressed_of_le_start (h : slots id ≤ start) :
    compressed g found latencies start wait exit slots id = slots id := by
  unfold compressed
  split
  · refine min_eq_left (h.trans ?_)
    unfold lastSlot
    omega
  · exact compress_of_le h

/-- Between the issue of a unit and of what depends on it the whole latency passes. -/
theorem compress_edge {bound : Int} (hasks : bounds.Asks g source user offset) (hne : user ≠ exit)
    (h : issueAt g found slots source + offset ≤ bound) :
    compress (inFlight g found latencies slots) start (issueAt g found slots source) + offset ≤
      compress (inFlight g found latencies slots) start bound := by
  obtain ⟨bundle, slack, hbundle, hslack, rfl⟩ := hasks.exists_slack
  have hmem := List.mem_append_left (g.controlUnits.map fun id => (id, 1))
    (hflows.latencies hne hbundle)
  exact compress_waits start (List.mem_map.mpr ⟨_, hmem, rfl⟩) hslack h

/-- What waits for the issue of a unit still does. -/
theorem compressed_waits (hasks : bounds.Asks g source user offset)
    (h : issueAt g found slots source + offset ≤ slots user) :
    compress (inFlight g found latencies slots) start (issueAt g found slots source) + offset ≤
      compressed g found latencies start wait exit slots user := by
  by_cases hexit : user = exit
  · subst hexit
    have hself := compress_le_self (inFlight g found latencies slots) start
      (issueAt g found slots source)
    have hle := compress_le (inFlight g found latencies slots) start (issueAt g found slots source)
    have hwait := hflows.waits hasks
    rw [sum_inFlight] at hle
    rw [compressed_exit, lastSlot]
    omega
  · rw [compressed_of_ne hexit]
    exact compress_edge hflows hasks hexit h

variable (hg : g.Listed)

include hg

theorem compress_relayed (slots : UnitId → Int)
    (htraced : LookThrough.Traced g bounds ahead behind found)
    (h : LookThrough.Relayed g bounds found control id span) :
    compress (inFlight g found latencies slots) start (slots control) + span ≤
      compress (inFlight g found latencies slots) start (readyAt found slots id) := by
  have hne : ∀ {id}, g.IsData id → id ≠ exit := by
    rintro id hdata rfl
    exact hflows.exitControl.not_isData hdata
  induction h with
  | @direct id offset sources hcontrol hdata hasks hfound hreaches =>
      have hsource : issueAt g found slots control = slots control :=
        issueAt_of_isControl hg hcontrol
      have hready := le_readyAt_of_reaches slots hfound hreaches
      rw [← hsource] at hready ⊢
      exact compress_edge hflows hasks (hne hdata) hready
  | @through source id span offset inner sources hrelayed hdata hasks hinner hfound hpasses ih =>
      have hsource : issueAt g found slots source = readyAt found slots source :=
        issueAt_of_isData hg hrelayed.isData
      have hready : readyAt found slots source + offset ≤ readyAt found slots id := by
        obtain ⟨inner', hinner', known, hknown, -⟩ := hrelayed.reaches
        obtain rfl := Option.some.inj (hinner.symm.trans hinner')
        obtain ⟨-, last, hlast, heq⟩ := readyAt_isGreatest slots hinner
          (Table.mem_entries_of_get?_eq_some hknown)
        have hreaches : inner.Reaches last.1 last.2 :=
          ⟨_, Table.get?_of_mem_entries (htraced.nodup hinner) hlast, le_rfl⟩
        have := le_readyAt_of_reaches slots hfound (hpasses hreaches)
        omega
      rw [← hsource] at hready ih
      have := compress_edge hflows hasks (hne hdata) hready
      omega

/-- The compressed slots meet whatever the slots meet. -/
theorem squeezes_compressed (htraced : LookThrough.Traced g bounds ahead behind found)
    (hslots : g.AgreesWith slots) :
    Squeezes g bounds found slots (compressed g found latencies start wait exit slots) := by
  have hissue : ∀ {id}, g.IsControl id → issueAt g found slots id = slots id :=
    fun hid => issueAt_of_isControl hg hid
  have hsource : ∀ {source}, (∃ user, g.DependsOn user source) →
      compressed g found latencies start wait exit slots source =
        compress (inFlight g found latencies slots) start (slots source) := by
    rintro source ⟨user, hdepends⟩
    exact compressed_of_ne fun heq => hflows.unused user (heq ▸ hdepends)
  refine ⟨hslots, fun {id slot} hid hslot => ?_, fun {id} _ hle => ?_,
    fun {source user offset} hcontrol _ hasks hle => ?_,
    fun {source user offset sources} huser hasks hdata hsources hmet entry hentry => ?_,
    fun {root last} hroot _ hle => ?_,
    fun {order chain first second weight} horder hchain hfirst hsecond hweight hle => ?_⟩
  case refine_1 =>
    have hword : slots id ≤ start := by
      have := hflows.slots hid hslot
      rw [hslots hid hslot]
      omega
    rw [compressed_of_le_start hword]
    exact hslots hid hslot
  case refine_2 =>
    have hentry := hflows.entrySlot
    unfold compressed
    split
    · unfold lastSlot
      omega
    · have hmono := compress_mono (inFlight g found latencies slots) start hle
      rwa [compress_of_le (by omega)] at hmono
  case refine_3 =>
    rw [hsource ⟨user, hasks.dependsOn⟩, ← hissue hcontrol]
    exact compressed_waits hflows hasks (by rwa [hissue hcontrol])
  case refine_4 =>
    have hready : readyAt found slots source + offset ≤ slots user := by
      have hall : ∀ other ∈ sources.entries, slots other.1 + other.2 ≤ slots user - offset :=
        fun other hother => by
          have := hmet other hother
          omega
      have := readyAt_le slots hsources hentry hall
      omega
    have hrelayed := htraced.relayed hsources entry hentry
    have hbefore := compress_relayed hflows hg slots htraced hrelayed
    have hdata' : issueAt g found slots source = readyAt found slots source :=
      issueAt_of_isData hg hdata
    have hafter := compressed_waits hflows hasks (hdata'.symm ▸ hready)
    rw [hsource hrelayed.isUsed]
    rw [hdata'] at hafter
    omega
  case refine_5 =>
    obtain rfl := Option.some.inj (hroot.symm.trans hflows.exitRoot)
    rw [compressed_exit]
    omega
  case refine_6 =>
    obtain ⟨hcontrol, hne⟩ := hflows.chained horder hchain hfirst
    have hmem : (slots first, 1) ∈ inFlight g found latencies slots := by
      refine List.mem_map.mpr ⟨(first, 1), List.mem_append_right _ ?_, by rw [hissue hcontrol]⟩
      exact List.mem_map_of_mem (hg.control.mpr hcontrol)
    have hslack : slots first + ((1 : Nat) - (1 - weight)) ≤ slots second := by
      push_cast
      omega
    have hkept := compress_waits start hmem (by omega) hslack
    rw [compressed_of_ne hne, compressed_of_ne (hflows.chained horder hchain hsecond).2]
    push_cast at hkept
    omega

end

/-! ## Earliest slots -/

theorem agreesWith_slotsOf {sys : ConstraintSystem} (hfree : base.IsFree g g.controlUnits)
    (h : base.Extends sys) (values : Nat → Int) : g.AgreesWith (slotsOf g sys values) := by
  intro id slot hid hslot
  have hnone : base.variableOf? id = none :=
    hfree.variableOf?_eq_none fun hfree => by simp [hslot] at hfree
  rw [slotsOf, valueOf?, h.variableOf?_eq, hnone, hslot]
  rfl

theorem variableOf?_of_getElem? {sys : ConstraintSystem} {index : Nat}
    (hnodup : sys.unknowns.toList.Nodup) (h : sys.unknowns[index]? = some id) :
    sys.variableOf? id = some index := by
  cases hvariable : sys.variableOf? id with
  | none => exact absurd (Array.mem_of_getElem? h) (variableOf?_eq_none.mp hvariable)
  | some index' =>
      have hget := variableOf?_eq_some hvariable
      rw [← h, ← Array.getElem?_toList, ← Array.getElem?_toList] at hget
      have hlt : index' < sys.unknowns.toList.length := lt_size_of_variableOf? hvariable
      rw [(List.getElem?_inj hlt hnodup).mp hget]

/-- A solution is given by the slots of the units. -/
theorem valuesAt_slotsOf {sys : ConstraintSystem} {placed : List (UnitId × Nat)}
    (hnodup : sys.unknowns.toList.Nodup) (hunits : placed.map Prod.fst = sys.unknowns.toList) :
    sys.valuesAt (slotsOf g sys (valuesOf placed)) = valuesOf placed := by
  funext index
  cases hid : sys.unknowns[index]? with
  | some id =>
      rw [valuesAt, hid, Option.map_some, Option.getD_some, slotsOf, valueOf?,
        variableOf?_of_getElem? hnodup hid]
      rfl
  | none =>
      have hplaced : placed[index]? = none := by
        have hsame := congrArg (·[index]?) hunits
        simpa [hid] using hsame
      rw [valuesAt, hid, valuesOf, hplaced]
      rfl

/-- No earliest slot is later than all latencies together allow. -/
theorem le_lastSlot_of_earliest {sys : ConstraintSystem} {placed : List (UnitId × Nat)}
    (hg : Ready g bounds ahead behind) (hflows : Flows g bounds exit latencies start wait)
    (hbuild : build g bounds = .ok sys) (hplaced : sys.earliest = .ok placed)
    (hid : g.IsControl id) :
    slotsOf g sys (valuesOf placed) id ≤ lastSlot g latencies start wait := by
  obtain ⟨sys', found, hbuild', hlight, htraced, hexchange⟩ := exists_build_squeezes hg
  obtain rfl : sys = sys' := Except.ok.inj (hbuild.symm.trans hbuild')
  obtain ⟨base, hbase⟩ := exists_describes hbuild
  have hclosed := hbase.grows.closed hbase.free.closed
  have hnodup : sys.unknowns.toList.Nodup := hbase.grows.keepsUnits ▸ hbase.free.nodup
  have hvalues := valuesAt_slotsOf (g := g) hnodup (earliest_eq_ok hclosed hplaced).2.1
  have hagrees := agreesWith_slotsOf hbase.free hbase.grows (valuesOf placed)
  obtain ⟨hsolves, hleast⟩ := earliest_least hclosed hlight hplaced
  have hsolves' := hexchange (squeezes_compressed hflows hg.toListed htraced hagrees)
    (by rwa [hvalues])
  cases hvariable : sys.variableOf? id with
  | some index =>
      have hle := hleast _ hsolves' index (lt_size_of_variableOf? hvariable)
      rw [valuesAt, variableOf?_eq_some hvariable] at hle
      rw [slotsOf, valueOf?, hvariable]
      exact hle.trans (compressed_le_lastSlot id)
  | none =>
      cases hslot : g.slot? id with
      | some slot =>
          have hstart := hflows.slots hid hslot
          rw [hagrees hid hslot, lastSlot]
          omega
      | none =>
          rw [slotsOf, valueOf?, hvariable, hslot]
          exact Int.natCast_nonneg _

end ControlSystem

end SlotScheduling
