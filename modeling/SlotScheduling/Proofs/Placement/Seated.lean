import SlotScheduling.Proofs.Acyclic.Assignments
import SlotScheduling.Proofs.Placement.Fitted

/-!
# Data paths with seats

What a control unit needs is live.  If slots for the live units of the data path go with a control
path that is in place, and the units that are not live, which are put into the last slot of the
block beforehand, leave room for them, then the data path can be scheduled.
-/

namespace SlotScheduling

open SlotScheduling.Graph

namespace Graph

variable {g h : Graph} {id source user : UnitId} {block : BlockId} {entrySlot : Nat}

/-- The unit is a control unit, or one depends on it. -/
def IsLive (g : Graph) (id : UnitId) : Prop := g.NeededBy g.controlUnits id

theorem isLive_of_outline_eq (hsame : h.outline = g.outline) : h.IsLive id ↔ g.IsLive id := by
  have himp : ∀ {g h : Graph}, h.outline = g.outline → h.IsLive id → g.IsLive id := by
    intro g h hsame hlive
    rw [IsLive, controlUnits_eq_of_outline_eq hsame] at hlive
    exact hlive.of_outline_eq hsame
  exact ⟨himp hsame, himp hsame.symm⟩

theorem IsControl.isLive (hg : g.Listed) (hid : g.IsControl id) : g.IsLive id :=
  .root (hg.control.mpr hid)

/-- Within a block, what a live unit depends on is live. -/
theorem IsLive.of_bundle? {bundle : EdgeBundle} (huser : g.IsLive user)
    (hg : g.OfBlock block entrySlot) (hbundle : g.bundle? user source = some bundle) :
    g.IsLive source := by
  obtain ⟨unit, hunit, hdep⟩ := exists_of_bundle? hbundle
  have hentry := Table.mem_entries_of_get?_eq_some hdep
  obtain ⟨producer, hproducer⟩ := hg.toWellFormed.exists_source hunit hentry
  refine .source huser ⟨unit, producer, hunit, Table.mem_keys_iff.mpr ⟨bundle, hdep⟩, hproducer, ?_⟩
  rw [(hg.units hunit).block, (hg.units hproducer).block]

end Graph

namespace DataPath

variable {h placed : Graph} {slots : UnitId → Int} {id : UnitId} {block : BlockId}
  {entrySlot last : Nat} {latencies : List (UnitId × Nat)} {options : SchedulingOptions}

section

variable (hg : h.OfBlock block entrySlot) (hsorts : Sorts h placed)

include hg hsorts

/-- In one block, the units that do not dangle are the live ones. -/
theorem isNeeded_iff_isLive : placed.IsNeeded id ↔ h.IsLive id := by
  refine ⟨fun hneeded => (hsorts.only hneeded).resolve_right ?_, hsorts.needed⟩
  rintro ⟨unit, hunit, hfrozen⟩
  rw [(hg.units hunit).unfrozen] at hfrozen
  cases hfrozen

theorem isFloating_iff_isLive : placed.IsFloating id ↔ h.IsData id ∧ h.IsLive id := by
  rw [Graph.IsFloating, isData_iff_of_frame_eq hsorts.frame, isNeeded_iff_isLive hg hsorts]

/-- What is not live goes into the last slot of the block. -/
theorem slot?_of_not_isLive (hlast : h.endSlot block = .ok (some last)) (hlt : id < h.units.size)
    (hdead : ¬h.IsLive id) : placed.slot? id = some last := by
  obtain ⟨unit, hunit, hcontrol⟩ := (isControl_or_isData hlt).resolve_left
    fun hcontrol => hdead (hcontrol.isLive hg.toListed)
  obtain ⟨slot, hend, hslot⟩ := hsorts.last hunit hcontrol
    fun hneeded => hdead ((isNeeded_iff_isLive hg hsorts).mp hneeded)
  rw [(hg.units hunit).block, hlast] at hend
  cases hend
  exact hslot

end

/-- The control path of a block is issued in these slots, and they are slots for the live units of
its data path, too: these keep to the block, and to the gaps to all units that they depend on or
that depend on them. -/
structure Seats (block : BlockId) (entrySlot : Nat) (slots : UnitId → Int) (h : Graph) : Prop
    extends OfBlock block entrySlot h, Tidy h where
  first : slots h.entryRoot = h.entrySlot
  issued : ∀ {id}, h.IsControl id → ∃ slot : Nat, h.slot? id = some slot ∧ slot = slots id
  after : ∀ {id}, h.IsData id → h.IsLive id → (h.entrySlot : Int) ≤ slots id
  before : ∀ {id}, h.IsData id → h.IsLive id →
    ∃ control, h.IsControl control ∧ slots id ≤ slots control
  met : ∀ {user source bundle gap}, h.bundle? user source = some bundle → h.IsLive user →
    h.IsData user ∨ h.IsData source → bundle.edge.minGap? (h.interval? block) = some gap →
    slots source + gap ≤ slots user

section

variable (hg : Seats block entrySlot slots h)

include hg

/-- The block ends with the last unit of its control path. -/
theorem Seats.exists_endSlot : ∃ last : Nat, h.endSlot block = .ok (some last) ∧
    (∀ {id}, h.IsControl id → slots id ≤ last) ∧ ∃ id, h.IsControl id ∧ slots id = last := by
  obtain ⟨unit, hunit, hcontrol⟩ := hg.root
  obtain ⟨slot, hslot, -⟩ := hg.issued hg.root
  have htaken : h.IsTaken block slot := ⟨_, unit, hunit, hcontrol, (hg.units hunit).block,
    (slot?_eq hunit).symm.trans hslot⟩
  obtain ⟨last, hlast, -⟩ := htaken.exists_endSlot hg.toListed
  obtain ⟨⟨id, unit, hunit, hcontrol, -, hslot⟩, hgreatest⟩ :=
    (endSlot_eq_some hg.toListed).mp hlast
  refine ⟨last, hlast, fun {id} hid => ?_, id, ⟨unit, hunit, hcontrol⟩, ?_⟩
  · obtain ⟨slot, hslot, heq⟩ := hg.issued hid
    obtain ⟨unit, hunit, hcontrol⟩ := hid
    have := hgreatest ⟨_, unit, hunit, hcontrol, (hg.units hunit).block,
      (slot?_eq hunit).symm.trans hslot⟩
    omega
  · obtain ⟨slot', hslot', heq⟩ := hg.issued ⟨unit, hunit, hcontrol⟩
    rw [slot?_eq hunit, hslot] at hslot'
    cases hslot'
    exact heq.symm

theorem Seats.firstSlot_eq (hsorts : Sorts h placed) : placed.firstSlot block = h.entrySlot := by
  obtain ⟨slot, hslot, heq⟩ := hg.issued hg.root
  have hholders := congrArg (fun g : Graph => g.holder? (.entry block)) hsorts.frame
  have hholder : placed.holder? (.entry block) = some h.entryRoot := hholders.trans hg.entry
  have hfixed : ¬placed.IsFloating h.entryRoot := fun hfloat =>
    hg.root.not_isData ((isFloating_iff_isLive hg.toOfBlock hsorts).mp hfloat).1
  rw [firstSlot, hholder, Option.bind_some, fixedSlot?_of_not_isFloating hfixed,
    hsorts.control hg.root, hslot, Option.getD_some]
  exact Int.ofNat_inj.mp (heq.trans hg.first)

variable (hroom : ∀ {user source bundle gap}, h.bundle? user source = some bundle →
  ¬h.IsLive user → h.IsData source → h.IsLive source →
  bundle.edge.minGap? (h.interval? block) = some gap →
  ∃ control, h.IsControl control ∧ slots source + gap ≤ slots control)

include hroom

/-- The slots of the live units, with the last one of the block for the others, fit around what is
placed beforehand. -/
theorem Seats.exists_fits (hsorts : Sorts h placed) (hsplit : Split placed) :
    ∃ values, Fits options placed values ∧
      ∀ {id}, placed.IsFloating id → values id = slots id := by
  classical
  obtain ⟨last, hlast, hgreatest, -⟩ := hg.exists_endSlot
  have hframe := hsorts.frame
  have hfloats : ∀ {id}, placed.IsFloating id ↔ h.IsData id ∧ h.IsLive id :=
    isFloating_iff_isLive hg.toOfBlock hsorts
  have hend : placed.endSlot block = .ok (some last) :=
    (endSlot_eq_of_frame_eq hg.toListed hframe hsorts.control).trans hlast
  refine ⟨fun id => if h.IsLive id then slots id else last, ⟨fun {id slot} hslot => ?_,
    fun {user source consumer bundle} hconsumer hdep hfloat gap hgap => ?_,
    fun {id unit} hunit hid _ => ?_⟩, fun hid => if_pos (hfloats.mp hid).2⟩
  · rw [hsplit.fixedSlot?_eq] at hslot
    obtain ⟨unit, hunit, -⟩ := Option.bind_eq_some_iff.mp hslot
    obtain ⟨start, hstart, -⟩ := exists_of_frame_eq hframe hunit
    have hlt := lt_size_of_getElem? hstart
    rcases isControl_or_isData hlt with hcontrol | hdata
    · obtain ⟨slot', hslot', heq⟩ := hg.issued hcontrol
      rw [hsorts.control hcontrol, hslot'] at hslot
      cases hslot
      rw [if_pos (hcontrol.isLive hg.toListed), heq]
    · have hdead : ¬h.IsLive id := fun hlive => by
        rw [hsplit.floating (hfloats.mpr ⟨hdata, hlive⟩)] at hslot
        cases hslot
      rw [slot?_of_not_isLive hg.toOfBlock hsorts hlast hlt hdead] at hslot
      cases hslot
      rw [if_neg hdead]
  · have hbundle : h.bundle? user source = some bundle := by
      rw [← bundle?_of_frame_eq hframe]
      exact (bundle?_eq hconsumer source).trans hdep
    obtain ⟨start, hstart, hagree⟩ := exists_of_frame_eq hframe hconsumer
    rw [hagree.block, (hg.units hstart).block, interval?_of_frame_eq hframe] at hgap
    rw [DepEdge.admits_iff_le (hg.toTidy.loose hbundle)]
    by_cases huser : h.IsLive user
    · rw [if_pos huser, if_pos (huser.of_bundle? hg.toOfBlock hbundle)]
      have := hg.met hbundle huser
        (hfloat.imp (fun hid => (hfloats.mp hid).1) fun hid => (hfloats.mp hid).1) hgap
      omega
    · -- The user is in the last slot already, so that the source is what floats.
      have hsource := hfloats.mp (hfloat.resolve_left fun hid => huser (hfloats.mp hid).2)
      obtain ⟨control, hcontrol, hle⟩ := hroom hbundle huser hsource.1 hsource.2 hgap
      have := hgreatest hcontrol
      rw [if_neg huser, if_pos hsource.2]
      omega
  · obtain ⟨start, hstart, hagree⟩ := exists_of_frame_eq hframe hunit
    obtain ⟨hdata, hlive⟩ := hfloats.mp hid
    have hblock : unit.block = block := hagree.block.trans (hg.units hstart).block
    rw [if_pos hlive, hblock]
    refine ⟨?_, fun _ => ⟨last, hend, ?_⟩⟩
    · rw [hg.firstSlot_eq hsorts]
      exact hg.after hdata hlive
    · obtain ⟨control, hcontrol, hle⟩ := hg.before hdata hlive
      exact hle.trans (hgreatest hcontrol)

/-- The data path can be scheduled if there are slots for it. -/
theorem Seats.exists_schedule {now : Journaled Graph} (hnow : now.state = h)
    (hspacious : Spacious block entrySlot last latencies h) :
    ∃ done, schedule options now = .ok ⟨⟩ done := by
  subst hnow
  refine DataPath.exists_schedule hspacious fun {placed} hsorts hsplit => ?_
  obtain ⟨values, hfits, hvalues⟩ := hg.exists_fits hroom hsorts hsplit
  refine ⟨values, hfits, fun {id} hid => ?_⟩
  obtain ⟨hdata, hlive⟩ := (isFloating_iff_isLive hg.toOfBlock hsorts).mp hid
  have hafter := hg.after hdata hlive
  -- A live unit issues no later than some control unit, which has a word already.
  obtain ⟨control, hcontrol, hle⟩ := hg.before hdata hlive
  obtain ⟨slot, hslot, heq⟩ := hg.issued hcontrol
  obtain ⟨slot', hslot', hlast⟩ := hspacious.issues hcontrol
  obtain rfl := Option.some.inj (hslot.symm.trans hslot')
  have hword := hspacious.last_lt
  rw [hvalues hid]
  omega

end

end DataPath

end SlotScheduling
