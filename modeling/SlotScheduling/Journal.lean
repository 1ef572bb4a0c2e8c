import SlotScheduling.Failure

/-!
# Journals and steps

A journal records the messages of the scheduler down to a chosen level.  A step works on a state:
it can fail, and the changes and messages it made before it failed remain.
-/

namespace SlotScheduling

/-- The levels of a message, from the most to the least urgent. -/
inductive Level
  | warn
  | info
  | debug
  | trace
  deriving DecidableEq, Repr

namespace Level

def rank : Level → Nat
  | .warn => 0
  | .info => 1
  | .debug => 2
  | .trace => 3

def label : Level → String
  | .warn => "WARN"
  | .info => "INFO"
  | .debug => "DEBUG"
  | .trace => "TRACE"

end Level

structure Journal where
  /-- The least urgent level that is recorded; without one, nothing is. -/
  threshold : Option Level := none
  lines : Array String := #[]
  deriving DecidableEq, Repr

namespace Journal

def records (journal : Journal) (level : Level) : Bool :=
  match journal.threshold with
  | none => false
  | some threshold => decide (level.rank ≤ threshold.rank)

/-- The text is made only when its level is recorded. -/
def note (journal : Journal) (level : Level) (text : Unit → String) : Journal :=
  if journal.records level then
    { journal with lines := journal.lines.push (level.label ++ " " ++ text ()) }
  else journal

end Journal

/-- A state together with the journal kept while working on it. -/
structure Journaled (σ : Type) where
  state : σ
  journal : Journal

/-- Work on a state `σ` that yields an `α` or a failure. -/
abbrev Step (σ α : Type) := EStateM Failure (Journaled σ) α

namespace Step

variable {σ τ α : Type}

/-- A computation that changes nothing is a step on every state. -/
def ofChecked (result : Checked α) : Step σ α := fun now =>
  match result with
  | .ok value => .ok value now
  | .error failure => .error failure now

instance : MonadLift Checked (EStateM Failure (Journaled σ)) := ⟨ofChecked⟩

def current : Step σ σ := fun now => .ok now.state now

def replace (state : σ) : Step σ PUnit := fun now => .ok ⟨⟩ { now with state }

def update (change : σ → σ) : Step σ PUnit := fun now =>
  .ok ⟨⟩ { now with state := change now.state }

def fail (cause : SchedulingError) : Step σ α := fun now => .error (.error cause) now

def note (level : Level) (text : Unit → String) : Step σ PUnit := fun now =>
  .ok ⟨⟩ { now with journal := now.journal.note level text }

def records (level : Level) : Step σ Bool := fun now => .ok (now.journal.records level) now

def updateChecked (change : σ → Checked σ) : Step σ PUnit := fun now =>
  match change now.state with
  | .ok state => .ok ⟨⟩ { now with state }
  | .error failure => .error failure now

/-- Work on a part of the state, or on a state made from it, and put the outcome back, also when
the work fails. -/
def focus (part : σ → τ) (back : σ → τ → σ) (work : Step τ α) : Step σ α := fun now =>
  match work ⟨part now.state, now.journal⟩ with
  | .ok value inner => .ok value ⟨back now.state inner.state, inner.journal⟩
  | .error failure inner => .error failure ⟨back now.state inner.state, inner.journal⟩

/-- Work on a state of its own, of which only the final state and the messages remain. -/
def apart (start : τ) (work : Step τ α) : Step σ (α × τ) := fun now =>
  match work ⟨start, now.journal⟩ with
  | .ok value inner => .ok (value, inner.state) ⟨now.state, inner.journal⟩
  | .error failure inner => .error failure ⟨now.state, inner.journal⟩

theorem bind_eq_ok {β : Type} {first : Step σ α} {next : α → Step σ β} {now last : Journaled σ}
    {value : β} :
    (first >>= next) now = .ok value last ↔
      ∃ middle now', first now = .ok middle now' ∧ next middle now' = .ok value last := by
  show EStateM.bind first next now = _ ↔ _
  unfold EStateM.bind
  cases first now <;> simp [and_assoc]

end Step

end SlotScheduling
