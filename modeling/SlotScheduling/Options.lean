import SlotScheduling.Journal
import SlotScheduling.Table

/-!
# Options

The switches of a pass are set by strings of the form `pass:switch` or `pass:switch=value`.  Each
string is read on its own into a `Reading`; the readings in order then give the values, where a
later string overrides an earlier one, and the warnings.
-/

namespace SlotScheduling

/-- The pieces of a text between the occurrences of a separator; always at least one. -/
def pieces (separator : Char) : List Char → List (List Char)
  | [] => [[]]
  | c :: rest =>
    if c = separator then [] :: pieces separator rest
    else
      match pieces separator rest with
      | [] => [[c]]
      | first :: others => (c :: first) :: others

structure Switch where
  name : String
  description : String
  default : Bool
  /-- The values that can be written after the switch. -/
  parse : String → Option Bool

namespace Switch

def parseBool : String → Option Bool
  | "true" => some true
  | "false" => some false
  | _ => none

end Switch

structure PassOptions where
  name : String
  description : String
  switches : List Switch := []

inductive Reading
  | silent
  | unknown (switch : String)
  | invalid (switch value : String)
  | set (switch : String) (value : Bool)
  deriving DecidableEq, Repr

namespace PassOptions

/-- Only the first two pieces between colons count, and of the second only the first two pieces
between equals signs.  A switch without a value is switched on. -/
def read (pass : PassOptions) (text : String) : Reading :=
  match pieces ':' text.toList with
  | owner :: setting :: _ =>
    if String.ofList owner = pass.name then
      match pieces '=' setting with
      | [] => .silent
      | name :: values =>
        match pass.switches.find? (·.name = String.ofList name) with
        | none => .unknown (String.ofList name)
        | some switch =>
          match values with
          | [] => .set switch.name true
          | value :: _ =>
            match switch.parse (String.ofList value) with
            | none => .invalid switch.name (String.ofList value)
            | some value => .set switch.name value
    else .silent
  | _ => .silent

def given (readings : List Reading) : Table String Bool :=
  readings.foldl (fun table reading =>
    match reading with
    | .set switch value => table.insert switch value
    | _ => table) .empty

/-- Switches that are not set have their default, and come after those that are. -/
def withDefaults (pass : PassOptions) (table : Table String Bool) : Table String Bool :=
  pass.switches.foldl (fun table switch =>
    if table.contains switch.name then table else table.insert switch.name switch.default) table

def settings (pass : PassOptions) (texts : List String) : Table String Bool :=
  pass.withDefaults (given (texts.map pass.read))

def warning? (pass : PassOptions) : Reading → Option String
  | .unknown switch => some ("Ignoring unknown option for pass `" ++ pass.name ++ "`: " ++ switch)
  | .invalid switch value =>
    some ("Ignoring invalid value for option `" ++ pass.name ++ ":" ++ switch ++ "`: " ++ value)
  | _ => none

def summary (pass : PassOptions) (table : Table String Bool) : String :=
  let shown := table.entries.map fun entry => entry.1 ++ "->" ++ toString entry.2
  "Extra options for " ++ pass.name ++ ": " ++ String.intercalate ", " shown

/-- Read the strings, and note what could not be read and what was set. -/
def gather {σ : Type} (pass : PassOptions) (texts : List String) : Step σ (Table String Bool) := do
  let readings := texts.map pass.read
  for text in readings.filterMap pass.warning? do
    Step.note .warn fun _ => text
  Step.note .debug fun _ => pass.summary (given readings)
  return pass.settings texts

end PassOptions

/-- The choices that every scheduling pass sees. -/
structure SchedulingOptions where
  /-- Place data-path units as late as possible rather than as early as possible. -/
  dataPathLate : Bool := true
  /-- Give every data-path result a register. -/
  registerAll : Bool := false
  deriving DecidableEq, Repr

namespace SchedulingOptions

def lateSwitch : Switch where
  name := "datapath-alap"
  description :=
    "Schedule data-path operations as late as possible to allow more efficient resource sharing"
  default := true
  parse := Switch.parseBool

def registerSwitch : Switch where
  name := "disable-multi-cycles-chain"
  description := "Copy every data-path result into a register"
  default := false
  parse := Switch.parseBool

def pass : PassOptions where
  name := "sched"
  description := "Constraint-based scheduling of control-path and data-path units"
  switches := [lateSwitch, registerSwitch]

def ofSettings (table : Table String Bool) : SchedulingOptions where
  dataPathLate := (table.get? lateSwitch.name).getD lateSwitch.default
  registerAll := (table.get? registerSwitch.name).getD registerSwitch.default

def ofStrings (texts : List String) : SchedulingOptions :=
  ofSettings (pass.settings texts)

/-- The choices that a list of strings makes, noting what could not be read. -/
def gather {σ : Type} (texts : List String) : Step σ SchedulingOptions := do
  return ofSettings (← pass.gather texts)

end SchedulingOptions

end SlotScheduling
