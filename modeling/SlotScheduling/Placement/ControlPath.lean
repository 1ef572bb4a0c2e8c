import SlotScheduling.Placement.ControlSystem
import SlotScheduling.Placement.Reanchoring

/-!
# Scheduling the control path

Free control units are placed as early as possible under their dependencies; units that have slots
stay where they are.  Where units share function units, the order of that first schedule becomes a
constraint of a second one.
-/

namespace SlotScheduling

/-- Outside of a search, a system without a solution is a broken contract. -/
def Checked.orMalformed {α : Type} : Checked α → Checked α
  | .error (.error cause) => .error (.error cause.asContract)
  | result => result

namespace ControlPath

def name : String := "control-path"

def description : String :=
  "ASAP scheduling of control units under dependency and resource constraints"

/-- The entry has a slot before anything else has. -/
def placeEntry : Step Graph PUnit :=
  Step.updateChecked fun g => do
    if (← g.unit g.entryRoot).slot = none then g.changeUnit g.entryRoot (·.place g.entrySlot)
    else return g

/-- Place the units of the first schedule again, in the order in which they issue there. -/
def placeInOrder (placed : List UnitId) (order : IssueOrder) : Step Graph PUnit := do
  Step.updateChecked (·.changeUnits placed (·.unplace))
  let system ← ControlSystem.build (← Step.current) { order := some order }
  let slots ← system.earliest.orMalformed
  Step.note .trace fun _ => s!"linear order added {order.edgeCount} edges"
  Step.updateChecked (·.placeAll slots)

def schedule : Step Graph PUnit := do
  placeEntry
  let g ← Step.current
  let system ← ControlSystem.build g {}
  let free := system.unknowns.size
  Step.note .debug fun _ =>
    s!"{name}: block#{g.entryBlock} with {free} free units, {system.constraintCount} constraints"
  if free = 0 then return
  let slots ← system.earliest.orMalformed
  Step.updateChecked (·.placeAll slots)
  let order ← IssueOrder.build (← Step.current)
  if order.isEmpty = false then placeInOrder (slots.map Prod.fst) order
  Graph.reanchor

end ControlPath

end SlotScheduling
