import SlotScheduling.Graph.Basic

/-!
# Listings

A graph as text, one line for each unit: its position, its block, its instructions, its function
unit, its slot, and a mark if it is a data-path unit that dangles.
-/

namespace SlotScheduling

namespace Instr

/-- An operation that the table does not have is listed as unknown. -/
def listing (ops : OpTable) : Instr → String
  | .entry _ => " entry"
  | .exit _ => " exit"
  | .op id =>
    match ops.get? id with
    | none => " <unknown>"
    | some operation =>
      match operation.operand with
      | none => " " ++ operation.opcode
      | some operand => " " ++ operation.opcode ++ " " ++ operand

end Instr

namespace ScheduleUnit

def listing (ops : OpTable) (unit : ScheduleUnit) : String :=
  let fused := unit.fused.map fun (instr, offset) => instr.listing ops ++ s!" {offset}"
  let slot := match unit.slot with
    | some slot => s!" @{slot}"
    | none => " @-"
  let mark := if unit.isData && unit.dangling then " <Dangling>" else ""
  s!"[{unit.id}] block#{unit.block}" ++ unit.lead.listing ops ++ String.join fused ++
    s!" {unit.funcUnit.text}" ++ slot ++ mark ++ "\n"

end ScheduleUnit

def Graph.listing (ops : OpTable) (g : Graph) : String :=
  String.join (g.units.toList.map (·.listing ops))

end SlotScheduling
