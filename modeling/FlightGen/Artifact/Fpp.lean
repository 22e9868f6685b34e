import FlightGen.Artifact.Bundle
import FlightGen.Artifact.Line

/-! The FPP model of a component, from which the flight framework makes its base
class. -/

namespace FlightGen

open Line (code blank indent braced)

namespace Fpp

/-- The longest name of a state that channel and event carry. -/
def nameSize : Nat := 40

def nameType : String :=
  "string size " ++ toString nameSize

def remark (text : String) : Line :=
  ⟨0, .noted "" .atSign text⟩

def ports : List Line :=
  [remark "Scheduler tick, one dispatch per call",
    code "sync input port schedIn: Svc.Sched",
    blank,
    code "command recv port cmdIn",
    code "command reg port cmdRegOut",
    code "command resp port cmdResponseOut",
    code "event port eventOut",
    code "text event port textEventOut",
    code "telemetry port tlmOut",
    code "time get port timeCaller"]

/-- Commands have their positions as opcodes. -/
def commands (m : Machine) : List Line :=
  m.commands.zipIdx.map fun (c, opcode) =>
    code ("async command " ++ c.mnemonic ++ " opcode " ++ toString opcode)

def telemetry : List Line :=
  [remark "Most recently entered state",
    code ("telemetry " ++ telemetryChannel ++ ": " ++ nameType ++ " id 0")]

def event : List Line :=
  [code ("event " ++ transitionEvent ++ "(fromState: " ++ nameType ++ ", toState: " ++
    nameType ++ ") \\")] ++
  indent [code "severity activity high \\", code "id 0 \\",
    code "format \"State transition: \x7b\x7d -> \x7b\x7d\""]

def component (m : Machine) : List Line :=
  braced ("active component " ++ m.component.ident)
    ([blank] ++ ports ++ [blank] ++ commands m ++ [blank] ++ telemetry ++ [blank] ++ event ++
      [blank])

def lines (b : Bundle) : List Line :=
  let m := b.machine
  b.namespaces.foldr (fun name inner => braced ("module " ++ name) inner)
    ([blank, remark (m.component.raw ++ " driven by state machine " ++ m.name)] ++
      component m ++ [blank])

end Fpp

end FlightGen
