import FlightGen.Model.Resolve
import FlightGen.Routine

/-! An activity in its surroundings: the record types it uses, the component whose
other activities it calls, and the routines that these have become. -/

namespace FlightGen

structure Flow where
  records : List RecordType
  component : Component
  activity : Activity
  /-- The names of component and activity, for errors. -/
  path : String
  /-- The routine behind each call, by the position of the calling node. -/
  callees : List (Nat × Routine)

namespace Flow

variable (f : Flow)

def size : Nat :=
  f.activity.nodes.length

def action (node : Nat) : Action :=
  f.activity.action node

def nodePath (node : Nat) : String :=
  FlightGen.nodePath f.path (f.activity.nodeId node)

/-- Follows the objects of writes for a number of steps to a node that is no write. -/
def rootWithin : Nat → Nat → Option Nat
  | steps, node =>
    match f.action node, steps with
    | .write object _ _, steps + 1 => rootWithin steps object.node
    | .write .., 0 => none
    | _, _ => some node

/-- The node that produced the object behind an outlet. A write passes its object on. -/
def root (outlet : Outlet) : Except ModelError Nat :=
  match f.rootWithin f.size outlet.node with
  | some node => .ok node
  | none => .error (.cyclicDependency (f.nodePath outlet.node) [f.activity.nodeId outlet.node])

/-- A write to a feature of the object that `root` produced. -/
structure Write where
  node : Nat
  root : Nat
  feature : String

def write? (node : Nat) : Except ModelError (Option Write) :=
  match f.action node with
  | .write object feature _ => do return some ⟨node, ← f.root object, feature⟩
  | _ => .ok none

/-- All writes, in the order of the nodes. -/
def writes : Except ModelError (List Write) := do
  return (← (List.range f.size).mapM f.write?).filterMap id

def dataType : ParameterType → DataType
  | .record index => .record ((f.records[index]?.map (·.name.ident)).getD "")
  | .scalar s => .scalar s

def slot? (node : Nat) : Option Slot :=
  match f.action node with
  | .parameter _ name type _ => some ⟨name.raw, name.ident, f.dataType type⟩
  | _ => none

/-- The parameters of a direction. -/
def slots (direction : Direction) : List Slot :=
  (f.activity.parameters direction).filterMap f.slot?

end Flow

end FlightGen
