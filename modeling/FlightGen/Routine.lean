import FlightGen.Model.Error

/-! Routines: activities as straight-line steps over named variables. -/

namespace FlightGen

/-- A parameter of a routine. -/
structure Slot where
  raw : String
  ident : String
  type : DataType
deriving Repr, DecidableEq

/-- A variable of a block. It starts with the value of an outer variable, or at zero. -/
structure BlockLocal where
  name : String
  scalar : Scalar
  source : Option String
deriving Repr, DecidableEq

/-- A variable of a block whose value outlives the block. -/
structure BlockExport where
  outer : String
  name : String
  scalar : Scalar
deriving Repr, DecidableEq

inductive Operation where
  /-- Takes an input. A record that the routine writes to is copied first. -/
  | receive (parameter var : String) (type : DataType) (copy : Bool)
  | create (var record : String) (fields : List (String × Scalar))
  | literal (var : String) (value : Value)
  | read (var object feature : String) (scalar : Scalar)
  | write (object feature value : String)
  /-- Lines of text that run over variables of their own. -/
  | block (locals : List BlockLocal) (body : List String) (exports : List BlockExport)
  /-- Calls the routine `target`, whose method is `method`. -/
  | call (result : Option (String × DataType)) (target method : String) (arguments : List String)
  | fork (branches : List String)
  | join (inputs : List String)
  | output (slot : Nat) (var : String)
deriving DecidableEq

/-- An operation with the id of the node it stands for. -/
structure Step where
  node : String
  operation : Operation
deriving DecidableEq

structure Routine where
  component : String
  raw : String
  ident : String
  inputs : List Slot
  outputs : List Slot
  steps : List Step
  /-- Names of the routines that this one calls. -/
  calls : List String
deriving DecidableEq

def sortedDistinct (names : List String) : List String :=
  names.eraseDups.mergeSort (fun a b => decide (a ≤ b))

def Operation.target? : Operation → Option String
  | call _ target _ _ => some target
  | _ => none

/-- Names of the routines that some steps call. -/
def calledNames (steps : List Step) : List String :=
  sortedDistinct (steps.filterMap (·.operation.target?))

namespace Routine

def qualified (r : Routine) : String :=
  r.component ++ "::" ++ r.ident

/-- Node ids in the order of their steps. -/
def order (r : Routine) : List String :=
  r.steps.map (·.node)

def position? (r : Routine) (node : String) : Option Nat :=
  r.steps.findIdx? (·.node = node)

end Routine

end FlightGen
