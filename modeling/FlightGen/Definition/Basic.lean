import FlightGen.Value

/-! Definitions of models as a modelling tool hands them over. Elements refer to each
other by name, and nothing is checked yet. -/

namespace FlightGen

namespace Definition

/-- A named scalar: a field of a record, or an attribute of a component. -/
structure Field where
  name : String
  scalar : Scalar

/-- A flat record of scalars. -/
structure RecordType where
  name : String
  fields : List Field

/-- The value that a node yields; `pin` selects an output of an opaque action. -/
structure ValueRef where
  node : String
  pin : Option String
deriving Repr, DecidableEq

/-- Reads `node` or `node.pin`; the first point divides. -/
def ValueRef.ofText (s : String) : ValueRef :=
  match s.toList.dropWhile (· ≠ '.') with
  | [] => ⟨s, none⟩
  | _ :: pin => ⟨String.ofList (s.toList.takeWhile (· ≠ '.')), some (String.ofList pin)⟩

/-- A typed pin of an opaque action. The body uses its name as a variable. -/
structure Pin where
  name : String
  scalar : Scalar
  /-- Where an input takes its value from. -/
  source : Option ValueRef

/-- A value for an input parameter of a called activity. -/
structure Argument where
  parameter : String
  source : ValueRef

end Definition

inductive Direction where
  | input
  | output
deriving Repr, DecidableEq

namespace Definition

inductive Action where
  /-- Text that runs as it stands, over variables named like the pins. -/
  | opaqueAction (body : String) (language : Option String) (inputs outputs : List Pin)
  | call (target : String) (arguments : List Argument)
  | read (object : ValueRef) (feature : String)
  | write (object : ValueRef) (feature : String) (value : ValueRef)
  | fork (branches : List String)
  | join (inputs : List String)
  | create (recordType : String)
  /-- `type` names a record type or a primitive type. -/
  | parameter (direction : Direction) (name type : String) (source : Option ValueRef)
  | literal (value : Value)

/-- The name of the UML element behind an action. -/
def Action.umlName : Action → String
  | opaqueAction .. => "OpaqueAction"
  | call .. => "CallBehaviorAction"
  | read .. => "ReadStructuralFeatureAction"
  | write .. => "AddStructuralFeatureValueAction"
  | fork .. => "ForkNode"
  | join .. => "JoinNode"
  | create .. => "CreateObjectAction"
  | parameter .. => "ActivityParameterNode"
  | literal .. => "ValueSpecificationAction"

/-- One step of an activity. The display name, if there is one, becomes the name of a
variable. -/
structure Node where
  id : String
  name : Option String
  action : Action

structure Edge where
  source : String
  target : String

/-- A graph of nodes; the order of the nodes matters only between nodes that are free
in order. -/
structure Activity where
  name : String
  nodes : List Node
  edges : List Edge

/-- A state with the activities that run on each tick in it. -/
structure State where
  name : String
  activities : List String

/-- A transition without guard is always permitted. One with a trigger is taken on the
command of that signal, one without on ticks. -/
structure Transition where
  source : String
  target : String
  guard : Option String
  trigger : Option String

structure Machine where
  name : String
  initial : String
  states : List State
  transitions : List Transition

structure Component where
  name : String
  attributes : List Field
  machine : Machine
  activities : List Activity

end Definition

structure Definition where
  recordTypes : List Definition.RecordType
  components : List Definition.Component

end FlightGen
