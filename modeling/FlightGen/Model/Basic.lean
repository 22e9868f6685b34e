import FlightGen.Definition.Basic
import FlightGen.Expr.Basic

/-! Resolved models. References are positions in the lists that hold the elements,
and every name has its identifier. -/

namespace FlightGen

/-- A text of the definition with the identifier that the emitted code uses for it. -/
structure Name where
  raw : String
  ident : String
deriving Repr, DecidableEq

structure Field where
  name : Name
  scalar : Scalar
deriving DecidableEq

structure RecordType where
  name : Name
  fields : List Field
deriving DecidableEq

def RecordType.field? (r : RecordType) (raw : String) : Option Field :=
  r.fields.find? (·.name.raw = raw)

/-- The value that a node yields; for an opaque action, the position of an output. -/
structure Outlet where
  node : Nat
  pin : Option Nat
deriving Repr, DecidableEq

structure Pin where
  name : Name
  scalar : Scalar
  source : Option Outlet
deriving DecidableEq

/-- A value for the parameter node at a position of the called activity. -/
structure Argument where
  parameter : Nat
  source : Outlet
deriving DecidableEq

inductive ParameterType where
  | record (index : Nat)
  | scalar (s : Scalar)
deriving Repr, DecidableEq

inductive Action where
  | opaqueAction (body : String) (language : Option String) (inputs outputs : List Pin)
  | call (target : Nat) (arguments : List Argument)
  | read (object : Outlet) (feature : String)
  | write (object : Outlet) (feature : String) (value : Outlet)
  | fork (branches : List Nat)
  | join (inputs : List Nat)
  | create (record : Nat)
  | parameter (direction : Direction) (name : Name) (type : ParameterType) (source : Option Outlet)
  | literal (value : Value)
deriving DecidableEq

/-- A node; the variable of its value is named by `ident`. -/
structure Node where
  id : String
  ident : String
  action : Action
deriving DecidableEq

structure Activity where
  name : Name
  nodes : List Node
  /-- Pairs of nodes of which the first has to come first. -/
  edges : List (Nat × Nat)
deriving DecidableEq

namespace Activity

/-- The action of a node. Beyond the nodes there are only forks without branches. -/
def action (a : Activity) (node : Nat) : Action :=
  (a.nodes[node]?.map (·.action)).getD (.fork [])

def nodeId (a : Activity) (node : Nat) : String :=
  (a.nodes[node]?.map (·.id)).getD ""

def isParameter (a : Activity) (direction : Direction) (node : Nat) : Bool :=
  match a.action node with
  | .parameter d _ _ _ => d = direction
  | _ => false

/-- The parameter nodes of a direction, in their order. -/
def parameters (a : Activity) (direction : Direction) : List Nat :=
  (List.range a.nodes.length).filter (a.isParameter direction)

end Activity

/-- A guard as written, and as a condition over attribute identifiers. -/
structure Guard where
  source : String
  condition : Expr
deriving DecidableEq

structure State where
  name : Name
  activities : List Nat
deriving DecidableEq

structure Transition where
  source : Nat
  target : Nat
  guard : Option Guard
  /-- The position of the command that takes it. -/
  trigger : Option Nat
deriving DecidableEq

inductive CommandKind where
  | start
  | stop
  | trigger (signal : String)
deriving Repr, DecidableEq

structure Command where
  mnemonic : String
  kind : CommandKind
deriving Repr, DecidableEq

structure Component where
  name : Name
  machine : Name
  states : List State
  initial : Nat
  transitions : List Transition
  activities : List Activity
  attributes : List Field
  /-- Start and stop, then one command for each signal. -/
  commands : List Command
deriving DecidableEq

namespace Component

def guardCount (c : Component) : Nat :=
  c.transitions.countP (·.guard.isSome)

def activityIdent (c : Component) (activity : Nat) : String :=
  (c.activities[activity]?.map (·.name.ident)).getD ""

/-- The name under which an activity is known across components. -/
def qualified (c : Component) (activity : Nat) : String :=
  c.name.ident ++ "::" ++ c.activityIdent activity

end Component

structure Model where
  recordTypes : List RecordType
  components : List Component
deriving DecidableEq

def Model.component? (m : Model) (raw : String) : Option Component :=
  m.components.find? (·.name.raw = raw)

/-! ### Names that every component uses -/

def startCommand : String := "START_STATE_MACHINE"
def stopCommand : String := "STOP_STATE_MACHINE"

/-- The telemetry channel that carries the name of the state entered last. -/
def telemetryChannel : String := "CurrentState"

/-- The event that carries the names of the two states of a transition. -/
def transitionEvent : String := "StateTransition"

def fixedMethods : List String :=
  ["initializeStateMachine", "processStateMachine", "transitionToState", "getStateName",
    "schedIn_handler"]

/-- Attributes whose members the emitted class declares anyway. -/
def fixedMembers : List String := ["currentState", "stateMachineActive"]

def guardMethod (n : Nat) : String :=
  "guard_" ++ toString n

/-- Names that no variable of an activity may take: the methods of the class and the
types that bodies spell out. -/
def classScopeNames (guards : Nat) (activities records : List String) : List String :=
  fixedMethods ++ (List.range guards).map guardMethod ++ activities ++ records ++ ["F64"]

end FlightGen
