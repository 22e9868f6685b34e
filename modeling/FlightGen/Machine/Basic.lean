import FlightGen.Model.Basic

/-! Machines: the state machine of a component as tables. There is one arm for each
state, with its activities and the transitions that ticks can take, and for each
command the transitions that it can take in each state. -/

namespace FlightGen

namespace Machine

/-- An activity by its name across components and by its method. -/
structure ActivityRef where
  qualified : String
  ident : String
deriving Repr, DecidableEq

structure State where
  name : Name
  /-- The number that stands for the state. -/
  value : UInt32
  activities : List ActivityRef

/-- The enumerator of a state. -/
def State.constant (s : State) : String :=
  "STATE_" ++ s.name.ident.toUpper

structure Transition where
  source : Nat
  target : Nat
  /-- The position of a guard; without one the transition is always permitted. -/
  guard : Option Nat
  trigger : Option Nat

structure Guard where
  method : String
  source : String
  condition : Expr

structure Arm where
  state : Nat
  activities : List ActivityRef
  /-- Positions of transitions, of which the first permitted one is taken. -/
  transitions : List Nat

structure Command where
  mnemonic : String
  kind : CommandKind
  /-- For each state that has any, the transitions that the command can take. -/
  arms : List (Nat × List Nat)

def Command.handler (c : Command) : String :=
  c.mnemonic ++ "_cmdHandler"

structure Attribute where
  ident : String
  scalar : Scalar

end Machine

/-- The member variable of an attribute. -/
def memberName (ident : String) : String :=
  "m_" ++ ident

structure Machine where
  component : Name
  name : String
  states : List Machine.State
  initial : Nat
  transitions : List Machine.Transition
  guards : List Machine.Guard
  arms : List Machine.Arm
  commands : List Machine.Command
  attributes : List Machine.Attribute

/-! ### Starting and stopping -/

/-- What a transition event names: a state, or a marker where there is none. -/
inductive Place where
  | marker (text : String)
  | state (index : Nat)
deriving Repr, DecidableEq

inductive LifecycleStep where
  | setCurrent (state : Nat)
  | setActive (active : Bool)
  | log (source target : Place)
  | telemetry (state : Nat)
deriving Repr, DecidableEq

/-- How a command is answered. -/
inductive CommandResponse where
  | ok
  | executionError
deriving Repr, DecidableEq

def CommandResponse.text : CommandResponse → String
  | ok => "OK"
  | executionError => "EXECUTION_ERROR"

/-- The name of a number that stands for no state. -/
def unknownState : String := "UNKNOWN"

namespace Machine

variable (m : Machine)

/-- Entering the initial state, which is reported as coming from nowhere. -/
def start : List LifecycleStep :=
  [.setCurrent m.initial, .setActive true, .log (.marker "INIT") (.state m.initial),
    .telemetry m.initial]

/-- Stopping leaves the state as it is and writes no telemetry. -/
def stop : List LifecycleStep :=
  [.setActive false, .log (.marker "ACTIVE") (.marker "STOPPED")]

/-! ### Access -/

def stateName (index : Nat) : String :=
  (m.states[index]?.map (·.name.ident)).getD unknownState

def placeName : Place → String
  | .marker text => text
  | .state index => m.stateName index

/-- The position of the state that a number stands for. -/
def stateOf? (value : UInt32) : Option Nat :=
  m.states.findIdx? (·.value = value)

def valueOf (index : Nat) : UInt32 :=
  (m.states[index]?.map (·.value)).getD 0

def constantOf (index : Nat) : String :=
  (m.states[index]?.map (·.constant)).getD ""

def command? (mnemonic : String) : Option Command :=
  m.commands.find? (·.mnemonic = mnemonic)

/-- The cases of the dispatch: every arm, and one for numbers of no state. -/
def caseCount : Nat :=
  m.arms.length + 1

/-- The activities that arms run, each once, in the order of their first use. -/
def referenced : List String :=
  (m.arms.flatMap fun arm => arm.activities.map (·.qualified)).eraseDups

end Machine

end FlightGen
