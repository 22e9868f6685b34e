import FlightGen.Machine.Basic
import FlightGen.Json.Basic
import FlightGen.Run

/-! Running a machine. All that a component does to its surroundings is recorded as a
list of sink calls. -/

namespace FlightGen

/-- An effect that is visible outside a component. -/
inductive SinkCall where
  | log (source target : String)
  | telemetry (state : String)
  | response (opcode sequence : UInt32) (response : CommandResponse)
deriving Repr, DecidableEq

def SinkCall.isTelemetry : SinkCall → Bool
  | telemetry _ => true
  | _ => false

/-- The event that a log shows for a call of the named component. -/
def SinkCall.event (component : String) : SinkCall → Json
  | log source target => .object [("message", .string transitionEvent),
      ("component", .string component), ("from", .string source), ("to", .string target)]
  | telemetry state => .object [("message", .string telemetryChannel),
      ("component", .string component), ("state", .string state)]
  | response opcode sequence r => .object [("message", .string "command response"),
      ("component", .string component), ("opcode", .whole opcode.toNat),
      ("sequence", .whole sequence.toNat), ("response", .string r.text)]

inductive ExecutionError where
  | unreachableState (component : String) (value : UInt32)
  | unknownCommand (component command : String)
  | run (error : RunError)

def ExecutionError.message : ExecutionError → String
  | unreachableState component value =>
    "component '" ++ component ++ "': dispatch value " ++ toString value.toNat ++
      " matches no known state"
  | unknownCommand component command =>
    "component '" ++ component ++ "' exposes no command '" ++ command ++ "'"
  | run error => error.message

/-- A machine under way. -/
structure Execution where
  current : UInt32
  active : Bool
  attributes : List (String × Value)
  /-- The activities run so far. -/
  invoked : List String
  calls : List SinkCall

/-- The result of an operation that can fail, and the state it leaves. -/
abbrev Outcome := Except ExecutionError Unit × Execution

namespace Execution

/-- Stopped in the initial state, with all attributes zero. -/
def new (m : Machine) : Execution where
  current := m.valueOf m.initial
  active := false
  attributes := m.attributes.map fun a => (a.ident, a.scalar.zero)
  invoked := []
  calls := []

def emit (x : Execution) (call : SinkCall) : Execution :=
  { x with calls := x.calls ++ [call] }

/-- Sets an attribute that the component has. -/
def set? (x : Execution) (ident : String) (value : Value) : Option Execution :=
  if (x.attributes.lookup ident).isSome then
    some { x with
      attributes := x.attributes.map fun (k, v) => (k, if k = ident then value else v) }
  else none

/-- Changes the current state without any effect. -/
def force (x : Execution) (value : UInt32) : Execution :=
  { x with current := value }

/-! ### Starting and stopping -/

def lifecycleStep (m : Machine) (x : Execution) : LifecycleStep → Execution
  | .setCurrent state => { x with current := m.valueOf state }
  | .setActive active => { x with active }
  | .log source target => x.emit (.log (m.placeName source) (m.placeName target))
  | .telemetry state => x.emit (.telemetry (m.stateName state))

def start (m : Machine) (x : Execution) : Execution :=
  m.start.foldl (lifecycleStep m) x

def stop (m : Machine) (x : Execution) : Execution :=
  Machine.stop.foldl (lifecycleStep m) x

/-! ### Transitions -/

/-- Whether a transition is permitted under a valuation of the attributes. -/
def permits (m : Machine) (attributes : List (String × Value)) (t : Machine.Transition) :
    Except RunError Bool :=
  match t.guard.bind (m.guards[·]?) with
  | none => .ok true
  | some guard =>
    match guard.condition.eval (attributes.lookup ·) with
    | .ok (.bool b) => .ok b
    | .ok (.number _) => .ok false
    | .error e => .error (.expression e)

/-- The first permitted transition. -/
def choose (m : Machine) (attributes : List (String × Value)) :
    List Nat → Except RunError (Option Machine.Transition)
  | [] => .ok none
  | index :: rest =>
    match m.transitions[index]? with
    | none => choose m attributes rest
    | some t => do
      if ← permits m attributes t then return some t
      else choose m attributes rest

/-- Takes a transition. One that leads back to its source has no effect. -/
def take (m : Machine) (x : Execution) (t : Machine.Transition) : Execution :=
  if t.source = t.target then x
  else
    let x := x.emit (.log (m.stateName t.source) (m.stateName t.target))
    let x := x.emit (.telemetry (m.stateName t.target))
    { x with current := m.valueOf t.target }

/-- Takes the first permitted one of some transitions, if there is one. -/
def fire (m : Machine) (x : Execution) (candidates : List Nat) : Outcome :=
  match choose m x.attributes candidates with
  | .error e => (.error (.run e), x)
  | .ok none => (.ok (), x)
  | .ok (some t) => (.ok (), x.take m t)

def unreachable (m : Machine) (x : Execution) : ExecutionError :=
  .unreachableState m.component.ident x.current

/-! ### Commands -/

/-- Takes a transition of a command in the current state. -/
def trigger (m : Machine) (x : Execution) (c : Machine.Command) : Outcome :=
  match m.stateOf? x.current with
  | none => (.error (x.unreachable m), x)
  | some state => x.fire m ((c.arms.lookup state).getD [])

/-- Carries a command out. A component that is stopped refuses triggers. -/
def obey (m : Machine) (x : Execution) (c : Machine.Command) :
    Except ExecutionError CommandResponse × Execution :=
  match c.kind with
  | .start => (.ok .ok, x.start m)
  | .stop => (.ok .ok, x.stop m)
  | .trigger _ =>
    if x.active then
      let (result, x) := x.trigger m c
      (result.map fun _ => .ok, x)
    else (.ok .executionError, x)

/-- Handles a command and answers it. A command that fails is not answered. -/
def command (m : Machine) (x : Execution) (mnemonic : String) (opcode sequence : UInt32) :
    Outcome :=
  match m.command? mnemonic with
  | none => (.error (.unknownCommand m.component.ident mnemonic), x)
  | some c =>
    match x.obey m c with
    | (.error e, x) => (.error e, x)
    | (.ok r, x) => (.ok (), x.emit (.response opcode sequence r))

/-! ### Ticks -/

/-- Without a library, activities are only recorded. -/
def runActivity (library : Option Library) (a : Machine.ActivityRef) : Except RunError Unit :=
  match library with
  | none => .ok ()
  | some l => do discard (l.run a.qualified [])

def runActivities (library : Option Library) (x : Execution) :
    List Machine.ActivityRef → Outcome
  | [] => (.ok (), x)
  | a :: rest =>
    match runActivity library a with
    | .error e => (.error (.run e), x)
    | .ok () => runActivities library { x with invoked := x.invoked ++ [a.qualified] } rest

/-- Runs the activities of the current state, then takes the first transition that is
permitted. -/
def dispatch (m : Machine) (library : Option Library) (x : Execution) (arm : Machine.Arm) :
    Outcome :=
  match runActivities library x arm.activities with
  | (.error e, x) => (.error e, x)
  | (.ok (), x) => x.fire m arm.transitions

/-- One call of the scheduler. -/
def tick (m : Machine) (library : Option Library) (x : Execution) : Outcome :=
  if x.active then
    match (m.stateOf? x.current).bind (m.arms[·]?) with
    | none => (.error (x.unreachable m), x)
    | some arm => x.dispatch m library arm
  else (.ok (), x)

end Execution

end FlightGen
