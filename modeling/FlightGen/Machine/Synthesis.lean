import FlightGen.Machine.Basic

/-! The machine of a component. -/

namespace FlightGen

namespace Component

variable (c : Component)

def activityRef (index : Nat) : Machine.ActivityRef :=
  ⟨c.qualified index, c.activityIdent index⟩

def machineStates : List Machine.State :=
  c.states.zipIdx.map fun (s, index) =>
    ⟨s.name, UInt32.ofNat index, s.activities.map c.activityRef⟩

/-- Numbers the guards of transitions from `next` on. -/
def numberGuards (next : Nat) : List Transition → List Machine.Transition
  | [] => []
  | t :: ts =>
    match t.guard with
    | some _ => ⟨t.source, t.target, some next, t.trigger⟩ :: numberGuards (next + 1) ts
    | none => ⟨t.source, t.target, none, t.trigger⟩ :: numberGuards next ts

def machineGuards : List Machine.Guard :=
  (c.transitions.filterMap (·.guard)).zipIdx.map fun (g, index) =>
    ⟨guardMethod index, g.source, g.condition⟩

/-- The transitions that leave a state by a trigger, or by none. -/
def leaving (state : Nat) (trigger : Option Nat) : List Nat :=
  (c.transitions.zipIdx.filter fun (t, _) => t.source = state && t.trigger = trigger).map (·.2)

def machineArms : List Machine.Arm :=
  c.states.zipIdx.map fun (s, index) =>
    ⟨index, s.activities.map c.activityRef, c.leaving index none⟩

def commandArms (command : Nat) : List (Nat × List Nat) :=
  ((List.range c.states.length).map fun state => (state, c.leaving state (some command))).filter
    (!·.2.isEmpty)

def machineCommand (index : Nat) (d : Command) : Machine.Command :=
  match d.kind with
  | .trigger _ => ⟨d.mnemonic, d.kind, c.commandArms index⟩
  | _ => ⟨d.mnemonic, d.kind, []⟩

/-- The tables of a component's state machine. -/
def synthesize : Machine where
  component := c.name
  name := c.machine.ident
  states := c.machineStates
  initial := c.initial
  transitions := numberGuards 0 c.transitions
  guards := c.machineGuards
  arms := c.machineArms
  commands := c.commands.zipIdx.map fun (d, index) => c.machineCommand index d
  attributes := c.attributes.map fun a => ⟨a.name.ident, a.scalar⟩

end Component

end FlightGen
