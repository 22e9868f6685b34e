import FlightGen.Model.Resolve
import FlightGen.Naming

/-! Building a model from its definition. Names get their identifiers and references
their positions in the order of declaration; the first problem ends the work. -/

namespace FlightGen

open Naming (assign assignFresh reserveAll)

/-! ### Fields -/

def buildField (scope : String) (f : Definition.Field) : Naming Field := do
  return ⟨⟨f.name, ← assign scope .field f.name⟩, f.scalar⟩

def buildFields (scope : String) (fields : List Definition.Field) : Naming (List Field) := do
  checkUnique scope .feature (fields.map (·.name))
  fields.mapM (buildField scope)

def buildRecordType (r : Definition.RecordType) : Naming RecordType := do
  let ident ← assign "" .recordType r.name
  let fields ← buildFields ("record " ++ r.name) r.fields
  return ⟨⟨r.name, ident⟩, fields⟩

/-! ### Activities -/

/-- What the nodes of an activity refer to. -/
structure ActivityScope where
  records : List RecordType
  component : Definition.Component
  activity : Definition.Activity
  /-- The path of the activity, which is also the scope of its variables. -/
  path : String

/-- The identifiers of the pins of a node, by their names. Pins of equal name share
one. -/
def namePins (path : String) (n : Definition.Node) : Naming (List (String × String)) :=
  match n.action with
  | .opaqueAction _ _ inputs outputs =>
    (inputs ++ outputs).mapM fun pin => do
      return (pin.name, ← assign (path ++ "::" ++ n.id) .localVar pin.name)
  | _ => return []

def pinName (idents : List (String × String)) (raw : String) : Name :=
  ⟨raw, (idents.lookup raw).getD raw⟩

/-- The text from which the variable of a node is named. -/
def variableText (n : Definition.Node) : String :=
  match n.action with
  | .parameter _ name _ _ => name
  | _ => n.name.getD n.id

namespace ActivityScope

variable (s : ActivityScope)

def outlet (path : String) (ref : Definition.ValueRef) : Except ModelError Outlet :=
  s.activity.outlet path ref

def inputPin (path : String) (idents : List (String × String)) (pin : Definition.Pin) :
    Except ModelError Pin :=
  match pin.source with
  | none => .error (.missingArgument path pin.name)
  | some source => do
    return ⟨pinName idents pin.name, pin.scalar, some (← s.outlet path source)⟩

def argument (path : String) (target : Definition.Activity) (a : Definition.Argument) :
    Except ModelError Argument := do
  let parameter ← target.input path a.parameter
  return ⟨parameter, ← s.outlet path a.source⟩

/-- Resolves the action of a node whose variable is `ident`. -/
def resolveAction (path ident : String) (idents : List (String × String)) :
    Definition.Action → Except ModelError Action
  | .opaqueAction body language inputs outputs => do
    checkUnique path .inputPin (inputs.map (·.name))
    checkUnique path .outputPin (outputs.map (·.name))
    let inputs ← inputs.mapM (s.inputPin path idents)
    let outputs := outputs.map fun pin => ⟨pinName idents pin.name, pin.scalar, none⟩
    return .opaqueAction body language inputs outputs
  | .call target arguments => do
    let index ← s.component.activity path target
    match s.component.activities[index]? with
    | some callee => return .call index (← arguments.mapM (s.argument path callee))
    | none => .error (.unresolved path .activity target)
  | .read object feature => do return .read (← s.outlet path object) feature
  | .write object feature value => do
    let object ← s.outlet path object
    return .write object feature (← s.outlet path value)
  | .fork branches => do return .fork (← branches.mapM (s.activity.node path))
  | .join inputs => do return .join (← inputs.mapM (s.activity.node path))
  | .create recordType => do return .create (← recordIndex s.records path recordType)
  | .parameter direction name type source => do
    let type ← parameterType s.records path type
    let source ← match direction, source with
      | .output, some ref => some <$> s.outlet path ref
      | _, _ => .ok none
    return .parameter direction ⟨name, ident⟩ type source
  | .literal value => .ok (.literal value)

def buildNode (n : Definition.Node) (idents : List (String × String)) : Naming Node := do
  let ident ← assignFresh s.path .localVar (variableText n)
  let action ← s.resolveAction (nodePath s.path n.id) ident idents n.action
  return ⟨n.id, ident, action⟩

def buildEdge (e : Definition.Edge) : Except ModelError (Nat × Nat) := do
  let path := s.path ++ "::edge '" ++ e.source ++ " -> " ++ e.target ++ "'"
  let source ← s.activity.node path e.source
  return (source, ← s.activity.node path e.target)

def buildEdges : Except ModelError (List (Nat × Nat)) :=
  s.activity.edges.mapM s.buildEdge

end ActivityScope

def Definition.Activity.parameterNames (a : Definition.Activity) : List String :=
  a.nodes.filterMap fun n =>
    match n.action with
    | .parameter _ name _ _ => some name
    | _ => none

/-- Builds an activity. Bodies name their pins verbatim, so that pins are named before
all other variables. -/
def buildActivity (s : ActivityScope) (classNames : List String) (name : Name) :
    Naming Activity := do
  checkUnique s.path .node (s.activity.nodes.map (·.id))
  reserveAll s.path .localVar classNames
  let pins ← s.activity.nodes.mapM (namePins s.path)
  reserveAll s.path .localVar (pins.flatten.map (·.2))
  let nodes ← (s.activity.nodes.zip pins).mapM fun (n, idents) => s.buildNode n idents
  checkUnique s.path .parameter s.activity.parameterNames
  let edges ← s.buildEdges
  return ⟨name, nodes, edges⟩

/-! ### State machines -/

/-- The name of the first input parameter of an activity. -/
def Activity.firstInput? (a : Activity) : Option String :=
  a.nodes.findSome? fun n =>
    match n.action with
    | .parameter .input name _ _ => some name.raw
    | _ => none

/-- An activity for a state. Nothing is passed to it, so that it takes no input. -/
def stateActivity (d : Definition.Component) (activities : List Activity) (path name : String) :
    Except ModelError Nat := do
  let index ← d.activity path name
  match activities[index]?.bind (·.firstInput?) with
  | some parameter => .error (.missingArgument path parameter)
  | none => return index

def stateActivities (d : Definition.Component) (activities : List Activity) (path : String)
    (names : List String) : Except ModelError (List Nat) :=
  names.mapM (stateActivity d activities path)

def buildState (d : Definition.Component) (activities : List Activity) (path : String)
    (s : Definition.State) : Naming State := do
  let here := path ++ "::state '" ++ s.name ++ "'"
  let indices ← stateActivities d activities here s.activities
  let ident ← assign path .state s.name
  return ⟨⟨s.name, ident⟩, indices⟩

/-- The command of a signal, added at the end if the signal is new. -/
def commandFor (commands : List Command) (mnemonic signal : String) : Nat × List Command :=
  match commands.findIdx? (·.kind = .trigger signal) with
  | some index => (index, commands)
  | none => (commands.length, commands ++ [⟨mnemonic, .trigger signal⟩])

def buildTrigger (scope : String) (commands : List Command) :
    Option String → Naming (Option Nat × List Command)
  | none => return (none, commands)
  | some signal => do
    let ident ← assign scope .command signal
    let (index, commands) := commandFor commands ident.toUpper signal
    return (some index, commands)

/-- Builds transitions in order and collects the commands of their signals. -/
def buildTransitions (d : Definition.Component) (attributes : List Field) (path : String)
    (commands : List Command) :
    List Definition.Transition → Naming (List Transition × List Command)
  | [] => return ([], commands)
  | t :: ts => do
    let here := path ++ "::transition '" ++ t.source ++ " -> " ++ t.target ++ "'"
    let source ← d.machine.state here t.source
    let target ← d.machine.state here t.target
    let guard ← resolveGuard? here attributes t.guard
    let (trigger, commands) ← buildTrigger d.name commands t.trigger
    let (rest, commands) ← buildTransitions d attributes path commands ts
    return (⟨source, target, guard, trigger⟩ :: rest, commands)

def lifecycleCommands : List Command :=
  [⟨startCommand, .start⟩, ⟨stopCommand, .stop⟩]

/-! ### Components -/

def buildActivityName (scope : String) (a : Definition.Activity) : Naming Name := do
  return ⟨a.name, ← assign scope .activity a.name⟩

/-- Names all activities of a component before any of them is built, since they refer
to each other. -/
def buildActivities (d : Definition.Component) (records : List RecordType) :
    Naming (List Activity) := do
  let guards := d.machine.transitions.countP (·.guard.isSome)
  reserveAll d.name .activity (fixedMethods ++ (List.range guards).map guardMethod)
  let names ← d.activities.mapM (buildActivityName d.name)
  let classNames := classScopeNames guards (names.map (·.ident)) (records.map (·.name.ident))
  (d.activities.zip names).mapM fun (activity, name) =>
    buildActivity ⟨records, d, activity, d.name ++ "::" ++ activity.name⟩ classNames name

def buildComponent (records : List RecordType) (d : Definition.Component) :
    Naming Component := do
  let ident ← assign "" .component d.name
  reserveAll d.name .field fixedMembers
  let attributes ← buildFields d.name d.attributes
  let path := d.name ++ "::" ++ d.machine.name
  if d.machine.states.isEmpty then
    Naming.fail (.emptyStateMachine path)
  checkUnique path .state (d.machine.states.map (·.name))
  checkUnique d.name .activity (d.activities.map (·.name))
  let activities ← buildActivities d records
  let states ← d.machine.states.mapM (buildState d activities path)
  let initial ← d.machine.state path d.machine.initial
  reserveAll d.name .command (lifecycleCommands.map (·.mnemonic))
  let (transitions, commands) ←
    buildTransitions d attributes path lifecycleCommands d.machine.transitions
  let machine ← assign d.name .component d.machine.name
  return {
    name := ⟨d.name, ident⟩
    machine := ⟨d.machine.name, machine⟩
    states, initial, transitions, activities, attributes, commands }

def buildModel (d : Definition) : Naming Model := do
  checkUnique "model" .recordType (d.recordTypes.map (·.name))
  checkUnique "model" .component (d.components.map (·.name))
  let recordTypes ← d.recordTypes.mapM buildRecordType
  let components ← d.components.mapM (buildComponent recordTypes)
  return ⟨recordTypes, components⟩

/-- Checks and resolves a definition. Either all of it resolves, or the first problem is
reported. -/
def Model.build (d : Definition) : Except ModelError Model := do
  let (model, _) ← (buildModel d).run {}
  return model

end FlightGen
