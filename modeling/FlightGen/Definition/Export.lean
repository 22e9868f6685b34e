import FlightGen.Definition.Basic
import FlightGen.Json.Decode
import FlightGen.Json.Parser

/-! The export format of models: JSON in which types are named by text and literals
are arbitrary values. A text is first read as a whole, then its types and literals
are made out. -/

namespace FlightGen

namespace Export

structure Field where
  name : String
  type : String

structure RecordType where
  name : String
  fields : List Field

structure Pin where
  name : String
  type : String
  source : Option String

structure Argument where
  parameter : String
  source : String

inductive Action where
  | opaqueAction (body : String) (language : Option String) (inputs outputs : List Pin)
  | call (behavior : String) (arguments : List Argument)
  | read (object feature : String)
  | write (object feature value : String)
  | fork (branches : List String)
  | join (inputs : List String)
  | create (classifier : String)
  | parameter (direction : Direction) (name type : String) (source : Option String)
  | literal (value : Json)

structure Node where
  id : String
  name : Option String
  action : Action

structure Activity where
  name : String
  nodes : List Node
  edges : List Definition.Edge

structure Component where
  name : String
  attributes : List Field
  machine : Definition.Machine
  activities : List Activity

end Export

structure Export where
  recordTypes : List Export.RecordType
  components : List Export.Component

/-- Why a text is no model definition. -/
inductive ExportError where
  /-- The text is not JSON, or not of this format. -/
  | malformed
  | nonScalarLiteral (node : String) (literal : Json)
  | unsupportedType (element type : String)

def ExportError.message : ExportError → String
  | malformed => "Invalid export data"
  | nonScalarLiteral node literal =>
    "Invalid export data: value specification '" ++ node ++ "' holds a non-scalar literal: " ++
      literal.text
  | unsupportedType element type =>
    "Element '" ++ element ++ "' has an unsupported type '" ++ type ++ "'"

/-! ### Reading the format -/

namespace Export

open Json (required optional string? nullable list)

def optionalText (position : Nat) (key : String) (j : Json) : Option (Option String) :=
  optional (nullable string?) none position [key] j

def Field.ofJson? (j : Json) : Option Field := do
  guard (j.isRecord 2)
  return {
    name := ← required string? 0 "name" j
    type := ← required string? 1 "type" j }

def RecordType.ofJson? (j : Json) : Option RecordType := do
  guard (j.isRecord 2)
  return {
    name := ← required string? 0 "name" j
    fields := ← optional (list Field.ofJson?) [] 1 ["fields"] j }

def Pin.ofJson? (j : Json) : Option Pin := do
  guard (j.isRecord 3)
  return {
    name := ← required string? 0 "name" j
    type := ← required string? 1 "type" j
    source := ← optionalText 2 "from" j }

def Argument.ofJson? (j : Json) : Option Argument := do
  guard (j.isRecord 2)
  return {
    parameter := ← required string? 0 "parameter" j
    source := ← required string? 1 "from" j }

def direction? : Json → Option Direction :=
  Json.choice? (fun
    | .null => true
    | .object [] => true
    | _ => false) [("in", .input), ("out", .output)]

/-- The kinds of nodes with their tags; a tag may also be given by its position. -/
def tags : List String :=
  ["uml:OpaqueAction", "uml:CallBehaviorAction", "uml:ReadStructuralFeatureAction",
    "uml:AddStructuralFeatureValueAction", "uml:ForkNode", "uml:JoinNode",
    "uml:CreateObjectAction", "uml:ActivityParameterNode", "uml:ValueSpecificationAction"]

def tag? : Json → Option String
  | .string s => some s
  | .whole (.ofNat n) => tags[n]?
  | _ => none

def Action.ofJson? (j : Json) : Option Action := do
  match ← required tag? 0 "type" j with
  | "uml:OpaqueAction" =>
    return .opaqueAction (← required string? 0 "body" j) (← optionalText 0 "language" j)
      (← optional (list Pin.ofJson?) [] 0 ["inputs"] j)
      (← optional (list Pin.ofJson?) [] 0 ["outputs"] j)
  | "uml:CallBehaviorAction" =>
    return .call (← required string? 0 "behavior" j)
      (← optional (list Argument.ofJson?) [] 0 ["arguments"] j)
  | "uml:ReadStructuralFeatureAction" =>
    return .read (← required string? 0 "object" j) (← required string? 0 "feature" j)
  | "uml:AddStructuralFeatureValueAction" =>
    return .write (← required string? 0 "object" j) (← required string? 0 "feature" j)
      (← required string? 0 "value" j)
  | "uml:ForkNode" => return .fork (← optional (list string?) [] 0 ["branches"] j)
  | "uml:JoinNode" => return .join (← optional (list string?) [] 0 ["inputs"] j)
  | "uml:CreateObjectAction" => return .create (← required string? 0 "classifier" j)
  | "uml:ActivityParameterNode" =>
    return .parameter (← required direction? 0 "direction" j)
      (← required string? 0 "parameter" j) (← required string? 0 "parameterType" j)
      (← optionalText 0 "from" j)
  | "uml:ValueSpecificationAction" => return .literal (← required some 0 "value" j)
  | _ => none

/-- Containers may nest to this depth inside a node, which itself stands six deep. -/
def nodeDepthLimit : Nat := 121

/-- A node is always an object, and all of it has to be usable. -/
def Node.ofJson? (j : Json) : Option Node := do
  match j with
  | .object _ =>
    guard (j.usable && j.depth ≤ nodeDepthLimit)
    return {
      id := ← required string? 0 "id" j
      name := ← optionalText 0 "name" j
      action := ← Action.ofJson? j }
  | _ => none

def edge? (j : Json) : Option Definition.Edge := do
  guard (j.isRecord 2)
  return {
    source := ← required string? 0 "source" j
    target := ← required string? 1 "target" j }

def Activity.ofJson? (j : Json) : Option Activity := do
  guard (j.isRecord 3)
  return {
    name := ← required string? 0 "name" j
    nodes := ← optional (list Node.ofJson?) [] 1 ["nodes"] j
    edges := ← optional (list edge?) [] 2 ["edges"] j }

def state? (j : Json) : Option Definition.State := do
  guard (j.isRecord 2)
  return {
    name := ← required string? 0 "name" j
    activities := ← optional (list string?) [] 1 ["doActivities", "activities"] j }

def transition? (j : Json) : Option Definition.Transition := do
  guard (j.isRecord 4)
  return {
    source := ← required string? 0 "source" j
    target := ← required string? 1 "target" j
    guard := ← optionalText 2 "guard" j
    trigger := ← optionalText 3 "trigger" j }

def machine? (j : Json) : Option Definition.Machine := do
  guard (j.isRecord 4)
  return {
    name := ← required string? 0 "name" j
    initial := ← required string? 1 "initial" j
    states := ← optional (list state?) [] 2 ["states"] j
    transitions := ← optional (list transition?) [] 3 ["transitions"] j }

def Component.ofJson? (j : Json) : Option Component := do
  guard (j.isRecord 4)
  return {
    name := ← required string? 0 "name" j
    attributes := ← optional (list Field.ofJson?) [] 1 ["attributes"] j
    machine := ← required machine? 2 "stateMachine" j
    activities := ← optional (list Activity.ofJson?) [] 3 ["activities"] j }

def ofJson? (j : Json) : Option Export := do
  guard (j.isRecord 2)
  return {
    recordTypes := ← optional (list RecordType.ofJson?) [] 0 ["recordTypes"] j
    components := ← required (list Component.ofJson?) 1 "components" j }

/-! ### Types and literals -/

def scalar (element type : String) : Except ExportError Scalar :=
  match Scalar.ofTypeName? type with
  | some s => .ok s
  | none => .error (.unsupportedType element type)

def Field.toDefinition (f : Field) : Except ExportError Definition.Field := do
  return ⟨f.name, ← scalar f.name f.type⟩

def Pin.toDefinition (node : String) (p : Pin) : Except ExportError Definition.Pin := do
  return ⟨p.name, ← scalar (node ++ "." ++ p.name) p.type, p.source.map .ofText⟩

def literalValue (node : String) (j : Json) : Except ExportError Value :=
  match j with
  | .bool b => .ok (.bool b)
  | j =>
    match j.float? with
    | some x => .ok (.number x)
    | none => .error (.nonScalarLiteral node j)

def Action.toDefinition (node : String) : Action → Except ExportError Definition.Action
  | opaqueAction body language inputs outputs => do
    return .opaqueAction body language (← inputs.mapM (Pin.toDefinition node))
      (← outputs.mapM (Pin.toDefinition node))
  | call behavior arguments =>
    .ok (.call behavior (arguments.map fun a => ⟨a.parameter, .ofText a.source⟩))
  | read object feature => .ok (.read (.ofText object) feature)
  | write object feature value => .ok (.write (.ofText object) feature (.ofText value))
  | fork branches => .ok (.fork branches)
  | join inputs => .ok (.join inputs)
  | create classifier => .ok (.create classifier)
  | parameter direction name type source =>
    .ok (.parameter direction name type (source.map .ofText))
  | literal value => do return .literal (← literalValue node value)

def Node.toDefinition (n : Node) : Except ExportError Definition.Node := do
  return ⟨n.id, n.name, ← n.action.toDefinition n.id⟩

def Activity.toDefinition (a : Activity) : Except ExportError Definition.Activity := do
  return ⟨a.name, ← a.nodes.mapM Node.toDefinition, a.edges⟩

/-- Activities are made out before attributes. -/
def Component.toDefinition (c : Component) : Except ExportError Definition.Component := do
  let activities ← c.activities.mapM Activity.toDefinition
  let attributes ← c.attributes.mapM Field.toDefinition
  return ⟨c.name, attributes, c.machine, activities⟩

def RecordType.toDefinition (r : RecordType) : Except ExportError Definition.RecordType := do
  return ⟨r.name, ← r.fields.mapM Field.toDefinition⟩

def toDefinition (e : Export) : Except ExportError Definition := do
  let recordTypes ← e.recordTypes.mapM RecordType.toDefinition
  let components ← e.components.mapM Component.toDefinition
  return ⟨recordTypes, components⟩

end Export

/-- Reads a model definition from its export text. -/
def Definition.ofText (source : String) : Except ExportError Definition :=
  match Json.parse? source >>= Export.ofJson? with
  | some e => e.toDefinition
  | none => .error .malformed

end FlightGen
