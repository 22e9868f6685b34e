import FlightGen.Flow.Basic

/-! Types of the values in an activity. A type follows value references, which end
at a parameter, a literal, an opaque action, a call or a created object. -/

namespace FlightGen

namespace Flow

variable (f : Flow)

def recordType? : DataType → Option RecordType
  | .record ident => f.records.find? (·.name.ident = ident)
  | .scalar _ => none

/-- A feature that `node` uses of an object. -/
def featureOf (node : Nat) (feature : String) (object : DataType) : Except ModelError Field :=
  match f.recordType? object with
  | none => .error (.typeMismatch (f.nodePath node) .record (.typed object))
  | some record =>
    match record.field? feature with
    | none => .error (.undeclaredFeature (f.nodePath node) record.name.raw feature)
    | some field => .ok field

def noValue (node : Nat) (found : Shape) : ModelError :=
  .typeMismatch (f.nodePath node) .value found

/-- The type behind an outlet that is at most a number of references deep. -/
def typeWithin : Nat → Outlet → Except ModelError DataType
  | depth, outlet =>
    match f.action outlet.node, depth with
    | .parameter .input _ type _, _ => .ok (f.dataType type)
    | .parameter .output .., _ => .error (f.noValue outlet.node .outputParameter)
    | .create record, _ => .ok (f.dataType (.record record))
    | .read object feature, depth + 1 => do
      let field ← f.featureOf outlet.node feature (← typeWithin depth object)
      return .scalar field.scalar
    | .write .., depth + 1 => do typeWithin depth ⟨← f.root outlet, none⟩
    | .literal value, _ => .ok (.scalar value.scalar)
    | .opaqueAction _ _ _ outputs, _ =>
      match outlet.pin.bind (outputs[·]?) with
      | some pin => .ok (.scalar pin.scalar)
      | none => .error (f.noValue outlet.node .missingOutput)
    | .call .., _ =>
      match (f.callees.lookup outlet.node).bind (·.outputs.head?) with
      | some slot => .ok slot.type
      | none => .error (.unboundOutput (f.nodePath outlet.node))
    | .fork _, _ | .join _, _ => .error (f.noValue outlet.node .controlNode)
    | .read .., 0 | .write .., 0 =>
      .error (.cyclicDependency (f.nodePath outlet.node) [f.activity.nodeId outlet.node])

/-- The type of the value at an outlet. References that end pass each node once. -/
def typeOf (outlet : Outlet) : Except ModelError DataType :=
  f.typeWithin (f.size + 1) outlet

def feature (node : Nat) (object : Outlet) (name : String) : Except ModelError Field := do
  f.featureOf node name (← f.typeOf object)

def expectType (node : Nat) (outlet : Outlet) (expected : DataType) : Except ModelError Unit := do
  let found ← f.typeOf outlet
  if found = expected then return ()
  else .error (.typeMismatch (f.nodePath node) (.typed expected) (.typed found))

/-- The activity behind a call, for its parameters. -/
def callee (target : Nat) : Activity :=
  f.component.activities[target]?.getD ⟨⟨"", ""⟩, [], []⟩

def argumentFor (node : Nat) (arguments : List Argument) (parameter : Nat) (name : String) :
    Except ModelError Argument :=
  match arguments.find? (·.parameter = parameter) with
  | some argument => .ok argument
  | none => .error (.missingArgument (f.nodePath node) name)

def checkPin (node : Nat) (pin : Pin) : Except ModelError Unit :=
  match pin.source with
  | some source => f.expectType node source (.scalar pin.scalar)
  | none => .ok ()

def checkArgument (node : Nat) (callee : Activity) (arguments : List Argument)
    (parameter : Nat) : Except ModelError Unit :=
  match callee.action parameter with
  | .parameter _ name type _ => do
    let argument ← f.argumentFor node arguments parameter name.raw
    f.expectType node argument.source (f.dataType type)
  | _ => .ok ()

/-- Checks the values that a node uses. -/
def checkNode (node : Nat) : Except ModelError Unit :=
  match f.action node with
  | .read object name => do discard (f.feature node object name)
  | .write object name value => do
    let field ← f.feature node object name
    f.expectType node value (.scalar field.scalar)
  | .opaqueAction _ _ inputs _ => inputs.forM (f.checkPin node)
  | .call target arguments =>
    let callee := f.callee target
    (callee.parameters .input).forM (f.checkArgument node callee arguments)
  | .parameter .output _ type source =>
    match source with
    | some source => f.expectType node source (f.dataType type)
    | none => .error (.unboundOutput (f.nodePath node))
  | _ => .ok ()

def checkTypes : Except ModelError Unit :=
  (List.range f.size).forM f.checkNode

end Flow

end FlightGen
