import FlightGen.Model.Basic
import FlightGen.Model.Error
import FlightGen.Expr.Parser

/-! Resolution of the references of a definition to positions. Every name that does
not resolve is reported with the path of the element that uses it. -/

namespace FlightGen

def nodePath (path id : String) : String :=
  path ++ "::node '" ++ id ++ "'"

/-- Reports the first name that stands a second time. -/
def checkUniqueAfter (path : String) (element : Element) (seen : List String) :
    List String → Except ModelError Unit
  | [] => .ok ()
  | name :: names =>
    if name ∈ seen then .error (.duplicate path element name)
    else checkUniqueAfter path element (name :: seen) names

def checkUnique (path : String) (element : Element) (names : List String) :
    Except ModelError Unit :=
  checkUniqueAfter path element [] names

/-- A position that was searched for, or the error that the reference leads nowhere. -/
def found (path : String) (element : Element) (reference : String) :
    Option Nat → Except ModelError Nat
  | some index => .ok index
  | none => .error (.unresolved path element reference)

namespace Definition

def Machine.state (m : Machine) (path name : String) : Except ModelError Nat :=
  found path .state name (m.states.findIdx? (·.name = name))

def Component.activity (c : Component) (path name : String) : Except ModelError Nat :=
  found path .activity name (c.activities.findIdx? (·.name = name))

def Activity.node (a : Activity) (path id : String) : Except ModelError Nat :=
  found path .node id (a.nodes.findIdx? (·.id = id))

def Node.isInput (name : String) (n : Node) : Bool :=
  match n.action with
  | .parameter .input p _ _ => p = name
  | _ => false

/-- The position of an input parameter of this activity, for a call from elsewhere. -/
def Activity.input (a : Activity) (path name : String) : Except ModelError Nat :=
  found path .parameter name (a.nodes.findIdx? (Node.isInput name))

/-- The output of an opaque action that a reference selects: the named one, or the only
one. -/
def outputPin (path : String) (ref : ValueRef) (outputs : List Pin) : Except ModelError Nat :=
  match ref.pin, outputs with
  | some pin, _ =>
    found path .pin (ref.node ++ "." ++ pin) (outputs.findIdx? (·.name = pin))
  | none, [_] => .ok 0
  | none, _ => .error (.unresolved path .pin (ref.node ++ ".<output>"))

def Activity.action? (a : Activity) (node : Nat) : Option Action :=
  a.nodes[node]?.map (·.action)

/-- A reference to a value. Outputs can be selected of opaque actions only. -/
def Activity.outlet (a : Activity) (path : String) (ref : ValueRef) : Except ModelError Outlet := do
  let node ← a.node path ref.node
  match a.action? node, ref.pin with
  | some (.opaqueAction _ _ _ outputs), _ => return ⟨node, some (← outputPin path ref outputs)⟩
  | _, some pin => .error (.unresolved path .pin (ref.node ++ "." ++ pin))
  | _, none => return ⟨node, none⟩

end Definition

def recordIndex (records : List RecordType) (path name : String) : Except ModelError Nat :=
  found path .recordType name (records.findIdx? (·.name.raw = name))

/-- The type of a parameter: a record type by its name, else a primitive type. -/
def parameterType (records : List RecordType) (path name : String) :
    Except ModelError ParameterType :=
  match records.findIdx? (·.name.raw = name) with
  | some index => .ok (.record index)
  | none =>
    match Scalar.ofTypeName? name with
    | some s => .ok (.scalar s)
    | none => .error (.unresolved path .dataType name)

/-! ### Guards -/

def attribute? (attributes : List Field) (raw : String) : Option Field :=
  attributes.find? (·.name.raw = raw)

def checkVariables (path : String) (attributes : List Field) :
    List String → Except ModelError Unit
  | [] => .ok ()
  | name :: names =>
    match attribute? attributes name with
    | some _ => checkVariables path attributes names
    | none => .error (.unresolved path .feature name)

/-- Whether an expression decides a transition: its root yields a boolean, or it is a
boolean attribute. -/
def isCondition (attributes : List Field) : Expr → Bool
  | .var name => (attribute? attributes name).any (·.scalar = .bool)
  | e => e.isBoolean

def attributeIdent (attributes : List Field) (raw : String) : String :=
  ((attribute? attributes raw).map (·.name.ident)).getD raw

/-- A guard over the attributes of a component. -/
def resolveGuard (path : String) (attributes : List Field) (source : String) :
    Except ModelError Guard :=
  match Expr.parse source with
  | .error e => .error (.invalidExpression path (.malformed e))
  | .ok e => do
    checkVariables path attributes e.vars
    if isCondition attributes e then
      return ⟨source, e.rename (attributeIdent attributes)⟩
    else .error (.invalidExpression path (.notBoolean source))

def resolveGuard? (path : String) (attributes : List Field) :
    Option String → Except ModelError (Option Guard)
  | none => .ok none
  | some source => some <$> resolveGuard path attributes source

end FlightGen
