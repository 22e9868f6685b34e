import FlightGen.Expr.Token

/-! What can be wrong with a model. Every error names the offending element by its
path, written `Component::Activity::node 'id'`. -/

namespace FlightGen

/-- The type of a value that flows through an activity: a scalar, or a record known by
its identifier. -/
inductive DataType where
  | scalar (s : Scalar)
  | record (ident : String)
deriving Repr, DecidableEq

def DataType.text : DataType → String
  | scalar s => s.text
  | record ident => "record " ++ ident

/-- The kinds of named elements that errors speak of. -/
inductive Element where
  | recordType
  | component
  | feature
  | state
  | activity
  | node
  | pin
  | inputPin
  | outputPin
  | parameter
  | dataType
deriving Repr, DecidableEq

def Element.label : Element → String
  | recordType => "record type"
  | component => "component"
  | feature => "attribute"
  | state => "state"
  | activity => "activity"
  | node => "node"
  | pin => "pin"
  | inputPin => "input pin"
  | outputPin => "output pin"
  | parameter => "parameter"
  | dataType => "type"

/-- What was needed, or stood instead, where a value is used. -/
inductive Shape where
  | value
  | record
  | typed (type : DataType)
  | outputParameter
  | missingOutput
  | controlNode
deriving Repr, DecidableEq

def Shape.text : Shape → String
  | value => "a value"
  | record => "a record"
  | typed type => type.text
  | outputParameter => "an output parameter"
  | missingOutput => "an opaque action without that output"
  | controlNode => "a control node"

/-- Why a text is no guard. -/
inductive GuardFault where
  | malformed (error : ParseError)
  | notBoolean (source : String)
deriving Repr, DecidableEq

def GuardFault.message : GuardFault → String
  | malformed error => error.message
  | notBoolean source => "guard '" ++ source ++ "' does not yield a boolean"

inductive ModelError where
  | unresolved (path : String) (element : Element) (reference : String)
  | duplicate (path : String) (element : Element) (name : String)
  | emptyStateMachine (path : String)
  | invalidIdentifier (path raw : String)
  | undeclaredFeature (path record feature : String)
  | invalidExpression (path : String) (fault : GuardFault)
  | orderViolation (path object : String)
  | cyclicDependency (path : String) (nodes : List String)
  | recursiveActivity (path : String) (chain : List String)
  | multipleOutputs (path : String) (count : Nat)
  | missingArgument (path parameter : String)
  | typeMismatch (path : String) (expected found : Shape)
  | unboundOutput (path : String)
deriving Repr, DecidableEq

def ModelError.message : ModelError → String
  | unresolved path element reference =>
    path ++ ": unresolved " ++ element.label ++ " reference '" ++ reference ++ "'"
  | duplicate path element name =>
    path ++ ": duplicate " ++ element.label ++ " name '" ++ name ++ "'"
  | emptyStateMachine path => path ++ ": state machine declares no states"
  | invalidIdentifier path raw =>
    path ++ ": name '" ++ raw ++ "' cannot be rendered as an identifier"
  | undeclaredFeature path record feature =>
    path ++ ": record type '" ++ record ++ "' declares no attribute '" ++ feature ++ "'"
  | invalidExpression path fault => path ++ ": invalid expression: " ++ fault.message
  | orderViolation path object =>
    path ++ ": write to '" ++ object ++ "' is ordered before the object is created or received"
  | cyclicDependency path nodes =>
    path ++ ": cyclic dependency between nodes [" ++ ", ".intercalate nodes ++ "]"
  | recursiveActivity path chain =>
    path ++ ": recursive activity invocation [" ++ " -> ".intercalate chain ++ "]"
  | multipleOutputs path count =>
    path ++ ": " ++ toString count ++
      " output parameters, but the target supports a single return channel"
  | missingArgument path parameter =>
    path ++ ": no argument bound for input parameter '" ++ parameter ++ "'"
  | typeMismatch path expected found =>
    path ++ ": expected " ++ expected.text ++ ", found " ++ found.text
  | unboundOutput path => path ++ ": output parameter has no incoming value"

end FlightGen
