import FlightGen.Flow.Dependency
import FlightGen.Flow.Typing
import FlightGen.Naming
import FlightGen.Text.Lines

/-! From an activity to a routine: a variable for every value, and one step for
every node. -/

namespace FlightGen

/-- The variables of a node: one for its value, and one for each output of an opaque
action. -/
structure NodeVars where
  value : String
  outputs : List String

namespace Flow

variable (f : Flow)

/-! ### Variables -/

def pinIdents : Action → List String
  | .opaqueAction _ _ inputs outputs => (inputs ++ outputs).map (·.name.ident)
  | _ => []

/-- Names that no additional variable may take. -/
def takenNames : List String :=
  classScopeNames f.component.guardCount (f.component.activities.map (·.name.ident))
    (f.records.map (·.name.ident)) ++
  f.activity.nodes.flatMap fun n => n.ident :: pinIdents n.action

def freshVar (text : String) : Naming String :=
  Naming.assignFresh "" .localVar text

/-- Names the variables of a node. A written input gets a copy beside the parameter. -/
def nameVars (written : List Nat) (index : Nat) (n : Node) : Naming NodeVars :=
  match n.action with
  | .parameter .input .. => do
    if index ∈ written then return ⟨← freshVar (n.ident ++ "_copy"), []⟩
    else return ⟨n.ident, []⟩
  | .opaqueAction _ _ _ outputs => do
    return ⟨n.ident, ← outputs.mapM fun pin => freshVar (n.ident ++ "_" ++ pin.name.ident)⟩
  | _ => return ⟨n.ident, []⟩

/-- The variables of all nodes, where `written` are the roots of the writes. -/
def nodeVars (written : List Nat) : Except ModelError (List NodeVars) := do
  let naming : Naming (List NodeVars) := do
    Naming.reserveAll "" .localVar f.takenNames
    f.activity.nodes.zipIdx.mapM fun (n, index) => nameVars written index n
  let (vars, _) ← naming.run {}
  return vars

/-! ### Steps -/

def valueVar (vars : List NodeVars) (node : Nat) : String :=
  (vars[node]?.map (·.value)).getD ""

def outputVars (vars : List NodeVars) (node : Nat) : List String :=
  (vars[node]?.map (·.outputs)).getD []

/-- The variable that holds the value at an outlet. -/
def outletVar (vars : List NodeVars) (outlet : Outlet) : Except ModelError String :=
  match outlet.pin.bind ((outputVars vars outlet.node)[·]?) with
  | some var => .ok var
  | none => do return valueVar vars (← f.root outlet)

def inputLocal (vars : List NodeVars) (pin : Pin) : Except ModelError BlockLocal :=
  match pin.source with
  | some source => do return ⟨pin.name.ident, pin.scalar, some (← f.outletVar vars source)⟩
  | none => .ok ⟨pin.name.ident, pin.scalar, none⟩

/-- Adds the variable of an output pin, unless a pin before it shares the variable. -/
def addOutputLocal (locals : List BlockLocal) (pin : Pin) : List BlockLocal :=
  if locals.any (·.name = pin.name.ident) then locals
  else locals ++ [⟨pin.name.ident, pin.scalar, none⟩]

def blockExports (outer : List String) (outputs : List Pin) : List BlockExport :=
  (outer.zip outputs).map fun (var, pin) => ⟨var, pin.name.ident, pin.scalar⟩

def callArgument (vars : List NodeVars) (node : Nat) (callee : Activity)
    (arguments : List Argument) (parameter : Nat) : Except ModelError String := do
  let argument ← f.argumentFor node arguments parameter (callee.nodeId parameter)
  f.outletVar vars argument.source

/-- The operation that a node stands for. -/
def operation (vars : List NodeVars) (written : List Nat) (index : Nat) (n : Node) :
    Except ModelError Operation :=
  match n.action with
  | .parameter .input _ type _ =>
    .ok (.receive n.ident (valueVar vars index) (f.dataType type) (decide (index ∈ written)))
  | .parameter .output _ _ source =>
    match source with
    | none => .error (.unboundOutput (f.nodePath index))
    | some source => do
      let slot := ((f.slots .output).findIdx? (·.ident = n.ident)).getD 0
      return .output slot (← f.outletVar vars source)
  | .create record =>
    let record := f.records[record]?.getD ⟨⟨"", ""⟩, []⟩
    .ok (.create (valueVar vars index) record.name.ident
      (record.fields.map fun field => (field.name.ident, field.scalar)))
  | .literal value => .ok (.literal (valueVar vars index) value)
  | .read object name => do
    let field ← f.feature index object name
    return .read (valueVar vars index) (← f.outletVar vars object) field.name.ident field.scalar
  | .write object name value => do
    let field ← f.feature index object name
    let object ← f.outletVar vars object
    return .write object field.name.ident (← f.outletVar vars value)
  | .opaqueAction body _ inputs outputs => do
    let locals ← inputs.mapM (f.inputLocal vars)
    return .block (outputs.foldl addOutputLocal locals) (Text.trimmedLines body)
      (blockExports (outputVars vars index) outputs)
  | .call target arguments =>
    let callee := f.callee target
    match f.callees.lookup index with
    | none => .error (.unresolved (f.nodePath index) .activity callee.name.raw)
    | some routine => do
      let arguments ← (callee.parameters .input).mapM
        (f.callArgument vars index callee arguments)
      let result := routine.outputs.head?.map fun slot => (valueVar vars index, slot.type)
      return .call result routine.qualified routine.ident arguments
  | .fork branches => .ok (.fork (branches.map f.activity.nodeId))
  | .join inputs => .ok (.join (inputs.map f.activity.nodeId))

def step (vars : List NodeVars) (written : List Nat) (index : Nat) : Except ModelError Step :=
  match f.activity.nodes[index]? with
  | some n => do return ⟨n.id, ← f.operation vars written index n⟩
  | none => .ok ⟨"", .fork []⟩

/-- The steps of the nodes, in the given order. -/
def steps (order : List Nat) : Except ModelError (List Step) := do
  let written := (← f.writes).map (·.root)
  let vars ← f.nodeVars written
  order.mapM (f.step vars written)

/-- The routine of an activity, once its order and types are sound. -/
def lower : Except ModelError Routine := do
  let order ← f.order
  f.checkTypes
  let steps ← f.steps order
  return {
    component := f.component.name.ident
    raw := f.activity.name.raw
    ident := f.activity.name.ident
    inputs := f.slots .input
    outputs := f.slots .output
    steps
    calls := calledNames steps }

end Flow

end FlightGen
