import FlightGen.Artifact.Header

/-! The C++ implementation of a component: its life cycle, dispatch and command
handlers, and a method for each guard and each routine. -/

namespace FlightGen

open Line (code note noted blank indent enclose braced separated)

namespace Implementation

/-- A definition with its body in braces on lines of their own. -/
def definition (head : List Line) (body : List Line) : List Line :=
  head ++ enclose (code "\x7b") body (code "\x7d") ++ [blank]

def method (head : String) (body : List Line) : List Line :=
  definition [code head] body

/-! ### Life cycle -/

def lifecycleLine (m : Machine) : LifecycleStep → Line
  | .setCurrent state => code ("m_currentState = " ++ m.constantOf state ++ ";")
  | .setActive active => code ("m_stateMachineActive = " ++ boolText active ++ ";")
  | .log source target =>
    .effect (.log (cppString (m.placeName source)) (cppString (m.placeName target)))
  | .telemetry state => .effect (.telemetry (cppString (m.stateName state)))

def initializers (m : Machine) : List String :=
  ["m_currentState(" ++ m.constantOf m.initial ++ ")", "m_stateMachineActive(false)"] ++
    m.attributes.map fun a => memberName a.ident ++ "(" ++ a.scalar.zeroLiteral ++ ")"

def lifecycleLines (b : Bundle) : List Line :=
  let c := b.className
  definition
    ([code (c ++ "::" ++ c ++ "(const char* const compName) :"),
      code ("  " ++ b.baseName ++ "(compName),")] ++ indent (separated (initializers b.machine)))
    [] ++
  method (c ++ "::~" ++ c ++ "()") [] ++
  method ("void " ++ c ++ "::initializeStateMachine()")
    (b.machine.start.map (lifecycleLine b.machine)) ++
  method ("void " ++ c ++
      "::schedIn_handler(const NATIVE_INT_TYPE portNum, NATIVE_UINT_TYPE context)")
    [code "processStateMachine();"]

/-! ### Transitions -/

/-- A call that makes a transition, behind a guard or by itself. -/
structure Candidate where
  guard : Option String
  target : String

/-- The candidates for a list of transitions. One without guard ends the list. -/
def candidates (m : Machine) : List Nat → List Candidate
  | [] => []
  | index :: rest =>
    match m.transitions[index]? with
    | none => candidates m rest
    | some t =>
      match t.guard.bind (m.guards[·]?) with
      | some guard => ⟨some guard.method, m.constantOf t.target⟩ :: candidates m rest
      | none => [⟨none, m.constantOf t.target⟩]

def Candidate.lines (c : Candidate) : List Line :=
  let transition := code ("transitionToState(" ++ c.target ++ ");")
  match c.guard with
  | some guard => braced ("if (" ++ guard ++ "())") [transition, code "break;"]
  | none => [transition]

def candidateLines (m : Machine) (transitions : List Nat) : List Line :=
  (candidates m transitions).flatMap (·.lines)

def caseLines (label : String) (body : List Line) : List Line :=
  code (label ++ ":") :: indent (body ++ [code "break;"])

/-- The case of a number that stands for no state. -/
def defaultCase : List Line :=
  caseLines "default" [.effect (.fatal "m_currentState")]

def armLines (m : Machine) (arm : Machine.Arm) : List Line :=
  let raw := (m.states[arm.state]?.map (·.name.raw)).getD ""
  caseLines ("case " ++ m.constantOf arm.state)
    ([note ("State: " ++ raw)] ++ arm.activities.map (fun a => code (a.ident ++ "();")) ++
      candidateLines m arm.transitions) ++ [blank]

def dispatchLines (b : Bundle) : List Line :=
  method ("void " ++ b.className ++ "::processStateMachine()")
    (braced "if (!m_stateMachineActive)" [code "return;"] ++ [blank] ++
      braced "switch (m_currentState)"
        (b.machine.arms.flatMap (armLines b.machine) ++ defaultCase))

/-! ### Commands -/

def triggerCase (m : Machine) (c : Machine.Command) (s : Machine.State) (index : Nat) :
    List Line :=
  caseLines ("case " ++ s.constant) (candidateLines m ((c.arms.lookup index).getD []))

def commandBody (m : Machine) (c : Machine.Command) : List Line :=
  match c.kind with
  | .start => [code "initializeStateMachine();"]
  | .stop => Machine.stop.map (lifecycleLine m)
  | .trigger signal =>
    [note ("Signal: " ++ signal)] ++
    braced "if (!m_stateMachineActive)"
      [.effect (.response .executionError), code "return;"] ++
    [blank] ++
    braced "switch (m_currentState)"
      (m.states.zipIdx.flatMap (fun (s, index) => triggerCase m c s index) ++ defaultCase)

def commandLines (b : Bundle) (c : Machine.Command) : List Line :=
  definition
    ([code ("void " ++ b.className ++ "::" ++ c.handler ++ "(")] ++ handlerParameters ++
      [code ")"])
    (commandBody b.machine c ++ [.effect (.response .ok)])

/-! ### States and guards -/

/-- A transition is reported before it takes effect, and only if it changes the state. -/
def transitionLines (b : Bundle) : List Line :=
  method ("void " ++ b.className ++ "::transitionToState(StateMachineStates newState)")
    (braced "if (m_currentState == newState)" [code "return;"] ++
      [.effect (.log "getStateName(m_currentState)" "getStateName(newState)"),
        .effect (.telemetry "getStateName(newState)"),
        code "m_currentState = newState;"])

def stateNameLines (b : Bundle) : List Line :=
  method ("const char* " ++ b.className ++ "::getStateName(StateMachineStates state)")
    (braced "switch (state)"
      (b.machine.states.map (fun s =>
        code ("case " ++ s.constant ++ ": return " ++ cppString s.name.ident ++ ";")) ++
      [code ("default: return " ++ cppString unknownState ++ ";")]))

def guardLines (b : Bundle) (g : Machine.Guard) : List Line :=
  method ("bool " ++ b.className ++ "::" ++ g.method ++ "()")
    [note g.source, code ("return " ++ g.condition.render memberName ++ ";")]

/-! ### Routines -/

/-- The declaration of a variable with its first value. -/
def declare (type var value : String) : Line :=
  code (type ++ " " ++ var ++ " = " ++ value ++ ";")

def assign (target value : String) : Line :=
  code (target ++ " = " ++ value ++ ";")

def localLine (l : BlockLocal) : Line :=
  declare l.scalar.cppType l.name (l.source.getD l.scalar.zeroLiteral)

def blockLines (node : String) (locals : List BlockLocal) (body : List String)
    (exports : List BlockExport) : List Line :=
  exports.map (fun e => declare e.scalar.cppType e.outer e.scalar.zeroLiteral) ++
  enclose (noted "\x7b" node)
    (locals.map localLine ++ body.map code ++ exports.map (fun e => assign e.outer e.name))
    (code "\x7d")

def stepLines (s : Step) : List Line :=
  match s.operation with
  | .receive parameter var type copy =>
    if copy then [declare type.cppType var parameter] else []
  | .create var record _ => [code (record ++ " " ++ var ++ ";")]
  | .literal var value => [declare value.scalar.cppType var value.literal]
  | .read var object feature scalar => [declare scalar.cppType var (object ++ "." ++ feature)]
  | .write object feature value => [assign (object ++ "." ++ feature) value]
  | .block locals body exports => blockLines s.node locals body exports
  | .call result _ method arguments =>
    let call := method ++ "(" ++ ", ".intercalate arguments ++ ")"
    match result with
    | some (var, type) => [declare type.cppType var call]
    | none => [code (call ++ ";")]
  | .fork branches => [note ("fork " ++ s.node ++ ": " ++ ", ".intercalate branches)]
  | .join inputs => [note ("join " ++ s.node ++ ": " ++ ", ".intercalate inputs)]
  | .output _ var => [code ("return " ++ var ++ ";")]

def routineLines (b : Bundle) (r : Routine) : List Line :=
  method (r.signature (b.className ++ "::"))
    (note ("Activity: " ++ r.raw) :: r.steps.flatMap stepLines)

/-! ### The file -/

def supportLines (p : Profile) (b : Bundle) : List Line :=
  match p.supportDefinitions b.className with
  | [] => []
  | lines => [note "Mock framework diagnostics", blank] ++ lines.map code ++ [blank]

/-- The part of an implementation that is the same under all profiles. -/
def bodyLines (b : Bundle) : List Line :=
  lifecycleLines b ++
  dispatchLines b ++
  b.machine.commands.flatMap (commandLines b) ++
  transitionLines b ++
  stateNameLines b ++
  b.machine.guards.flatMap (guardLines b) ++
  b.routines.flatMap (routineLines b)

def lines (p : Profile) (b : Bundle) : List Line :=
  [code ("#include \"" ++ b.className ++ ".hpp\"")] ++ p.includes.map code ++ [blank] ++
  titleLines b.machine ++
  inNamespaces b.namespaces ([blank] ++ bodyLines b ++ supportLines p b)

end Implementation

end FlightGen
