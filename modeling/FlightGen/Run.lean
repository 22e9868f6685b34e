import FlightGen.Compilation
import FlightGen.Datum
import FlightGen.Expr.Eval
import FlightGen.Expr.Parser

/-! Running routines. Steps bind variables one after the other; a block runs if its
lines are assignments. -/

namespace FlightGen

inductive RunError where
  | unknownActivity (name : String)
  | argumentCount (activity : String) (expected received : Nat)
  | unboundVar (name : String)
  | notRecord (var : String)
  | notScalar (var : String)
  | unknownFeature (record feature : String)
  | unreadableBody (node : String) (error : ParseError)
  | expression (error : EvalError)
deriving DecidableEq

def RunError.message : RunError → String
  | unknownActivity name => "activity '" ++ name ++ "' is not part of the compiled program"
  | argumentCount activity expected received =>
    "activity '" ++ activity ++ "' expects " ++ toString expected ++ " arguments, received " ++
      toString received
  | unboundVar name => (EvalError.unbound name).message
  | notRecord var => "'" ++ var ++ "' does not hold a record"
  | notScalar var => "'" ++ var ++ "' holds a record where a scalar is expected"
  | unknownFeature record feature =>
    "record '" ++ record ++ "' has no attribute '" ++ feature ++ "'"
  | unreadableBody node error =>
    "opaque body of node '" ++ node ++ "' is not executable: " ++ error.message
  | expression error => error.message

/-- The values of variables, the latest first. -/
abbrev Env (α : Type) := List (String × α)

namespace Env

def datum (env : Env Datum) (var : String) : Except RunError Datum :=
  match env.lookup var with
  | some d => .ok d
  | none => .error (.unboundVar var)

def scalar (env : Env Datum) (var : String) : Except RunError Value := do
  match ← env.datum var with
  | .scalar v => return v
  | .record _ => .error (.notScalar var)

def record (env : Env Datum) (var : String) : Except RunError Record := do
  match ← env.datum var with
  | .record r => return r
  | .scalar _ => .error (.notRecord var)

end Env

/-! ### Blocks -/

def BlockLocal.initial (env : Env Datum) (l : BlockLocal) : Except RunError (String × Value) :=
  match l.source with
  | some source => do return (l.name, ← env.scalar source)
  | none => .ok (l.name, l.scalar.zero)

def Assignment.execute (scope : Env Value) (a : Assignment) : Except RunError (Env Value) :=
  match a.value.eval (scope.lookup ·) with
  | .ok v => .ok ((a.target, v) :: scope)
  | .error e => .error (.expression e)

/-- Reads the lines of a block as assignments. -/
def readBody (node : String) (body : List String) : Except RunError (List Assignment) :=
  (Assignment.parseAll ("\n".intercalate body)).mapError (.unreadableBody node)

def BlockExport.apply (scope : Env Value) (env : Env Datum) (e : BlockExport) :
    Except RunError (Env Datum) :=
  match scope.lookup e.name with
  | some v => .ok ((e.outer, .scalar v) :: env)
  | none => .error (.unboundVar e.name)

def runBlock (node : String) (locals : List BlockLocal) (body : List String)
    (exports : List BlockExport) (env : Env Datum) : Except RunError (Env Datum) := do
  let scope ← locals.mapM (·.initial env)
  let assignments ← readBody node body
  let scope ← assignments.foldlM Assignment.execute scope.reverse
  exports.foldlM (BlockExport.apply scope) env

/-! ### Steps -/

/-- A routine under way. -/
structure Progress where
  env : Env Datum
  outputs : List (Option Datum)

def Progress.bind (p : Progress) (var : String) (d : Datum) : Progress :=
  { p with env := (var, d) :: p.env }

/-- What a called routine does with its arguments. -/
abbrev Callee := String → List Datum → Except RunError (List Datum)

def writeFeature (env : Env Datum) (object feature : String) (v : Value) :
    Except RunError Record :=
  match env.lookup object with
  | some (.record r) =>
    match r.set? feature v with
    | some r => .ok r
    | none => .error (.unknownFeature r.name feature)
  | _ => .error (.notRecord object)

def readFeature (env : Env Datum) (object feature : String) : Except RunError Value := do
  let r ← env.record object
  match r.get? feature with
  | some v => return v
  | none => .error (.unknownFeature r.name feature)

def receive (r : Routine) (arguments : List Datum) (parameter : String) :
    Except RunError Datum :=
  match (r.inputs.findIdx? (·.ident = parameter)).bind (arguments[·]?) with
  | some d => .ok d
  | none => .error (.unboundVar parameter)

/-- Carries out one step of `r`, which was given `arguments`. -/
def Step.execute (call : Callee) (r : Routine) (arguments : List Datum) (p : Progress)
    (s : Step) : Except RunError Progress :=
  match s.operation with
  | .receive parameter var _ _ => do return p.bind var (← receive r arguments parameter)
  | .create var record fields => .ok (p.bind var (.record (Record.zeroed record fields)))
  | .literal var value => .ok (p.bind var (.scalar value))
  | .read var object feature _ => do
    return p.bind var (.scalar (← readFeature p.env object feature))
  | .write object feature value => do
    let v ← p.env.scalar value
    return p.bind object (.record (← writeFeature p.env object feature v))
  | .block locals body exports => do
    return { p with env := ← runBlock s.node locals body exports p.env }
  | .call result target _ names => do
    let results ← call target (← names.mapM p.env.datum)
    match result, results with
    | none, _ => return p
    | some (var, _), d :: _ => return p.bind var d
    | some (var, _), [] => .error (.unboundVar var)
  | .fork _ | .join _ => .ok p
  | .output slot var => do
    let d ← p.env.datum var
    return { p with outputs := p.outputs.set slot (some d) }

def Slot.result (value : Option Datum × Slot) : Except RunError Datum :=
  match value.1 with
  | some d => .ok d
  | none => .error (.unboundVar value.2.ident)

/-- Runs a routine whose calls are answered by `call`. -/
def Routine.run (call : Callee) (r : Routine) (arguments : List Datum) :
    Except RunError (List Datum) :=
  if arguments.length = r.inputs.length then do
    let start : Progress := ⟨[], r.outputs.map fun _ => none⟩
    let p ← r.steps.foldlM (Step.execute call r arguments) start
    (p.outputs.zip r.outputs).mapM Slot.result
  else .error (.argumentCount r.qualified r.inputs.length arguments.length)

/-- Runs a routine of a library with calls nested to a depth. Beyond it no routine is found. -/
def Library.runWithin (l : Library) : Nat → Callee
  | 0, name, _ => .error (.unknownActivity name)
  | depth + 1, name, arguments =>
    match l.find? name with
    | some r => r.run (l.runWithin depth) arguments
    | none => .error (.unknownActivity name)

/-- Runs a routine of a library. Where no routine leads back to itself, calls nest at most as
deep as there are routines. Where one does, no run of it returns; here such a run ends with an
error at the depth. -/
def Library.run (l : Library) : Callee :=
  l.runWithin (l.entries.length + 1)

end FlightGen
