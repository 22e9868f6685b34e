import FlightGen.Compilation
import FlightGen.Identifier
import FlightGen.Machine.Basic

/-! What is emitted for a component: its machine, the routines that the machine
reaches, and the record types that these use. -/

namespace FlightGen

inductive EmitError where
  | model (error : ModelError)
  | missingActivity (component activity : String)
  | invalidNamespace (path segment : String)
deriving Repr, DecidableEq

def EmitError.message : EmitError → String
  | model error => error.message
  | missingActivity component activity =>
    "component '" ++ component ++ "' references activity '" ++ activity ++
      "', which was not compiled"
  | invalidNamespace path segment =>
    "namespace '" ++ path ++ "': segment '" ++ segment ++ "' is not a C++ identifier"

structure Bundle where
  machine : Machine
  /-- In the order of their names. -/
  routines : List Routine
  records : List RecordType
  /-- Nested namespaces, outermost first. -/
  namespaces : List String

namespace Bundle

def className (b : Bundle) : String :=
  b.machine.component.ident ++ "ComponentImpl"

def baseName (b : Bundle) : String :=
  b.machine.component.ident ++ "ComponentBase"

end Bundle

/-! ### Routines -/

/-- Follows calls from `pending` through a library, or stops at a name that it lacks. -/
def Library.closeWithin (l : Library) :
    Nat → List (String × Routine) → List String → Except String (List (String × Routine))
  | _, seen, [] => .ok seen
  | 0, seen, _ => .ok seen
  | count + 1, seen, name :: pending =>
    if name ∈ seen.map (·.1) then l.closeWithin count seen pending
    else
      match l.find? name with
      | some r => l.closeWithin count ((name, r) :: seen) (r.calls.reverse ++ pending)
      | none => .error name

def Library.callCount (l : Library) : Nat :=
  l.entries.foldl (fun n e => n + e.2.calls.length) 0

/-- The routines that some names reach, in the order of their names, or a name that is
missing. Names are followed from the last one on; each routine is entered once, so that no
more names turn up than there are calls. -/
def Library.reachable (l : Library) (names : List String) : Except String (List Routine) := do
  let entries ← l.closeWithin (names.length + l.callCount) [] names.reverse
  return (sortEntries entries).map (·.2)

/-- Emitted methods return one value at most. -/
def checkOutputs (component : String) : List Routine → Except EmitError Unit
  | [] => .ok ()
  | r :: rs =>
    if 1 < r.outputs.length then
      .error (.model (.multipleOutputs (component ++ "::" ++ r.raw) r.outputs.length))
    else checkOutputs component rs

/-! ### Records -/

def DataType.record? : DataType → Option String
  | record ident => some ident
  | scalar _ => none

def Operation.record? : Operation → Option String
  | receive _ _ type _ => type.record?
  | create _ record _ => some record
  | call (some (_, type)) _ _ _ => type.record?
  | _ => none

/-- The record types that a routine names. -/
def Routine.recordNames (r : Routine) : List String :=
  (r.inputs ++ r.outputs).filterMap (·.type.record?) ++
    r.steps.filterMap (·.operation.record?)

/-! ### Bundles -/

def checkNamespace (path : String) : Except EmitError Unit :=
  match Identifier.invalidSegment? path with
  | some segment => .error (.invalidNamespace path segment)
  | none => .ok ()

def reachableRoutines (m : Machine) (l : Library) : Except EmitError (List Routine) :=
  (l.reachable m.referenced).mapError (.missingActivity m.component.raw)

/-- Gathers what a component needs. -/
def Bundle.collect (path : String) (m : Machine) (l : Library) (records : List RecordType) :
    Except EmitError Bundle := do
  checkNamespace path
  let routines ← reachableRoutines m l
  checkOutputs m.component.raw routines
  let used := routines.flatMap (·.recordNames)
  return ⟨m, routines, records.filter (·.name.ident ∈ used), Identifier.segments path⟩

end FlightGen
