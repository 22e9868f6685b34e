import FlightGen.Flow.Lowering

/-! Compiling the activities of a model. Each one is lowered at most once, after the
activities it calls; a result is kept, be it a routine or an error. -/

namespace FlightGen

inductive CompileError where
  | model (error : ModelError)
  | unsupportedLanguage (activity node language : String)
  | dependencyFailed (activity dependency : String) (cause : CompileError)
deriving Repr, DecidableEq

namespace CompileError

def message : CompileError → String
  | model error => error.message
  | unsupportedLanguage activity node language =>
    "activity '" ++ activity ++ "': node '" ++ node ++ "' declares unsupported language '" ++
      language ++ "'"
  | dependencyFailed activity dependency cause =>
    "activity '" ++ activity ++ "' depends on '" ++ dependency ++ "', which failed to compile: " ++
      cause.message

/-- The error below all failed dependencies. -/
def rootCause : CompileError → CompileError
  | dependencyFailed _ _ cause => cause.rootCause
  | error => error

end CompileError

/-! ### Languages -/

/-- The language of a body that asks for one. Blanks and "none" ask for none. -/
def declaredLanguage? (language : Option String) : Option String :=
  (language.map Text.trim).filter fun l => l ≠ "" && l.toLower ≠ "none"

def Action.language? : Action → Option String
  | opaqueAction _ language _ _ => declaredLanguage? language
  | _ => none

/-- Bodies are taken as they stand, so that none may declare a language. -/
def checkLanguages (path : String) : List Node → Except CompileError Unit
  | [] => .ok ()
  | n :: ns =>
    match n.action.language? with
    | some language => .error (.unsupportedLanguage path n.id language)
    | none => checkLanguages path ns

/-! ### Libraries -/

/-- Routines with the names under which they are called. -/
structure Library where
  entries : List (String × Routine)

def Library.find? (l : Library) (name : String) : Option Routine :=
  l.entries.lookup name

def Library.names (l : Library) : List String :=
  l.entries.map (·.1)

/-- Routines in the order of their names. -/
def sortEntries (entries : List (String × Routine)) : List (String × Routine) :=
  entries.mergeSort fun a b => decide (a.1 ≤ b.1)

/-! ### Compilation -/

/-- What has been compiled so far. -/
structure Compilation where
  /-- Results by the name of the activity. -/
  results : List (String × Except CompileError Routine) := []
  /-- The activities in progress, the innermost first. -/
  stack : List String := []
  /-- The activities that were lowered, in their order. -/
  lowered : List String := []

namespace Compilation

def count (s : Compilation) : Nat :=
  s.lowered.length

def enter (s : Compilation) (name : String) : Compilation :=
  { s with stack := name :: s.stack }

/-- Ends the innermost activity with its result. -/
def leave (s : Compilation) (name : String) (result : Except CompileError Routine) : Compilation :=
  { s with results := s.results ++ [(name, result)], stack := s.stack.tail }

def note (s : Compilation) (name : String) : Compilation :=
  { s with lowered := s.lowered ++ [name] }

end Compilation

/-- The routines compiled so far, under the names of their activities. -/
def Compilation.library (s : Compilation) : Library :=
  ⟨sortEntries (s.results.filterMap fun r => r.2.toOption.map (r.1, ·))⟩

/-- Computations that compile activities. What they compiled stays, also if they fail. -/
abbrev Compiling := ExceptT CompileError (StateM Compilation)

/-- Carries out a computation for an activity, which is in progress meanwhile, and keeps
the outcome under its name. -/
def Compiling.remember (name : String) (x : Compiling Routine) : Compiling Routine :=
  ExceptT.mk fun s =>
    let (result, s) := x.run.run (s.enter name)
    (result, s.leave name result)

/-- An activity as errors name it. -/
def Component.activityPath (c : Component) (index : Nat) : String :=
  c.name.raw ++ "::" ++ (c.activities[index]?.map (·.name.raw)).getD ""

/-- Calls that lead back to an activity in progress. `stack` has the innermost first. -/
def recursion (stack : List String) (name : String) : CompileError :=
  .model (.recursiveActivity name (name :: (stack.takeWhile (· ≠ name)).reverse ++ [name]))

/-- The routines of the activities that nodes call, each with the position of its node. -/
def compileCallees (compile : Nat → Compiling Routine) (c : Component) (path : String) :
    List (Node × Nat) → Compiling (List (Nat × Routine))
  | [] => return []
  | (n, index) :: rest =>
    match n.action with
    | .call target _ => do
      let routine ← (compile target).adapt (.dependencyFailed path (c.activityPath target))
      return (index, routine) :: (← compileCallees compile c path rest)
    | _ => compileCallees compile c path rest

def lowerFlow (f : Flow) : Except CompileError Routine :=
  f.lower.mapError .model

/-- Compiles an activity that has no result yet. -/
def compileNew (compile : Nat → Compiling Routine) (m : Model) (c : Component) (index : Nat)
    (a : Activity) : Compiling Routine := do
  let path := c.activityPath index
  checkLanguages path a.nodes
  let callees ← compileCallees compile c path a.nodes.zipIdx
  modify (·.note (c.qualified index))
  lowerFlow ⟨m.recordTypes, c, a, path, callees⟩

/-- Compiles an activity below those in progress. Calls nest at most as deep as there are
activities. -/
def compileWithin (m : Model) (c : Component) : Nat → Nat → Compiling Routine
  | 0, index => do throw (recursion (← get).stack (c.qualified index))
  | depth + 1, index => do
    let s ← get
    let name := c.qualified index
    match s.results.lookup name, c.activities[index]? with
    | some result, _ => result
    | none, none => throw (.model (.unresolved c.name.raw .activity name))
    | none, some a =>
      if name ∈ s.stack then throw (recursion s.stack name)
      else Compiling.remember name (compileNew (compileWithin m c depth) m c index a)

def compile (m : Model) (c : Component) (index : Nat) : Compiling Routine :=
  compileWithin m c (c.activities.length + 1) index

/-- Compiles an activity known by its own name and that of its component. -/
def compileNamed (m : Model) (component activity : String) : Compiling Routine :=
  match m.component? component with
  | none => throw (.model (.unresolved "model" .component component))
  | some c =>
    match c.activities.findIdx? (·.name.raw = activity) with
    | none => throw (.model (.unresolved component .activity activity))
    | some index => compile m c index

/-- The names of all activities with those of their components. -/
def Model.activityNames (m : Model) : List (String × String) :=
  m.components.flatMap fun c => c.activities.map fun a => (c.name.raw, a.name.raw)

/-- The library after a number of requests, failures left aside. -/
def Model.library (m : Model) (requests : List (String × String)) : Library :=
  (requests.foldl (fun s (component, activity) =>
    ((compileNamed m component activity).run.run s).2) ({} : Compilation)).library

end FlightGen
