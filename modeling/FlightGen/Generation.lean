import FlightGen.Artifact.Basic
import FlightGen.Machine.Synthesis

/-! A generation run: every component of a model is compiled and emitted. One that
fails is reported and does not hold up the others. -/

namespace FlightGen

inductive GenerationError where
  | compile (error : CompileError)
  | emit (error : EmitError)
deriving Repr, DecidableEq

def GenerationError.message : GenerationError → String
  | compile error => error.message
  | emit error => error.message

structure Failure where
  component : String
  /-- The component, then what failed in it down to the origin of the error. -/
  chain : List String
  error : GenerationError
deriving DecidableEq

structure ComponentArtifacts where
  component : String
  artifacts : Artifacts

structure Report where
  components : List ComponentArtifacts := []
  failures : List Failure := []
  /-- How many activities were lowered. -/
  compiled : Nat := 0

namespace Report

def isSuccess (r : Report) : Bool :=
  r.failures.isEmpty

/-- All files of a run, in the order in which they are written. -/
def files (r : Report) : List SourceFile :=
  r.components.flatMap (·.artifacts.files)

end Report

/-- Extends a chain along failed dependencies. An activity that ends the chain already
is not repeated. -/
def extendChain (chain : List String) : CompileError → List String
  | .dependencyFailed activity dependency cause =>
    let chain := if chain.getLast? = some activity then chain else chain ++ [activity]
    extendChain (chain ++ [dependency]) cause
  | _ => chain

def failureChain (component root : String) (error : CompileError) : List String :=
  extendChain [component, root] error

/-- The activities of a component's states, each once, in the order of their first use. -/
def Component.stateActivities (c : Component) : List Nat :=
  (c.states.flatMap (·.activities)).eraseDups

/-- Compiles the given activities of a component and reports each that fails. -/
def compileActivities (m : Model) (c : Component) (s : Compilation) :
    List Nat → List Failure × Compilation
  | [] => ([], s)
  | index :: rest =>
    let (result, s) := (compile m c index).run.run s
    let (failures, s) := compileActivities m c s rest
    match result with
    | .ok _ => (failures, s)
    | .error e =>
      let chain := failureChain c.name.raw (c.activityPath index) e
      (⟨c.name.raw, chain, .compile e⟩ :: failures, s)

def emitComponent (settings : Settings) (m : Model) (c : Component) (s : Compilation) :
    Except EmitError Artifacts :=
  emit settings c.synthesize s.library m.recordTypes

/-- Generates one component and adds it, or its failures, to the report. -/
def generateComponent (settings : Settings) (m : Model) (state : Report × Compilation)
    (c : Component) : Report × Compilation :=
  let (report, s) := state
  match compileActivities m c s c.stateActivities with
  | ([], s) =>
    match emitComponent settings m c s with
    | .ok artifacts =>
      ({ report with components := report.components ++ [⟨c.name.raw, artifacts⟩] }, s)
    | .error e =>
      ({ report with
        failures := report.failures ++ [⟨c.name.raw, [c.name.raw], .emit e⟩] }, s)
  | (failures, s) => ({ report with failures := report.failures ++ failures }, s)

/-- Generates all components of a model. -/
def generate (settings : Settings) (m : Model) : Report :=
  let (report, s) := m.components.foldl (generateComponent settings m) ({}, {})
  { report with compiled := s.count }

end FlightGen
