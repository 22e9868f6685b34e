import FlightGen.Artifact.Fpp
import FlightGen.Artifact.Implementation
import FlightGen.Settings

/-! The files emitted for a component. -/

namespace FlightGen

structure SourceFile where
  name : String
  text : String
deriving Repr, DecidableEq

/-- The size of the file on disk. -/
def SourceFile.size (f : SourceFile) : Nat :=
  f.text.utf8ByteSize

structure Artifacts where
  component : String
  header : SourceFile
  implementation : SourceFile
  componentModel : Option SourceFile
deriving Repr, DecidableEq

def Artifacts.files (a : Artifacts) : List SourceFile :=
  [a.header, a.implementation] ++ a.componentModel.toList

namespace Bundle

def headerFile (b : Bundle) (p : Profile) : SourceFile :=
  ⟨b.className ++ ".hpp", Line.render p (Header.lines p b)⟩

def implementationFile (b : Bundle) (p : Profile) : SourceFile :=
  ⟨b.className ++ ".cpp", Line.render p (Implementation.lines p b)⟩

def componentModelFile (b : Bundle) (p : Profile) : SourceFile :=
  ⟨b.machine.component.ident ++ ".fpp", Line.render p (Fpp.lines b)⟩

end Bundle

/-- Emits a component. All routines that its machine reaches have to be in the library. -/
def emit (s : Settings) (m : Machine) (l : Library) (records : List RecordType) :
    Except EmitError Artifacts := do
  let b ← Bundle.collect s.path m l records
  return {
    component := m.component.ident
    header := b.headerFile s.profile
    implementation := b.implementationFile s.profile
    componentModel := if s.componentModel then some (b.componentModelFile s.profile) else none }

end FlightGen
