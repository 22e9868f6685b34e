import FlightGen.Artifact.Profile
import FlightGen.Identifier
import FlightGen.Json.Decode
import FlightGen.Json.Parser

/-! Settings of a generation run, and the format of their file. -/

namespace FlightGen

structure Settings where
  /-- The namespace of the emitted code; double colons nest. -/
  path : String := "Components"
  profile : Profile := .production
  /-- Whether the FPP model is emitted too. -/
  componentModel : Bool := true
deriving Repr, DecidableEq

inductive SettingsError where
  | unreadable
  | malformed
  | invalidNamespace (path segment : String)
deriving Repr, DecidableEq

def SettingsError.message : SettingsError → String
  | unreadable => "could not read config file"
  | malformed => "could not parse config file"
  | invalidNamespace path segment =>
    "invalid namespace '" ++ path ++ "': segment '" ++ segment ++ "' is not a C++ identifier"

namespace Settings

def keys : List String := ["namespace", "binding", "emitComponentModel"]

/-- No other keys may stand in an object of settings. -/
def knownKeys : Json → Bool
  | .object members => members.all (·.1 ∈ keys)
  | _ => true

def profile? : Json → Option Profile :=
  Json.choice? (fun
    | .null => true
    | _ => false) [("production", .production), ("mock", .mock)]

/-- Every setting may be missing. -/
def ofJson? (j : Json) : Option Settings := do
  guard (j.isRecord 3 && knownKeys j)
  let standard : Settings := {}
  return {
    path := ← Json.optional Json.string? standard.path 0 ["namespace"] j
    profile := ← Json.optional profile? standard.profile 1 ["binding"] j
    componentModel := ← Json.optional Json.bool? standard.componentModel 2 ["emitComponentModel"] j }

def toJson (s : Settings) : Json :=
  .object [("namespace", .string s.path), ("binding", .string s.profile.text),
    ("emitComponentModel", .bool s.componentModel)]

/-- Every segment of the namespace has to be an identifier. -/
def validate (s : Settings) : Except SettingsError Unit :=
  match Identifier.invalidSegment? s.path with
  | some segment => .error (.invalidNamespace s.path segment)
  | none => .ok ()

/-- Reads the contents of a file of settings. -/
def ofText (source : String) : Except SettingsError Settings :=
  match Json.parse? source >>= ofJson? with
  | none => .error .malformed
  | some s => do
    s.validate
    return s

/-- Reads a file of settings, which may be missing. -/
def ofFile : Option String → Except SettingsError Settings
  | some source => ofText source
  | none => .error .unreadable

end Settings

end FlightGen
