import FlightGen.Identifier
import FlightGen.Model.Error

/-! Allocation of identifiers. Each scope holds, for each kind of name, the texts
that have an identifier and the identifiers that are taken; a collision is resolved
by a numeric suffix in the order of allocation. -/

namespace FlightGen

/-- Kinds of names, each with its own identifiers inside a scope. -/
inductive NameKind where
  | component
  | state
  | activity
  | recordType
  | field
  | command
  | parameter
  | localVar
deriving Repr, DecidableEq

namespace NameKind

def label : NameKind → String
  | component => "component"
  | state => "state"
  | activity => "activity"
  | recordType => "record type"
  | field => "field"
  | command => "command"
  | parameter => "parameter"
  | localVar => "variable"

/-- States and commands are also written in upper case, so they may not differ in
case alone. -/
def foldsCase : NameKind → Bool
  | state | command => true
  | _ => false

/-- Two identifiers of a kind collide if they have the same key. -/
def key (kind : NameKind) (ident : String) : String :=
  if kind.foldsCase then ident.toUpper else ident

end NameKind

/-- The names of one kind in one scope. -/
structure Names where
  /-- Keys of the identifiers in use. -/
  taken : List String := []
  /-- Texts with their identifiers, the latest first. -/
  assigned : List (String × String) := []
deriving Repr, DecidableEq

namespace Names

def suffixed (base : String) (k : Nat) : String :=
  base ++ "_" ++ toString k

/-- The base itself if it is free, else the base with the least free suffix from 2 on.
Among one more suffixes than there are keys, one is free. With fewer than `2 ^ 31 - 2` keys
it fits a signed counter of 32 bits. -/
def available (kind : NameKind) (taken : List String) (base : String) : String :=
  if kind.key base ∈ taken then
    let candidates := (List.range (taken.length + 1)).map fun i => suffixed base (i + 2)
    (candidates.find? fun ident => kind.key ident ∉ taken).getD base
  else base

def reserve (kind : NameKind) (ident : String) (names : Names) : Names :=
  { names with taken := kind.key ident :: names.taken }

/-- Gives `raw` a new identifier built from `base`. -/
def allocate (kind : NameKind) (raw base : String) (names : Names) : String × Names :=
  let ident := available kind names.taken base
  (ident, ⟨kind.key ident :: names.taken, (raw, ident) :: names.assigned⟩)

def forget (raw : String) (names : Names) : Names :=
  { names with assigned := names.assigned.filter (·.1 ≠ raw) }

end Names

/-- The names of a whole run, by scope and kind. The latest entry counts. -/
structure NameTable where
  entries : List ((String × NameKind) × Names) := []
deriving Repr, DecidableEq

namespace NameTable

def names (t : NameTable) (scope : String) (kind : NameKind) : Names :=
  (t.entries.lookup (scope, kind)).getD {}

def put (t : NameTable) (scope : String) (kind : NameKind) (names : Names) : NameTable :=
  ⟨((scope, kind), names) :: t.entries⟩

def lookup (t : NameTable) (scope : String) (kind : NameKind) (raw : String) : Option String :=
  (t.names scope kind).assigned.lookup raw

/-- Takes an identifier out of circulation. -/
def reserve (t : NameTable) (scope : String) (kind : NameKind) (ident : String) : NameTable :=
  t.put scope kind ((t.names scope kind).reserve kind ident)

/-- How an error names a text inside a scope. -/
def entityPath (scope raw : String) : String :=
  if scope = "" then "'" ++ raw ++ "'" else scope ++ "::'" ++ raw ++ "'"

/-- The identifier of `raw`: the one it has, or a new one. -/
def assign (t : NameTable) (scope : String) (kind : NameKind) (raw : String) :
    Except ModelError (String × NameTable) :=
  match t.lookup scope kind raw with
  | some ident => .ok (ident, t)
  | none =>
    match Identifier.render? raw with
    | none => .error (.invalidIdentifier (entityPath scope raw) raw)
    | some base =>
      let (ident, names) := (t.names scope kind).allocate kind raw base
      .ok (ident, t.put scope kind names)

/-- A new identifier for `raw`, even if it has one. It serves elements that are distinct
though they bear the same text. -/
def assignFresh (t : NameTable) (scope : String) (kind : NameKind) (raw : String) :
    Except ModelError (String × NameTable) :=
  (t.put scope kind ((t.names scope kind).forget raw)).assign scope kind raw

end NameTable

/-! ### Naming as an effect -/

/-- Computations that allocate names and may find the model wrong. -/
abbrev Naming := StateT NameTable (Except ModelError)

namespace Naming

def assign (scope : String) (kind : NameKind) (raw : String) : Naming String :=
  fun t => t.assign scope kind raw

def assignFresh (scope : String) (kind : NameKind) (raw : String) : Naming String :=
  fun t => t.assignFresh scope kind raw

def reserve (scope : String) (kind : NameKind) (ident : String) : Naming Unit :=
  fun t => .ok ((), t.reserve scope kind ident)

def reserveAll (scope : String) (kind : NameKind) (idents : List String) : Naming Unit :=
  idents.forM (reserve scope kind)

def fail {α : Type} (e : ModelError) : Naming α :=
  fun _ => .error e

end Naming

end FlightGen
