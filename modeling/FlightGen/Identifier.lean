/-! Identifiers of the emitted code. A free text becomes an identifier by joining
its words; a namespace is a list of identifiers. -/

namespace FlightGen.Identifier

def isWordStart (c : Char) : Bool :=
  c.isAlpha || c == '_'

def isWordChar (c : Char) : Bool :=
  c.isAlphanum || c == '_'

/-- Words of the target language that are no identifiers. -/
def reserved : List String :=
  ["alignas", "alignof", "asm", "auto", "bool", "break", "case", "catch", "char", "class",
    "const", "constexpr", "continue", "default", "delete", "do", "double", "else", "enum",
    "explicit", "extern", "false", "float", "for", "friend", "goto", "if", "inline", "int",
    "long", "namespace", "new", "nullptr", "operator", "private", "protected", "public",
    "return", "short", "signed", "sizeof", "static", "struct", "switch", "this", "true",
    "void", "while"]

/-- The pieces of a text between characters that no identifier holds. -/
def pieces : List Char → List (List Char)
  | [] => [[]]
  | c :: cs =>
    if isWordChar c then
      match pieces cs with
      | [] => [[c]]
      | piece :: rest => (c :: piece) :: rest
    else [] :: pieces cs

/-- The maximal runs of identifier characters. -/
def words (cs : List Char) : List (List Char) :=
  (pieces cs).filter (· ≠ [])

/-- Makes room in front of a leading digit. -/
def guardDigit : List Char → List Char
  | [] => []
  | c :: cs => if c.isDigit then 'i' :: 'd' :: '_' :: c :: cs else c :: cs

def avoidReserved (ident : String) : String :=
  if ident ∈ reserved then ident ++ "_" else ident

/-- The identifier of a free text: its words joined by underscores. A text without a
letter or a digit has none. -/
def render? (raw : String) : Option String :=
  let joined := ['_'].intercalate (words raw.toList)
  if joined.any Char.isAlphanum then
    some (avoidReserved (String.ofList (guardDigit joined)))
  else none

/-! ### Namespaces -/

/-- The parts of a text between double colons. -/
def colonParts : List Char → List (List Char)
  | [] => [[]]
  | ':' :: ':' :: cs => [] :: colonParts cs
  | c :: cs =>
    match colonParts cs with
    | [] => [[c]]
    | part :: rest => (c :: part) :: rest

/-- The nested namespaces that a text names, outermost first. -/
def segments (path : String) : List String :=
  ((colonParts path.toList).filter (· ≠ [])).map String.ofList

/-- The first segment of a namespace that is not an identifier as it stands. -/
def invalidSegment? (path : String) : Option String :=
  (segments path).find? fun segment => render? segment != some segment

end FlightGen.Identifier
