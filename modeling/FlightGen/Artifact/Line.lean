import FlightGen.Artifact.Profile

/-! Lines of emitted text. A line keeps apart its code, the note behind it and the
effect it has, until it is written under a profile. -/

namespace FlightGen

/-- What introduces a note. -/
inductive NoteMark where
  | slashes
  | atSign
deriving Repr, DecidableEq

def NoteMark.text : NoteMark → String
  | slashes => "//"
  | atSign => "@"

inductive LineContent where
  | code (text : String)
  /-- Code, or none, with a note in the words of the model. -/
  | noted (code : String) (mark : NoteMark) (note : String)
  | effect (effect : Effect)
deriving Repr, DecidableEq

def LineContent.text (p : Profile) : LineContent → String
  | code text => text
  | noted "" mark note => mark.text ++ " " ++ note
  | noted text mark note => text ++ " " ++ mark.text ++ " " ++ note
  | effect e => e.call p ++ ";"

structure Line where
  depth : Nat
  content : LineContent
deriving Repr, DecidableEq

namespace Line

def code (text : String) : Line :=
  ⟨0, .code text⟩

def note (text : String) : Line :=
  ⟨0, .noted "" .slashes text⟩

def noted (text note : String) : Line :=
  ⟨0, .noted text .slashes note⟩

def effect (e : Effect) : Line :=
  ⟨0, .effect e⟩

def blank : Line :=
  code ""

def indent (lines : List Line) : List Line :=
  lines.map fun l => { l with depth := l.depth + 1 }

/-- Lines one level deeper between a first and a last one. -/
def enclose (first : Line) (body : List Line) (last : Line) : List Line :=
  first :: indent body ++ [last]

/-- The lines in a pair of braces behind a text. -/
def braced (head : String) (body : List Line) : List Line :=
  enclose (code (head ++ " \x7b")) body (code "\x7d")

/-- A line for each text, with commas between them. -/
def separated : List String → List Line
  | [] => []
  | [text] => [code text]
  | text :: rest => code (text ++ ",") :: separated rest

def spaces (n : Nat) : String :=
  String.ofList (List.replicate n ' ')

/-- Two blanks for each level; an empty line has none. -/
def text (p : Profile) (l : Line) : String :=
  match l.content.text p with
  | "" => ""
  | text => spaces (2 * l.depth) ++ text

/-- The text of a file. -/
def render (p : Profile) (lines : List Line) : String :=
  String.join (lines.map fun l => l.text p ++ "\n")

end Line

end FlightGen
