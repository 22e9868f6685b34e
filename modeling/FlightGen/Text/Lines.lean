import FlightGen.Text.Blank

/-! A text as the list of its lines. A line ends at a newline, and a newline at
the very end starts no further line. -/

namespace FlightGen.Text

def splitLines : List Char → List (List Char)
  | [] => []
  | c :: cs =>
    if c = '\n' then [] :: splitLines cs
    else match splitLines cs with
      | [] => [[c]]
      | line :: rest => (c :: line) :: rest

/-- The lines of a text, each without the white space at its end. -/
def trimmedLines (s : String) : List String :=
  (splitLines s.toList).map fun line => String.ofList (trimEnd line)

end FlightGen.Text
