import FlightGen.Json.Token

/-! JSON text is read one token at a time. Between two tokens the reader holds the
arrays and objects that are still open, innermost first. -/

namespace FlightGen.Json

/-- An array or an object with the part of it that is read, last first. A key is
absent if its text is unusable. -/
inductive Frame where
  | array (items : List Json)
  | object (members : List (Option String × Json)) (key : Option String)

inductive Reading where
  /-- Before a value. -/
  | value (frames : List Frame)
  /-- Right after the bracket of an array, which may close. -/
  | firstItem (frames : List Frame)
  /-- Before a key; an object without members may close. -/
  | key (frames : List Frame) (members : List (Option String × Json))
  | colon (frames : List Frame) (members : List (Option String × Json)) (key : Option String)
  /-- After a value. -/
  | after (frames : List Frame) (j : Json)

/-- An object whose keys are all usable. -/
def ofMembers (members : List (Option String × Json)) : Json :=
  match members.mapM fun (key, j) => key.map (·, j) with
  | some members => object members
  | none => unusable

namespace Reading

/-- A token in the place of a value. -/
def startValue (frames : List Frame) : Token → Option Reading
  | .openBracket => some (firstItem frames)
  | .openBrace => some (key frames [])
  | .text (some s) => some (after frames (string s))
  | .text none => some (after frames unusable)
  | .scalar j => some (after frames j)
  | _ => none

def step : Reading → Token → Option Reading
  | value frames, token => startValue frames token
  | firstItem frames, .closeBracket => some (after frames (array []))
  | firstItem frames, token => startValue (.array [] :: frames) token
  | key frames [], .closeBrace => some (after frames (object []))
  | key frames members, .text k => some (colon frames members k)
  | key _ _, _ => none
  | colon frames members k, .colon => some (value (.object members k :: frames))
  | colon _ _ _, _ => none
  | after (.array items :: frames) j, .comma => some (value (.array (j :: items) :: frames))
  | after (.array items :: frames) j, .closeBracket =>
    some (after frames (array (j :: items).reverse))
  | after (.object members k :: frames) j, .comma => some (key frames ((k, j) :: members))
  | after (.object members k :: frames) j, .closeBrace =>
    some (after frames (ofMembers ((k, j) :: members).reverse))
  | after _ _, _ => none

end Reading

/-- Reads a text that holds one JSON value and nothing else. -/
def parse? (source : String) : Option Json := do
  let tokens ← scanFrom? 0 source.toList
  match ← tokens.foldlM Reading.step (.value []) with
  | .after [] j => some j
  | _ => none

end FlightGen.Json
