import FlightGen.Artifact.Basic
import FlightGen.Machine.Execution
import FlightGen.Proofs.Decimal

/-! What emitted code does when it runs. Its lines are read back as statements and carried out in
turn. A block whose condition fails is skipped up to its closing brace, a state stands for the
number that the enumeration gives it, and its name comes from the switch over the enumeration. -/

namespace FlightGen.Emitted

/-! ### Reading -/

/-- The text between a beginning and an end. -/
def between? (first last text : String) : Option String :=
  let rest := text.toList.drop first.toList.length
  if first.toList <+: text.toList ∧ last.toList <:+ rest then
    some (String.ofList (rest.take (rest.length - last.toList.length)))
  else none

/-- The texts before and after a separator. Its first character has to divide them. -/
def divide? (separator text : String) : Option (String × String) :=
  let before (c : Char) : Bool := separator.toList.head? ≠ some c
  let rest := text.toList.dropWhile before
  if separator.toList <+: rest then
    some (String.ofList (text.toList.takeWhile before),
      String.ofList (rest.drop separator.toList.length))
  else none

/-- Takes the backslashes before escaped characters away. -/
def unescape : List Char → List Char
  | '\\' :: c :: cs => c :: unescape cs
  | c :: cs => c :: unescape cs
  | [] => []

/-- The text that a string literal stands for. -/
def unquote? (literal : String) : Option String :=
  (between? "\"" "\"" literal).map fun text => String.ofList (unescape text.toList)

/-- Statements of which the transition code consists. Operands are left as they are written. -/
inductive Statement where
  /-- The head of a block that runs under a condition. -/
  | opens (condition : String)
  | closes
  | breaks
  | returns
  /-- A call of the method that makes transitions. -/
  | moves (target : String)
  | assigns (value : String)
  | logs (source target : String)
  | reports (state : String)
deriving Repr, DecidableEq

/-- How a log call starts under a profile, up to the operands. -/
def logHead : Profile → String
  | .production => "this->log_ACTIVITY_HI_StateTransition("
  | .mock => "this->mockLogEvent(\"StateTransition\", "

/-- How a telemetry call starts under a profile, up to the operand. -/
def telemetryHead : Profile → String
  | .production => "this->tlmWrite_CurrentState("
  | .mock => "this->mockTlmWrite(\"CurrentState\", "

def Statement.read? (p : Profile) (text : String) : Option Statement :=
  (between? "if (" ") \x7b" text).map opens <|>
  (between? "transitionToState(" ");" text).map moves <|>
  (between? "m_currentState = " ";" text).map assigns <|>
  (between? (logHead p) ");" text).bind (fun operands =>
    (divide? ", " operands).map fun (source, target) => logs source target) <|>
  (between? (telemetryHead p) ");" text).map reports <|>
  [("\x7d", closes), ("break;", breaks), ("return;", returns)].lookup text

/-- An enumerator with its number. -/
def enumerator? (line : String) : Option (String × Nat) :=
  (divide? " = " line).map fun (constant, number) =>
    (constant, Decimal.digitsValue (number.toList.takeWhile Char.isDigit))

/-- A case that returns a string. -/
def stateCase? (line : String) : Option (String × String) :=
  ((between? "case " ";" line).bind (divide? ": return ")).bind fun (constant, literal) =>
    (unquote? literal).map fun name => (constant, name)

def defaultName? (line : String) : Option String :=
  (between? "default: return " ";" line).bind unquote?

/-! ### Running -/

/-- The lines of an emitted class on which transitions rest. -/
structure Code where
  profile : Profile
  /-- The enumeration of the states. -/
  enumeration : List String
  /-- The method that makes transitions. -/
  transition : List String
  /-- The method that names states. -/
  names : List String

/-- The number of the current state, and the effects so far. -/
structure Store where
  current : Nat
  calls : List SinkCall
deriving Repr, DecidableEq

/-- How control leaves some lines. -/
inductive Ending where
  | through
  | broken
  | returned
deriving Repr, DecidableEq

namespace Code

variable (c : Code)

def valueOf? (constant : String) : Option Nat :=
  (c.enumeration.filterMap enumerator?).lookup constant

/-- What the switch over the states returns for a number. -/
def nameOf? (value : Nat) : Option String :=
  match (c.names.filterMap stateCase?).find? (fun (constant, _) => c.valueOf? constant = some value) with
  | some (_, name) => some name
  | none => c.names.findSome? defaultName?

variable (guard : String → Option Bool) (argument : Option Nat)

/-- The number of a state that is the current one, the argument, or given by its constant. -/
def state? (s : Store) (operand : String) : Option Nat :=
  if operand = "m_currentState" then some s.current
  else if operand = "newState" then argument
  else c.valueOf? operand

def string? (s : Store) (operand : String) : Option String :=
  ((between? "getStateName(" ")" operand).bind (c.state? argument s)).bind c.nameOf?

/-- A comparison of states, or the answer of a guard. -/
def holds? (s : Store) (condition : String) : Option Bool :=
  match divide? " == " condition with
  | some (left, right) => do
    return decide ((← c.state? argument s left) = (← c.state? argument s right))
  | none => (between? "" "()" condition).bind guard

/-- Carries out a statement without control. -/
def perform (call : Nat → Store → Option Store) (s : Store) : Statement → Option Store
  | .moves target => do call (← c.state? argument s target) s
  | .assigns value => do return { s with current := ← c.state? argument s value }
  | .logs source target => do
    let call := SinkCall.log (← c.string? argument s source) (← c.string? argument s target)
    return { s with calls := s.calls ++ [call] }
  | .reports state => do
    return { s with calls := s.calls ++ [.telemetry (← c.string? argument s state)] }
  | _ => none

/-- Runs statements inside a number of open blocks, `skipped` of which are passed over. The brace
that closes no open block ends the method. A line that is no statement must not be reached. -/
def run (call : Nat → Store → Option Store) :
    Nat → Nat → List (Option Statement) → Store → Option (Ending × Store)
  | _, _, [], s => some (.through, s)
  | opened, skipped + 1, line :: rest, s =>
    match line with
    | some (.opens _) => run call opened (skipped + 2) rest s
    | some .closes => run call opened skipped rest s
    | _ => run call opened (skipped + 1) rest s
  | opened, 0, line :: rest, s =>
    match line with
    | none => none
    | some (.opens condition) =>
      match c.holds? guard argument s condition with
      | none => none
      | some true => run call (opened + 1) 0 rest s
      | some false => run call opened 1 rest s
    | some .closes =>
      match opened with
      | 0 => some (.through, s)
      | opened + 1 => run call opened 0 rest s
    | some .breaks => some (.broken, s)
    | some .returns => some (.returned, s)
    | some statement =>
      match c.perform argument call s statement with
      | none => none
      | some s => run call opened 0 rest s

/-- The lines of a method behind its opening brace. -/
def body (method : List String) : List String :=
  (method.dropWhile (· ≠ "\x7b")).tail

/-- Makes a transition, which calls no method that makes transitions. -/
def transitionTo (target : Nat) (s : Store) : Option Store :=
  (c.run guard (some target) (fun _ _ => none) 0 0
    ((body c.transition).map (Statement.read? c.profile)) s).map (·.2)

/-- Runs lines of a handler. -/
def execute (lines : List String) (s : Store) : Option (Ending × Store) :=
  c.run guard none (c.transitionTo guard) 0 0 (lines.map (Statement.read? c.profile)) s

end Code

/-- Lines without their indentation. -/
def contents (p : Profile) (lines : List Line) : List String :=
  lines.map (·.content.text p)

/-! ### What is read -/

theorem between?_append (first last text : String) :
    between? first last (first ++ text ++ last) = some text := by
  simp [between?]

theorem between?_eq_none {first text : String} (h : ¬ first.toList <+: text.toList) (last : String) :
    between? first last text = none :=
  if_neg fun hboth => h hboth.1

theorem divide?_append {separator left : String} {c : Char} (hc : separator.toList.head? = some c)
    (hleft : c ∉ left.toList) (right : String) :
    divide? separator (left ++ separator ++ right) = some (left, right) := by
  obtain ⟨cs, hseparator⟩ := List.head?_eq_some_iff.1 hc
  have hbefore : ∀ x ∈ left.toList, (!decide (c = x)) = true := by
    intro x hx
    simpa using fun h : c = x => hleft (h ▸ hx)
  simp [divide?, hseparator, List.dropWhile_append_of_pos hbefore,
    List.takeWhile_append_of_pos hbefore]

theorem divide?_eq_none {separator text : String} {c : Char} (hc : separator.toList.head? = some c)
    (htext : c ∉ text.toList) : divide? separator text = none := by
  obtain ⟨cs, hseparator⟩ := List.head?_eq_some_iff.1 hc
  have hrest : text.toList.dropWhile (fun x => !decide (c = x)) = [] := by
    refine List.dropWhile_eq_nil_iff.2 fun x hx => ?_
    simpa using fun h : c = x => htext (h ▸ hx)
  simp [divide?, hseparator, hrest]

theorem unescape_cons {c : Char} (hc : c ≠ '\\') (cs : List Char) :
    unescape (c :: cs) = c :: unescape cs := by
  conv_lhs => unfold unescape
  split <;> simp_all

theorem unescape_flatMap (cs : List Char) :
    unescape (cs.flatMap fun c => if c = '"' || c = '\\' then ['\\', c] else [c]) = cs := by
  induction cs with
  | nil => rfl
  | cons c cs ih =>
    rw [List.flatMap_cons]
    split
    · rw [List.cons_append, List.singleton_append, unescape, ih]
    · rename_i hc
      have hne : c ≠ '\\' := by
        rintro rfl
        exact hc rfl
      rw [List.singleton_append, unescape_cons hne, ih]

theorem unquote?_cppString (text : String) : unquote? (cppString text) = some text := by
  have hquoted : cppString text = "\"" ++ String.ofList (text.toList.flatMap fun c =>
      if c = '"' || c = '\\' then ['\\', c] else [c]) ++ "\"" := by
    apply String.toList_injective
    simp [cppString]
  rw [unquote?, hquoted, between?_append, Option.map_some, String.toList_ofList, unescape_flatMap,
    String.ofList_toList]

theorem read?_guarded (p : Profile) (method : String) :
    Statement.read? p ("if (" ++ method ++ "())" ++ " \x7b") = some (.opens (method ++ "()")) := by
  have htext : "if (" ++ method ++ "())" ++ " \x7b" = "if (" ++ (method ++ "()") ++ ") \x7b" := by
    apply String.toList_injective
    simp
  rw [htext, Statement.read?, between?_append]
  rfl

theorem read?_moves (p : Profile) (target : String) :
    Statement.read? p ("transitionToState(" ++ target ++ ");") = some (.moves target) := by
  have hopens : between? "if (" ") \x7b" ("transitionToState(" ++ target ++ ");") = none :=
    between?_eq_none (by simp) _
  rw [Statement.read?, hopens, between?_append]
  rfl

theorem enumerator?_append {constant : String} (hconstant : ' ' ∉ constant.toList) (n : Nat)
    (tail : String) (htail : ∀ c ∈ tail.toList.head?, c.isDigit = false) :
    enumerator? (constant ++ " = " ++ toString n ++ tail) = some (constant, n) := by
  have hdigits : ((toString n ++ tail).toList.takeWhile Char.isDigit) = Nat.toDigits 10 n := by
    have hend : tail.toList.takeWhile Char.isDigit = [] := by
      cases htail' : tail.toList with
      | nil => rfl
      | cons c cs => exact List.takeWhile_cons_of_neg (by simp [htail c (by simp [htail'])])
    have hnumber : (toString n).toList = Nat.toDigits 10 n := by simp [toString, Nat.repr]
    rw [String.toList_append, hnumber, List.takeWhile_append_of_pos Decimal.isDigit_toDigits, hend,
      List.append_nil]
  simp only [enumerator?, String.append_assoc]
  rw [← String.append_assoc, divide?_append rfl hconstant]
  simp only [Option.map_some, hdigits, Decimal.digitsValue_toDigits]

theorem stateCase?_append {constant : String} (hconstant : ':' ∉ constant.toList) (name : String) :
    stateCase? ("case " ++ constant ++ ": return " ++ cppString name ++ ";") =
      some (constant, name) := by
  have htext : "case " ++ constant ++ ": return " ++ cppString name ++ ";" =
      "case " ++ (constant ++ ": return " ++ cppString name) ++ ";" := by
    simp only [String.append_assoc]
  rw [stateCase?, htext, between?_append, Option.bind_some, divide?_append rfl hconstant]
  simp only [Option.bind_some, unquote?_cppString, Option.map_some]

end FlightGen.Emitted

/-- The code that is emitted for a bundle. -/
def FlightGen.Bundle.code (b : Bundle) (p : Profile) : Emitted.Code where
  profile := p
  enumeration := Emitted.contents p (Header.stateLines b.machine)
  transition := Emitted.contents p (Implementation.transitionLines b)
  names := Emitted.contents p (Implementation.stateNameLines b)
