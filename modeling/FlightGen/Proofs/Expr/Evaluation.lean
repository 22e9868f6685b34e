import FlightGen.Expr.Eval
import FlightGen.Proofs.Fallible

/-! What the evaluation of an expression can come to. An operator at the root that yields a
boolean yields nothing else, and an error is about something in the expression: a variable
without a value, or an operand of the wrong type. -/

namespace FlightGen

/-- The type that an operator needs. -/
def UnaryOp.needs : UnaryOp → Scalar
  | negate => .float
  | not => .bool

/-- The type that an operator needs of both operands. Equality compares values of any types. -/
def BinaryOp.needs? : BinaryOp → Option Scalar
  | logic _ => some .bool
  | equal | notEqual => none
  | order _ | arith _ => some .float

namespace Expr

/-- The operands in an expression that need a type, each with the symbol of its operator and
the type. -/
def operands : Expr → List (String × Scalar × Expr)
  | literal _ => []
  | var _ => []
  | unary op e => (op.symbol, op.needs, e) :: e.operands
  | binary op l r =>
    (op.needs?.toList.flatMap fun s => [(op.symbol, s, l), (op.symbol, s, r)]) ++
      (l.operands ++ r.operands)

/-- The errors that an expression accounts for. -/
inductive Faults (lookup : String → Option Value) (e : Expr) : EvalError → Prop
  | unbound {name : String} : name ∈ e.occurrences → lookup name = none →
      Faults lookup e (.unbound name)
  | mismatch {symbol : String} {needed : Scalar} {operand : Expr} {found : Value} :
      (symbol, needed, operand) ∈ e.operands → operand.eval lookup = .ok found →
      needed.accepts found = false → Faults lookup e (.mismatch symbol needed found)

variable {lookup : String → Option Value}

theorem Faults.mono {e e' : Expr} {error : EvalError} (h : Faults lookup e error)
    (hvars : e.occurrences ⊆ e'.occurrences) (hoperands : e.operands ⊆ e'.operands) :
    Faults lookup e' error := by
  cases h with
  | unbound hname hlookup => exact .unbound (hvars hname) hlookup
  | mismatch hoperand heval hfound => exact .mismatch (hoperands hoperand) heval hfound

end Expr

/-! ### Operators -/

section Operators

variable {symbol : String} {v v' : Value} {e : EvalError}

theorem UnaryOp.apply_eq_error {op : UnaryOp} (h : op.apply v = .error e) :
    e = .mismatch op.symbol op.needs v ∧ op.needs.accepts v = false := by
  cases op <;> cases v <;> cases h <;> exact ⟨rfl, rfl⟩

theorem asBool_eq_error (h : asBool symbol v = .error e) :
    e = .mismatch symbol .bool v ∧ Scalar.bool.accepts v = false := by
  cases v <;> cases h
  exact ⟨rfl, rfl⟩

theorem asNumbers_eq_error (h : asNumbers symbol v v' = .error e) :
    ∃ found, (found = v ∨ found = v') ∧ e = .mismatch symbol .float found ∧
      Scalar.float.accepts found = false := by
  cases v with
  | bool b =>
    cases h
    exact ⟨_, .inl rfl, rfl, rfl⟩
  | number n =>
    cases v' <;> cases h
    exact ⟨_, .inr rfl, rfl, rfl⟩

end Operators

namespace Expr

variable {lookup : String → Option Value}

theorem failsOnly_operand (op : BinaryOp) {l r : Expr}
    (hl : FailsOnly (l.Faults lookup) (l.eval lookup)) (hr : FailsOnly (r.Faults lookup) (r.eval lookup)) :
    FailsOnly ((binary op l r).Faults lookup) (l.eval lookup) ∧
      FailsOnly ((binary op l r).Faults lookup) (r.eval lookup) := by
  refine ⟨fun e he => (hl e he).mono ?_ ?_, fun e he => (hr e he).mono ?_ ?_⟩
  · exact List.subset_append_left _ _
  · exact fun o ho => List.mem_append_right _ (List.mem_append_left _ ho)
  · exact List.subset_append_right _ _
  · exact fun o ho => List.mem_append_right _ (List.mem_append_right _ ho)

section

variable {op : BinaryOp} {l r : Expr} {v v' : Value}

theorem mem_operands_binary (l r : Expr) {needed : Scalar} (h : op.needs? = some needed) :
    (op.symbol, needed, l) ∈ (binary op l r).operands ∧
      (op.symbol, needed, r) ∈ (binary op l r).operands := by
  simp [operands, h]

theorem failsOnly_asBool {operand : Expr}
    (hmem : (op.symbol, Scalar.bool, operand) ∈ (binary op l r).operands)
    (hv : operand.eval lookup = .ok v) :
    FailsOnly ((binary op l r).Faults lookup) (asBool op.symbol v) := by
  intro e he
  obtain ⟨rfl, hfound⟩ := asBool_eq_error he
  exact .mismatch hmem hv hfound

theorem failsOnly_asNumbers (op : BinaryOp) (h : op.needs? = some .float) (hv : l.eval lookup = .ok v)
    (hv' : r.eval lookup = .ok v') :
    FailsOnly ((binary op l r).Faults lookup) (asNumbers op.symbol v v') := by
  intro e he
  obtain ⟨hl, hr⟩ := mem_operands_binary l r h
  obtain ⟨_, rfl | rfl, rfl, hfound⟩ := asNumbers_eq_error he
  · exact .mismatch hl hv hfound
  · exact .mismatch hr hv' hfound

end

/-- Every error of an evaluation is about something in the expression. -/
theorem failsOnly_eval (e : Expr) : FailsOnly (e.Faults lookup) (e.eval lookup) := by
  induction e with
  | literal v => exact .ok v
  | var name =>
    rw [eval]
    cases hname : lookup name with
    | some v => exact .ok v
    | none => exact .error (.unbound (by simp [occurrences]) hname)
  | unary op e ih =>
    have hoperand : FailsOnly ((unary op e).Faults lookup) (e.eval lookup) := fun error he =>
      (ih error he).mono (List.Subset.refl _) (List.subset_cons_self _ _)
    refine hoperand.bind fun v hv error he => ?_
    obtain ⟨rfl, hfound⟩ := UnaryOp.apply_eq_error he
    exact .mismatch List.mem_cons_self hv hfound
  | binary op l r ihl ihr =>
    obtain ⟨hl, hr⟩ := failsOnly_operand op ihl ihr
    cases op with
    | logic op =>
      have hneeds : (BinaryOp.logic op).needs? = some .bool := rfl
      obtain ⟨hmeml, hmemr⟩ := mem_operands_binary l r hneeds
      refine hl.bind fun v hv => (failsOnly_asBool hmeml hv).bind fun left _ => ?_
      split
      · exact .ok _
      · exact hr.bind fun v' hv' => (failsOnly_asBool hmemr hv').bind fun right _ => .ok _
    | equal => exact hl.bind fun v _ => hr.bind fun v' _ => .ok _
    | notEqual => exact hl.bind fun v _ => hr.bind fun v' _ => .ok _
    | order op => exact hl.bind fun v hv => hr.bind fun v' hv' =>
        (failsOnly_asNumbers (.order op) rfl hv hv').bind fun numbers _ => .ok _
    | arith op => exact hl.bind fun v hv => hr.bind fun v' hv' =>
        (failsOnly_asNumbers (.arith op) rfl hv hv').bind fun numbers _ => .ok _

/-! ### Variables -/

theorem occurrences_rename (f : String → String) (e : Expr) :
    (e.rename f).occurrences = e.occurrences.map f := by
  induction e with
  | literal v => rfl
  | var name => rfl
  | unary op e ih => exact ih
  | binary op l r ihl ihr => simp only [rename, occurrences, ihl, ihr, List.map_append]

/-! ### Booleans -/

/-- An operator at the root that yields a boolean yields nothing else. -/
theorem eval_of_isBoolean {e : Expr} (h : e.isBoolean = true) {v : Value}
    (heval : e.eval lookup = .ok v) : ∃ b, v = .bool b := by
  cases e with
  | literal value =>
    cases value with
    | number n => cases h
    | bool b =>
      cases heval
      exact ⟨b, rfl⟩
  | var name => cases h
  | unary op e =>
    obtain ⟨operand, -, heval⟩ := bind_eq_ok.1 heval
    cases op with
    | negate => cases h
    | not =>
      cases operand <;> cases heval
      exact ⟨_, rfl⟩
  | binary op l r =>
    cases op with
    | logic op =>
      obtain ⟨_, -, heval⟩ := bind_eq_ok.1 heval
      obtain ⟨left, -, heval⟩ := bind_eq_ok.1 heval
      split at heval
      · cases heval
        exact ⟨left, rfl⟩
      · obtain ⟨_, -, heval⟩ := bind_eq_ok.1 heval
        obtain ⟨right, -, heval⟩ := bind_eq_ok.1 heval
        cases heval
        exact ⟨right, rfl⟩
    | equal =>
      obtain ⟨_, -, heval⟩ := bind_eq_ok.1 heval
      obtain ⟨_, -, heval⟩ := bind_eq_ok.1 heval
      cases heval
      exact ⟨_, rfl⟩
    | notEqual =>
      obtain ⟨_, -, heval⟩ := bind_eq_ok.1 heval
      obtain ⟨_, -, heval⟩ := bind_eq_ok.1 heval
      cases heval
      exact ⟨_, rfl⟩
    | order op =>
      obtain ⟨_, -, heval⟩ := bind_eq_ok.1 heval
      obtain ⟨_, -, heval⟩ := bind_eq_ok.1 heval
      obtain ⟨_, -, heval⟩ := bind_eq_ok.1 heval
      cases heval
      exact ⟨_, rfl⟩
    | arith op => cases h

@[simp] theorem isBoolean_rename (f : String → String) (e : Expr) :
    (e.rename f).isBoolean = e.isBoolean := by
  cases e with
  | literal v => rfl
  | var name => rfl
  | unary op e => cases op <;> rfl
  | binary op l r => rfl

end Expr

end FlightGen
