import FlightGen.Proofs.Expr.Acceptance
import FlightGen.Proofs.Expr.Scanning

/-! Printing and reading. The text of an expression puts in parentheses what its layer cannot
hold, so that it reads back as the expression, but for infinite literals: their text is a
name. -/

namespace FlightGen

namespace Expr

/-- Trees that have a text: names for variables, and literals without a sign. -/
def Printable : Expr → Prop
  | literal (.number x) => IsUnsigned x
  | literal (.bool _) => True
  | var name => IsName name ∧ name ≠ "true" ∧ name ≠ "false"
  | unary _ e => e.Printable
  | binary _ l r => l.Printable ∧ r.Printable

def isInfinite (x : Float) : Bool :=
  match Binary64.form x with
  | .infinite _ => true
  | _ => false

/-- Some number literal is infinite. -/
def hasInfinite : Expr → Bool
  | literal (.number x) => isInfinite x
  | literal (.bool _) => false
  | var _ => false
  | unary _ e => e.hasInfinite
  | binary _ l r => l.hasInfinite || r.hasInfinite

/-- The tree in which a variable `inf` stands for each infinite literal. -/
def nameInfinite : Expr → Expr
  | literal (.number x) => if isInfinite x then var "inf" else literal (.number x)
  | literal (.bool b) => literal (.bool b)
  | var name => var name
  | unary op e => unary op e.nameInfinite
  | binary op l r => binary op l.nameInfinite r.nameInfinite

theorem nameInfinite_eq_self {e : Expr} : e.nameInfinite = e ↔ e.hasInfinite = false := by
  induction e with
  | literal v =>
    cases v with
    | number x => cases h : isInfinite x <;> simp [nameInfinite, hasInfinite, h]
    | bool b => simp [nameInfinite, hasInfinite]
  | var name => simp [nameInfinite, hasInfinite]
  | unary op e ih => simpa [nameInfinite, hasInfinite] using ih
  | binary op l r ihl ihr => simp [nameInfinite, hasInfinite, ihl, ihr]

/-! ### The tokens of a text -/

open Token (Lexes)

theorem strength_le_primary (layer : Layer) : layer.strength ≤ Layer.primary.strength := by
  cases layer <;> decide

/-- The operand fits its layer, or stands in parentheses. -/
theorem lexes_parenthesize {text : String} {ts : List Token} {e : Expr} {inner layer : Layer}
    (needed : Bool) (hlexes : Lexes text.toList ts) (hderives : inner.Derives ts e)
    (hfits : needed = false → layer.strength ≤ inner.strength) :
    ∃ ts, Lexes (parenthesize needed text).toList ts ∧ layer.Derives ts e := by
  cases needed with
  | false => exact ⟨ts, hlexes, hderives.loosen layer (hfits rfl)⟩
  | true =>
    have hgroup := Layer.Derives.group (hderives.loosen .disjunction inner.strength_pos)
    refine ⟨_, ?_, hgroup.loosen layer (strength_le_primary layer)⟩
    have htext : (parenthesize true text).toList = '(' :: (text.toList ++ [')']) := by
      simp [parenthesize]
    rw [htext]
    exact hlexes.group

theorem lexes_literal {x : Float} (h : IsUnsigned x) :
    ∃ ts, Lexes (literalText x).toList ts ∧ Layer.primary.Derives ts (nameInfinite (.literal (.number x))) := by
  unfold IsUnsigned at h
  cases hform : Binary64.form x with
  | nan => simp [hform] at h
  | infinite negative =>
    rw [hform] at h
    cases h
    have htext : literalText x = "inf" := by simp [literalText, hform, signed_false]
    have hinfinite : isInfinite x = true := by simp [isInfinite, hform]
    rw [htext, nameInfinite, if_pos hinfinite]
    exact ⟨_, Token.lexes_name (by decide), .var (by decide) (by decide)⟩
  | finite negative bits =>
    rw [hform] at h
    cases h
    obtain ⟨d, hplain, hd⟩ := plain_literalText hform
    have hinfinite : isInfinite x = false := by simp [isInfinite, hform]
    rw [nameInfinite, hinfinite, if_neg Bool.false_ne_true]
    have hlexes := Token.lexes_number hplain
    rw [hd] at hlexes
    exact ⟨_, hlexes, .number x⟩

/-- Below an operator of strength `outer`, the text of a tree is a phrase of any layer that
every operator fits that stands there without parentheses. -/
theorem lexes_renderUnder {e : Expr} (h : e.Printable) {outer : Nat} {right : Bool} {layer : Layer}
    (hlayer : ∀ inner : Layer, (decide (inner.strength < outer) ||
      (right && inner.strength == outer)) = false → layer.strength ≤ inner.strength) :
    ∃ ts, Lexes (e.renderUnder id outer right).toList ts ∧ layer.Derives ts e.nameInfinite := by
  induction e generalizing outer right layer with
  | literal v =>
    cases v with
    | number x =>
      obtain ⟨ts, hlexes, hderives⟩ := lexes_literal h
      exact lexes_parenthesize _ hlexes hderives (hlayer .primary)
    | bool b =>
      cases b with
      | true =>
        exact lexes_parenthesize _ (@Token.lexes_name "true" (by decide)) .yes (hlayer .primary)
      | false =>
        exact lexes_parenthesize _ (@Token.lexes_name "false" (by decide)) .no (hlayer .primary)
  | var name =>
    obtain ⟨hname, htrue, hfalse⟩ := h
    exact lexes_parenthesize _ (Token.lexes_name hname) (.var htrue hfalse) (hlayer .primary)
  | unary op e ih =>
    obtain ⟨ts, hlexes, hderives⟩ := @ih h UnaryOp.precedence false .unary (by
      intro inner hinner
      have hle : UnaryOp.precedence ≤ inner.strength := by simpa using hinner
      exact hle)
    refine lexes_parenthesize _ ?_ (hderives.unary op) (hlayer .unary)
    rw [String.toList_append]
    exact hlexes.unary op
  | binary op l r ihl ihr =>
    obtain ⟨inner, hop⟩ := Layer.exists_mem_operators op
    have hstrength := Layer.precedence_of_mem hop
    obtain ⟨ts, hlexes, hderives⟩ := @ihl h.1 op.precedence false inner (by
      intro other hother
      simpa [hstrength] using hother)
    -- Operators group to the left: the right side has to be of the next layer.
    obtain ⟨us, hlexes', hderives'⟩ := @ihr h.2 op.precedence true inner.next (by
      intro other hother
      rw [hstrength] at hother
      refine (Layer.strength_next ?_).2
      simp at hother
      omega)
    have htext : (l.renderUnder id op.precedence false ++ " " ++ op.symbol ++ " " ++
        r.renderUnder id op.precedence true).toList =
        (l.renderUnder id op.precedence false).toList ++
          ' ' :: (op.symbol.toList ++ ' ' :: (r.renderUnder id op.precedence true).toList) := by
      simp
    have hbinary := hlexes.binary hlexes' op
    rw [← htext] at hbinary
    refine lexes_parenthesize _ hbinary (.binary hop hderives hderives') fun hneeded => hlayer inner ?_
    rwa [precedence, hstrength] at hneeded

theorem tokenizes_text {e : Expr} (h : e.Printable) :
    ∃ ts, Token.Tokenizes e.text ts ∧ Layer.disjunction.Derives ts e.nameInfinite := by
  obtain ⟨ts, hlexes, hderives⟩ := @lexes_renderUnder e h 0 false .disjunction
    fun inner _ => inner.strength_pos
  exact ⟨ts, Token.tokenizes_of_yields hlexes.yields_all, hderives⟩

/-! ### Trees that are read -/

theorem printable_of_derives {layer : Layer} {ts : List Token} {e : Expr} (h : layer.Derives ts e)
    (hproper : ∀ t ∈ ts, t.IsProper) : e.Printable := by
  induction h with
  | next _ ih => exact ih hproper
  | binary _ _ _ ihl ihr =>
    obtain ⟨hl, hr⟩ := List.forall_mem_append.1 hproper
    exact ⟨ihl hl, ihr (List.forall_mem_cons.1 hr).2⟩
  | unary op _ ih => exact ih (List.forall_mem_cons.1 hproper).2
  | number x => exact hproper _ (List.mem_singleton_self _)
  | yes | no => trivial
  | var htrue hfalse => exact ⟨hproper _ (List.mem_singleton_self _), htrue, hfalse⟩
  | group _ ih =>
    exact ih (List.forall_mem_append.1 (List.forall_mem_cons.1 hproper).2).1

theorem parse_eq_ok {source : String} {ts : List Token} (h : Token.Tokenizes source ts) {e : Expr} :
    parse source = .ok e ↔ Layer.disjunction.Derives (Token.trim ts) e :=
  (readText_eq_ok h).trans SingleReading.run_iff_derives

theorem parse_text_eq {e : Expr} (h : e.Printable) : parse e.text = .ok e.nameInfinite := by
  obtain ⟨ts, htokens, hderives⟩ := tokenizes_text h
  obtain ⟨hne, hseparators⟩ := hderives.not_separator
  have htrim : Token.trim ts = ts :=
    Token.Padded.trim_eq ⟨[], [], by simp, by simp, by simp⟩ hne hseparators
  rw [parse_eq_ok htokens, htrim]
  exact hderives

theorem printable_of_parse {source : String} {e : Expr} (h : parse source = .ok e) :
    e.Printable := by
  obtain ⟨located, hscan, -⟩ := bind_eq_ok.1 h
  have htokens : Token.Tokenizes source (located.map (·.token)) := ⟨located, hscan, rfl⟩
  refine printable_of_derives ((parse_eq_ok htokens).1 h) fun t ht => htokens.isProper t ?_
  obtain ⟨lead, trail, heq, -⟩ := Token.padded_trim (located.map (·.token))
  rw [heq]
  simp [ht]

/-- Reading the text of a tree gives the tree back, except that infinite literals come back as
variables; and every tree that is read has a text. -/
theorem parse_text :
    (∀ e : Expr, e.Printable → parse e.text = .ok e.nameInfinite ∧
      (parse e.text = .ok e ↔ e.hasInfinite = false)) ∧
    ∀ source e, parse source = .ok e → e.Printable := by
  refine ⟨fun e h => ⟨parse_text_eq h, ?_⟩, fun _ _ => printable_of_parse⟩
  rw [parse_text_eq h, Except.ok.injEq]
  exact nameInfinite_eq_self

end Expr

/-! ### A sample tree -/

namespace Sample

/-- `!(x == inf) || 0.1 < y - (x - 2.0)`, where `inf` is a literal. -/
def limitTree : Expr :=
  .binary (.logic .or)
    (.unary .not (.binary .equal (.var "x") (.literal (.number (Float.ofBits 0x7FF0000000000000)))))
    (.binary (.order .less) (.literal (.number 0.1))
      (.binary (.arith .subtract) (.var "y")
        (.binary (.arith .subtract) (.var "x") (.literal (.number 2.0)))))

theorem printable_limitTree : limitTree.Printable := by
  simp only [limitTree, Expr.Printable]
  decide +kernel

theorem parse_text_limitTree :
    limitTree.text = "!(x == inf) || 0.1 < y - (x - 2.0)" ∧
      Expr.parse limitTree.text = .ok limitTree.nameInfinite ∧
      Expr.parse limitTree.text ≠ .ok limitTree ∧ guardTree.Printable := by
  refine ⟨by decide +kernel, (Expr.parse_text.1 _ printable_limitTree).1, ?_, ?_⟩
  · rw [Ne, (Expr.parse_text.1 _ printable_limitTree).2]
    decide +kernel
  · exact Expr.parse_text.2 _ guardTree ((Expr.parse_eq_ok tokenizes_guard).2 derives_guard)

end Sample

end FlightGen
