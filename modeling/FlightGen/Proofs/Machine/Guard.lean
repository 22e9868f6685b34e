import FlightGen.Artifact.Implementation
import FlightGen.Proofs.Expr.RoundTrip
import FlightGen.Proofs.Machine.Simulation
import FlightGen.Proofs.Model.Distinct

/-! A guard means the same wherever it stands: as it is written over the names of attributes,
as the machine decides it over their identifiers, and as the emitted code spells it over the
members of the class. -/

namespace FlightGen

/-! ### Spelling -/

namespace Expr

/-- To spell variables in some way is to rename them first. -/
theorem renderUnder_rename (f spell : String → String) (e : Expr) (outer : Nat) (right : Bool) :
    (e.rename f).renderUnder spell outer right = e.renderUnder (spell ∘ f) outer right := by
  induction e generalizing outer right with
  | literal v => rfl
  | var name => rfl
  | unary op e ih =>
    rw [rename, renderUnder, renderUnder, ih]
    rfl
  | binary op l r ihl ihr =>
    rw [rename, renderUnder, renderUnder, ihl, ihr]
    rfl

theorem render_eq_text (spell : String → String) (e : Expr) : e.render spell = (e.rename spell).text := by
  rw [text, render, render, renderUnder_rename]
  rfl

theorem rename_rename (f g : String → String) (e : Expr) :
    (e.rename f).rename g = e.rename (g ∘ f) := by
  induction e with
  | literal v => rfl
  | var name => rfl
  | unary op e ih => simp only [rename, ih]
  | binary op l r ihl ihr => simp only [rename, ihl, ihr]

theorem hasInfinite_rename (f : String → String) (e : Expr) :
    (e.rename f).hasInfinite = e.hasInfinite := by
  induction e with
  | literal v => cases v <;> rfl
  | var name => rfl
  | unary op e ih => exact ih
  | binary op l r ihl ihr => simp only [rename, hasInfinite, ihl, ihr]

/-- A tree keeps its text if its variables get names. -/
theorem Printable.rename {f : String → String} {e : Expr} (h : e.Printable)
    (hf : ∀ v ∈ e.occurrences, IsName (f v) ∧ f v ≠ "true" ∧ f v ≠ "false") :
    (e.rename f).Printable := by
  induction e with
  | literal v => exact h
  | var name => exact hf name (by simp [occurrences])
  | unary op e ih => exact ih h hf
  | binary op l r ihl ihr =>
    obtain ⟨hl, hr⟩ := List.forall_mem_append.1 hf
    exact ⟨ihl h.1 hl, ihr h.2 hr⟩

end Expr

theorem isName_memberName {ident : String} (h : IsIdentifier ident) : IsName (memberName ident) := by
  have hname : IsName "m_" := by decide +kernel
  exact hname.append h.1.isWord

theorem memberName_injective : Function.Injective memberName := by
  intro s s' h
  simpa [memberName] using h

theorem memberName_ne {word : String} (hword : '_' ∉ word.toList) (ident : String) :
    memberName ident ≠ word := by
  rintro rfl
  simp [memberName] at hword

/-! ### Valuations -/

/-- The attributes of a definition with their values. -/
def Definition.Component.valued (d : Definition.Component) (value : String → Value) :
    List (String × Value) :=
  d.attributes.map fun f => (f.name, value f.name)

/-- The attributes of a component with their values, each of them spelled in some way. -/
def Component.valued (c : Component) (spell : Name → String) (value : String → Value) :
    List (String × Value) :=
  c.attributes.map fun f => (spell f.name, value f.name.raw)

/-- The guard of a transition, read as the tree `e` of its text, decides alike in the model, in
the machine and in the emitted code, whatever values the attributes have. -/
structure Component.GuardAgrees (c : Component) (transition : Nat) (source : String) (e : Expr)
    (value : String → Value) (result : Except EvalError Value) : Prop where
  resolved : ∃ g, c.transitions[transition]?.bind (·.guard) = some g ∧ g.source = source ∧
    g.condition.eval ((c.valued (·.ident) value).lookup ·) = result
  permitted : ∃ t, c.synthesize.transitions[transition]? = some t ∧
    Execution.permits c.synthesize (c.valued (·.ident) value) t =
      (result.map fun v => decide (v = .bool true)).mapError .expression
  emitted : e.hasInfinite = false → ∃ t g text e', c.synthesize.transitions[transition]? = some t ∧
    t.guard.bind (c.synthesize.guards[·]?) = some g ∧
    (∀ b, Implementation.guardLines b g = Implementation.method
      ("bool " ++ b.className ++ "::" ++ g.method ++ "()")
      [Line.note source, Line.code ("return " ++ text ++ ";")]) ∧
    Expr.parse text = .ok e' ∧
    e'.eval ((c.valued (fun n => memberName n.ident) value).lookup ·) = result

namespace Component.Realizes

variable {d : Definition.Component} {c : Component} (h : c.Realizes d)

include h

theorem valued_raw (value : String → Value) : c.valued (·.raw) value = d.valued value := by
  have hraws := map_raw_eq Field.name h.attributes fun _ _ hf => hf.1
  have hpairs := congrArg (List.map fun raw => (raw, value raw)) hraws
  simpa [Component.valued, Definition.Component.valued, Function.comp_def] using hpairs

/-- Spellings that tell the attributes apart do not matter to an expression over them. -/
theorem eval_rename (spell : Name → String) (hspell : (c.attributes.map (spell ·.name)).Nodup)
    {f : String → String}
    (hf : ∀ v field, attribute? c.attributes v = some field → f v = spell field.name) {e : Expr}
    (he : ∀ v ∈ e.occurrences, ∃ field, attribute? c.attributes v = some field)
    (value : String → Value) :
    (e.rename f).eval ((c.valued spell value).lookup ·) = e.eval ((d.valued value).lookup ·) := by
  refine e.eval_rename fun v hv => ?_
  obtain ⟨field, hfield⟩ := he v hv
  have hmem := List.mem_of_find?_eq_some hfield
  have hraw : field.name.raw = v := by simpa using List.find?_some hfield
  refine ⟨value field.name.raw, ?_, ?_⟩
  · rw [hf v field hfield]
    exact lookup_of_nodup hspell hmem
  · rw [← h.valued_raw, ← hraw]
    exact lookup_of_nodup h.attributeRaws hmem

end Component.Realizes

theorem attributeIdent_eq {attributes : List Field} {v : String} {field : Field}
    (h : attribute? attributes v = some field) : attributeIdent attributes v = field.name.ident := by
  simp [attributeIdent, h]

/-- What the emitted code returns reads as the guard over the members. -/
theorem parse_render_memberName {c : Component} {source : String} {e : Expr}
    (hidents : ∀ field ∈ c.attributes, IsIdentifier field.name.ident)
    (hparse : Expr.parse source = .ok e)
    (he : ∀ v ∈ e.occurrences, ∃ field, attribute? c.attributes v = some field)
    (hfinite : e.hasInfinite = false) :
    Expr.parse ((e.rename (attributeIdent c.attributes)).render memberName) =
      .ok (e.rename (memberName ∘ attributeIdent c.attributes)) := by
  rw [Expr.render_eq_text, Expr.rename_rename, Expr.parse_text_eq, Expr.nameInfinite_eq_self.2]
  · rwa [Expr.hasInfinite_rename]
  refine (Expr.printable_of_parse hparse).rename fun v hv => ?_
  obtain ⟨field, hfield⟩ := he v hv
  rw [Function.comp_apply, attributeIdent_eq hfield]
  exact ⟨isName_memberName (hidents field (List.mem_of_find?_eq_some hfield)),
    memberName_ne (by decide) _, memberName_ne (by decide) _⟩

theorem Execution.permits_eq {m : Machine} {attributes : List (String × Value)}
    {t : Machine.Transition} {g : Machine.Guard} (h : t.guard.bind (m.guards[·]?) = some g) :
    permits m attributes t = ((g.condition.eval (attributes.lookup ·)).map
      fun v => decide (v = .bool true)).mapError .expression := by
  have hcondition : (t.guard.bind (m.guards[·]?)).map (·.condition) = some g.condition := by
    rw [h]
    rfl
  cases heval : g.condition.eval (attributes.lookup ·) with
  | ok value => exact permits_guarded hcondition heval
  | error error => exact permits_failed hcondition heval

/-- A resolved guard agrees with its text, if the attributes have identifiers. -/
theorem Component.Realizes.guardAgrees {d : Definition.Component} {c : Component} (h : c.Realizes d)
    (hidents : ∀ field ∈ c.attributes, IsIdentifier field.name.ident) {j : Nat} {t : Transition}
    (ht : c.transitions[j]? = some t) {source : String} {e : Expr}
    (hg : t.guard = some ⟨source, e.rename (attributeIdent c.attributes)⟩)
    (hparse : Expr.parse source = .ok e)
    (he : ∀ v ∈ e.occurrences, ∃ field, attribute? c.attributes v = some field)
    (value : String → Value) :
    c.GuardAgrees j source e value (e.eval ((d.valued value).lookup ·)) := by
  obtain ⟨t', ht', -, -, -, hguard⟩ := c.exists_transition ht
  obtain ⟨g, hbind, hgeq⟩ := Option.map_eq_some_iff.1 (hguard.trans hg)
  obtain ⟨rfl, hcondition⟩ : g.source = source ∧
      g.condition = e.rename (attributeIdent c.attributes) := by simpa using hgeq
  have heval := h.eval_rename (·.ident) h.attributeIdents
    (fun v field hfield => attributeIdent_eq hfield) he value
  constructor
  · exact ⟨_, by rw [ht]; exact hg, rfl, heval⟩
  · refine ⟨t', ht', ?_⟩
    rw [Execution.permits_eq hbind, hcondition, heval]
  · intro hfinite
    have hmembers : (c.attributes.map fun f => memberName f.name.ident).Nodup := by
      have hnodup := h.attributeIdents.map memberName_injective
      rwa [List.map_map] at hnodup
    refine ⟨t', g, g.condition.render memberName, e.rename (memberName ∘ attributeIdent c.attributes),
      ht', hbind, fun b => rfl, ?_, ?_⟩
    · rw [hcondition]
      exact parse_render_memberName hidents hparse he hfinite
    · exact h.eval_rename (fun n => memberName n.ident) hmembers
        (fun v field hfield => congrArg memberName (attributeIdent_eq hfield)) he value

/-! ### A sample guard

A guard that reads one of two attributes which make the same identifier. -/

namespace Sample

def latchDefinition : Definition where
  recordTypes := []
  components := [{
    name := "Latch"
    attributes := [⟨"new_", .bool⟩, ⟨"new", .float⟩]
    machine := {
      name := "Cycle"
      initial := "Shut"
      states := [⟨"Shut", []⟩]
      transitions := [⟨"Shut", "Shut", some "new < 2.5 || !(new == 3)", none⟩] }
    activities := [] }]

theorem exists_build_latchDefinition : ∃ m, Model.build latchDefinition = .ok m :=
  exists_of_isOk (by decide +kernel)

end Sample

/-- Every guard of a built model agrees with its text, in errors too. -/
theorem Model.guard_agrees {d : Definition} {m : Model} (h : Model.build d = .ok m) {i j : Nat}
    {dc : Definition.Component} {dt : Definition.Transition} {source : String}
    (hdc : d.components[i]? = some dc) (hdt : dc.machine.transitions[j]? = some dt)
    (hsource : dt.guard = some source) (value : String → Value) :
    ∃ c e, m.components[i]? = some c ∧ Expr.parse source = .ok e ∧
      c.GuardAgrees j source e value (e.eval ((dc.valued value).lookup ·)) := by
  obtain ⟨S⟩ := exists_modelStages h
  obtain ⟨c, hc, ⟨R⟩⟩ := getElem?_of_forall₂ S.componentRuns hdc
  obtain ⟨t, ht, htransition⟩ := getElem?_of_forall₂ R.realizes.transitions hdt
  have hidents : ∀ field ∈ c.attributes, IsIdentifier field.name.ident := fun field hfield =>
    R.stages.attributes.isIdentifier R.rendered_after _ (List.mem_map_of_mem hfield)
  have hguard := htransition.guard
  rw [hsource] at hguard
  generalize hg : t.guard = guard at hguard
  cases hguard with
  | @present _ e hparse he =>
    exact ⟨c, e, hc, hparse, R.realizes.guardAgrees hidents ht hg hparse he value⟩

theorem Sample.guard_agrees_latch :
    ∃ m c e dc, Model.build latchDefinition = .ok m ∧ latchDefinition.components[0]? = some dc ∧
      m.components[0]? = some c ∧ Expr.parse "new < 2.5 || !(new == 3)" = .ok e ∧
      c.GuardAgrees 0 "new < 2.5 || !(new == 3)" e (fun _ => .bool true)
        (e.eval ((dc.valued fun _ => .bool true).lookup ·)) := by
  obtain ⟨m, hm⟩ := exists_build_latchDefinition
  obtain ⟨c, e, hc, hparse, hagrees⟩ :=
    Model.guard_agrees hm (i := 0) (j := 0) rfl rfl rfl fun _ => .bool true
  exact ⟨m, c, e, _, hm, rfl, hc, hparse, hagrees⟩

end FlightGen
