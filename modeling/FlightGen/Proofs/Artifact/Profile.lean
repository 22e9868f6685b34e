import FlightGen.Artifact.Basic
import FlightGen.Proofs.Machine.Synthesis
import FlightGen.Proofs.Model.Distinct

/-! A profile changes where effects go, and nothing else. The files of a component under the two
profiles have the same lines, up to the calls by which effects take place and to the lines with
which the mock profile brings its own methods. -/

namespace FlightGen

/-! ### Texts as lines -/

namespace Text

def unlines (lines : List String) : String :=
  String.join (lines.map (· ++ "\n"))

/-- The text has exactly these lines, each ended by a newline. -/
structure Consists (text : String) (lines : List String) : Prop where
  text_eq : text = unlines lines
  single : ∀ line ∈ lines, '\n' ∉ line.toList

theorem notMem_append {c : Char} {s t : String} :
    c ∉ (s ++ t).toList ↔ c ∉ s.toList ∧ c ∉ t.toList := by
  simp

/-- Of a text that is spelled out, only the characters are looked at. -/
theorem notMem_ofList {c : Char} {cs : List Char} (h : c ∉ cs) : c ∉ (String.ofList cs).toList := by
  rwa [String.toList_ofList]

theorem unlines_append (lines lines' : List String) :
    unlines (lines ++ lines') = unlines lines ++ unlines lines' := by
  simp [unlines]

theorem Consists.append {text text' : String} {lines lines' : List String}
    (h : Consists text lines) (h' : Consists text' lines') :
    Consists (text ++ text') (lines ++ lines') := by
  refine ⟨by rw [unlines_append, ← h.text_eq, ← h'.text_eq], fun line hline => ?_⟩
  obtain hline | hline := List.mem_append.1 hline
  · exact h.single line hline
  · exact h'.single line hline

/-- Every text that ends with a newline consists of lines. -/
theorem exists_consists (text : String) : ∃ lines, Consists (text ++ "\n") lines := by
  obtain ⟨cs, rfl⟩ : ∃ cs, text = String.ofList cs := ⟨text.toList, by simp⟩
  -- There is a first line, to which another character can be added.
  suffices ∃ line lines, Consists (String.ofList cs ++ "\n") (line :: lines) by
    obtain ⟨line, lines, h⟩ := this
    exact ⟨_, h⟩
  induction cs with
  | nil => exact ⟨"", [], by simp [unlines], by simp⟩
  | cons c cs ih =>
    obtain ⟨line, lines, htext, hsingle⟩ := ih
    rw [List.forall_mem_cons] at hsingle
    have hcons : String.ofList (c :: cs) ++ "\n" =
        String.ofList [c] ++ (String.ofList cs ++ "\n") := by
      apply String.toList_injective
      simp
    by_cases hc : c = '\n'
    · refine ⟨"", line :: lines, ?_, by simpa using hsingle⟩
      rw [hcons, htext, hc]
      apply String.toList_injective
      simp [unlines]
    · refine ⟨String.ofList [c] ++ line, lines, ?_, ?_⟩
      · rw [hcons, htext]
        apply String.toList_injective
        simp [unlines]
      · have hline : '\n' ∉ (String.ofList [c] ++ line).toList := by
          simp [hsingle.1, Ne.symm hc]
        exact List.forall_mem_cons.2 ⟨hline, hsingle.2⟩

end Text

/-! ### Effects of lines -/

namespace Line

/-- A line whose effect, if it has one, meets a condition. -/
def Meets (P : Effect → Prop) (l : Line) : Prop :=
  ∀ e, l.content = .effect e → P e

/-- Lines all of whose effects meet a condition. -/
def Effects (P : Effect → Prop) (lines : List Line) : Prop :=
  ∀ l ∈ lines, l.Meets P

variable {P : Effect → Prop}

@[simp] theorem meets_code (text : String) : (code text).Meets P := by
  simp [Meets, code]

@[simp] theorem meets_note (text : String) : (note text).Meets P := by
  simp [Meets, note]

@[simp] theorem meets_noted (text words : String) : (noted text words).Meets P := by
  simp [Meets, noted]

@[simp] theorem meets_remark (text : String) : (Fpp.remark text).Meets P := by
  simp [Meets, Fpp.remark]

@[simp] theorem meets_blank : blank.Meets P :=
  meets_code ""

@[simp] theorem meets_effect {e : Effect} : (effect e).Meets P ↔ P e := by
  simp [Meets, effect]

@[simp] theorem effects_nil : Effects P [] := by
  simp [Effects]

@[simp] theorem effects_cons {l : Line} {lines : List Line} :
    Effects P (l :: lines) ↔ l.Meets P ∧ Effects P lines :=
  List.forall_mem_cons

@[simp] theorem effects_append {lines lines' : List Line} :
    Effects P (lines ++ lines') ↔ Effects P lines ∧ Effects P lines' :=
  List.forall_mem_append

@[simp] theorem effects_map {α : Type} {f : α → Line} {xs : List α} :
    Effects P (xs.map f) ↔ ∀ x ∈ xs, (f x).Meets P := by
  simp [Effects]

@[simp] theorem effects_flatMap {α : Type} {f : α → List Line} {xs : List α} :
    Effects P (xs.flatMap f) ↔ ∀ x ∈ xs, Effects P (f x) := by
  simp only [Effects, List.mem_flatMap]
  grind

@[simp] theorem effects_indent {lines : List Line} :
    Effects P (indent lines) ↔ Effects P lines := by
  simp [indent, Effects, Meets]

@[simp] theorem effects_enclose {first last : Line} {lines : List Line} :
    Effects P (enclose first lines last) ↔ first.Meets P ∧ Effects P lines ∧ last.Meets P := by
  simp [enclose]

@[simp] theorem effects_braced {head : String} {lines : List Line} :
    Effects P (braced head lines) ↔ Effects P lines := by
  simp [braced]

@[simp] theorem effects_separated (texts : List String) : Effects P (separated texts) := by
  fun_induction separated texts <;> simp_all

@[simp] theorem effects_inNamespaces {namespaces : List String} {lines : List Line} :
    Effects P (inNamespaces namespaces lines) ↔ Effects P lines := by
  induction namespaces with
  | nil => rfl
  | cons name namespaces ih => simpa [inNamespaces] using ih

@[simp] theorem effects_titled {title : String} {lines : List Line} :
    Effects P (Header.titled title lines) ↔ Effects P lines := by
  cases lines <;> simp [Header.titled]

@[simp] theorem effects_definition {head lines : List Line} :
    Effects P (Implementation.definition head lines) ↔ Effects P head ∧ Effects P lines := by
  simp [Implementation.definition]

@[simp] theorem effects_method {head : String} {lines : List Line} :
    Effects P (Implementation.method head lines) ↔ Effects P lines := by
  simp [Implementation.method]

/-! ### Insertion -/

/-- Lines a number of levels deeper. -/
def nest (n : Nat) (lines : List Line) : List Line :=
  lines.map fun l => { l with depth := l.depth + n }

theorem indent_nest (n : Nat) (lines : List Line) : indent (nest n lines) = nest (n + 1) lines := by
  simp [nest, indent, Nat.add_assoc]

/-- The second lines are the first ones with others added in one place, `n` levels deeper. -/
def Inserted (n : Nat) (added lines lines' : List Line) : Prop :=
  ∃ before after, lines = before ++ after ∧ lines' = before ++ nest n added ++ after

namespace Inserted

variable {n : Nat} {added lines lines' : List Line}

theorem behind (lines added : List Line) : Inserted 0 added lines (lines ++ added) :=
  ⟨lines, [], by simp, by simp [nest]⟩

theorem append_left (h : Inserted n added lines lines') (first : List Line) :
    Inserted n added (first ++ lines) (first ++ lines') := by
  obtain ⟨before, after, rfl, rfl⟩ := h
  exact ⟨first ++ before, after, by simp, by simp⟩

theorem append_right (h : Inserted n added lines lines') (last : List Line) :
    Inserted n added (lines ++ last) (lines' ++ last) := by
  obtain ⟨before, after, rfl, rfl⟩ := h
  exact ⟨before, after ++ last, by simp, by simp⟩

theorem indented (h : Inserted n added lines lines') :
    Inserted (n + 1) added (indent lines) (indent lines') := by
  obtain ⟨before, after, rfl, rfl⟩ := h
  refine ⟨indent before, indent after, List.map_append, ?_⟩
  rw [← indent_nest]
  simp [indent]

theorem enclosed (h : Inserted n added lines lines') (first last : Line) :
    Inserted (n + 1) added (enclose first lines last) (enclose first lines' last) :=
  (h.indented.append_left [first]).append_right [last]

theorem inNamespaces (h : Inserted n added lines lines') (namespaces : List String) :
    Inserted (n + namespaces.length) added (FlightGen.inNamespaces namespaces lines)
      (FlightGen.inNamespaces namespaces lines') := by
  induction namespaces with
  | nil => exact h
  | cons name namespaces ih => exact ih.enclosed _ _

theorem effects (h : Inserted n added lines lines') (heffects : Effects P lines') :
    ∃ before after, lines = before ++ after ∧ lines' = before ++ nest n added ++ after ∧
      Effects P before ∧ Effects P after := by
  obtain ⟨before, after, rfl, rfl⟩ := h
  simp only [effects_append] at heffects
  exact ⟨before, after, rfl, rfl, heffects.1.1, heffects.2⟩

end Inserted

/-! ### Rendering -/

theorem render_append (p : Profile) (lines lines' : List Line) :
    render p (lines ++ lines') = render p lines ++ render p lines' := by
  simp [render]

theorem render_eq_unlines (p : Profile) (lines : List Line) :
    render p lines = Text.unlines (lines.map (·.text p)) := by
  simp [render, Text.unlines, Function.comp_def]

theorem text_eq_of_neutral {l : Line} (h : l.Meets fun _ => False) (p p' : Profile) :
    l.text p = l.text p' := by
  obtain ⟨depth, content⟩ := l
  cases content with
  | code text => rfl
  | noted text mark words =>
    by_cases htext : text = ""
    · rw [htext]
      rfl
    · simp only [Line.text, LineContent.text]
  | effect e => exact (h e rfl).elim

/-- Lines without effects are the same under all profiles. -/
theorem render_eq_of_neutral {lines : List Line} (h : Effects (fun _ => False) lines)
    (p p' : Profile) : render p lines = render p' lines := by
  rw [render_eq_unlines, render_eq_unlines]
  exact congrArg _ (List.map_congr_left fun l hl => text_eq_of_neutral (h l hl) p p')

theorem text_effect (p : Profile) (depth : Nat) (e : Effect) :
    (Line.mk depth (.effect e)).text p = spaces (2 * depth) ++ e.call p ++ ";" := by
  have hne : e.call p ++ ";" ≠ "" := by
    intro h
    have := congrArg String.toList h
    simp at this
  rw [text]
  split
  · contradiction
  · rw [String.append_assoc]
    rfl

theorem exists_consists_render (p : Profile) (lines : List Line) :
    ∃ texts, Text.Consists (render p lines) texts := by
  induction lines with
  | nil => exact ⟨[], rfl, by simp⟩
  | cons l lines ih =>
    obtain ⟨texts, htexts⟩ := ih
    obtain ⟨first, hfirst⟩ := Text.exists_consists (l.text p)
    refine ⟨first ++ texts, ?_⟩
    have hcons : render p (l :: lines) = l.text p ++ "\n" ++ render p lines := by simp [render]
    exact hcons ▸ hfirst.append htexts

end Line

/-! ### Calls -/

/-- The expressions that the call of an effect contains. -/
def Effect.operands : Effect → List String
  | log source target => [source, target]
  | telemetry state => [state]
  | response _ => []
  | fatal value => [value]

/-- An effect whose call takes one line. -/
def Effect.Single (e : Effect) : Prop :=
  ∀ operand ∈ e.operands, '\n' ∉ operand.toList

theorem Effect.Single.notMem_call {e : Effect} (h : e.Single) (p : Profile) :
    '\n' ∉ (e.call p).toList := by
  have hfixed : '\n' ∉ transitionEvent.toList ∧ '\n' ∉ telemetryChannel.toList :=
    ⟨Text.notMem_ofList (by decide), Text.notMem_ofList (by decide)⟩
  have hresponse (r : CommandResponse) : '\n' ∉ r.text.toList := by
    cases r <;> exact Text.notMem_ofList (by decide)
  cases e with
  | log | telemetry | response | fatal =>
    simp only [Single, operands, List.forall_mem_cons] at h
    cases p <;> unfold call <;>
      simp only [Text.notMem_append, h, hfixed, hresponse, not_false_eq_true, and_true] <;>
      and_intros <;> exact Text.notMem_ofList (by decide)

/-- Lines that are the same, or the calls of one effect under two profiles. -/
inductive SameLine : String → String → Prop
  | same (text : String) : SameLine text text
  | call (depth : Nat) (e : Effect) :
      SameLine (Line.spaces (2 * depth) ++ e.call .production ++ ";")
        (Line.spaces (2 * depth) ++ e.call .mock ++ ";")

theorem forall₂_sameLine_self (texts : List String) : List.Forall₂ SameLine texts texts :=
  List.forall₂_same.2 fun text _ => .same text

theorem Line.consists_effect {e : Effect} (h : e.Single) (p : Profile) (depth : Nat) :
    Text.Consists (render p [⟨depth, .effect e⟩]) [spaces (2 * depth) ++ e.call p ++ ";"] := by
  have hspaces : '\n' ∉ (spaces (2 * depth)).toList := by simp [spaces]
  refine ⟨by simp [render, text_effect, Text.unlines], fun line hline => ?_⟩
  rw [List.mem_singleton.1 hline]
  simp only [Text.notMem_append]
  exact ⟨⟨hspaces, h.notMem_call p⟩, by decide⟩

theorem Line.exists_sameLine_line {l : Line} (h : l.Meets Effect.Single) : ∃ texts texts',
    Text.Consists (render .production [l]) texts ∧ Text.Consists (render .mock [l]) texts' ∧
      List.Forall₂ SameLine texts texts' := by
  by_cases hneutral : l.Meets fun _ => False
  · obtain ⟨texts, htexts⟩ := exists_consists_render .production [l]
    have hmock := render_eq_of_neutral (effects_cons.2 ⟨hneutral, effects_nil⟩) .production .mock
    exact ⟨texts, texts, htexts, hmock ▸ htexts, forall₂_sameLine_self texts⟩
  · obtain ⟨depth, content⟩ := l
    cases content with
    | code | noted => simp [Meets] at hneutral
    | effect e =>
      have he := h e rfl
      exact ⟨_, _, consists_effect he _ depth, consists_effect he _ depth, .cons (.call depth e) .nil⟩

/-- Two profiles write lines that correspond. -/
theorem Line.exists_sameLine {lines : List Line} (h : Effects Effect.Single lines) :
    ∃ texts texts', Text.Consists (render .production lines) texts ∧
      Text.Consists (render .mock lines) texts' ∧ List.Forall₂ SameLine texts texts' := by
  induction lines with
  | nil => exact ⟨[], [], ⟨rfl, by simp⟩, ⟨rfl, by simp⟩, .nil⟩
  | cons l lines ih =>
    obtain ⟨hl, hlines⟩ := effects_cons.1 h
    obtain ⟨texts, texts', htexts, htexts', hsame⟩ := ih hlines
    obtain ⟨first, first', hfirst, hfirst', hfirsts⟩ : ∃ first first',
        Text.Consists (render .production [l]) first ∧ Text.Consists (render .mock [l]) first' ∧
          List.Forall₂ SameLine first first' := exists_sameLine_line hl
    have hcons (p : Profile) : render p (l :: lines) = render p [l] ++ render p lines :=
      render_append p [l] lines
    refine ⟨first ++ texts, first' ++ texts', ?_, ?_, List.rel_append hfirsts hsame⟩
    · exact hcons _ ▸ hfirst.append htexts
    · exact hcons _ ▸ hfirst'.append htexts'

/-! ### The files -/

theorem Header.effects_lines (p : Profile) (b : Bundle) :
    Line.Effects (fun _ => False) (lines p b) := by
  simp [lines, titleLines, recordLines, classLines, publicLines, privateLines, handlerLines,
    handlerParameters, stateLines, memberLines]

theorem Fpp.effects_lines (b : Bundle) : Line.Effects (fun _ => False) (lines b) := by
  have hinner : Line.Effects (fun _ => False)
      ([Line.blank, remark (b.machine.component.raw ++ " driven by state machine " ++
        b.machine.name)] ++ component b.machine ++ [Line.blank]) := by
    simp [component, ports, commands, telemetry, event]
  unfold lines
  induction b.namespaces with
  | nil => exact hinner
  | cons name namespaces ih => simpa using ih

namespace Implementation

variable {P : Effect → Prop}

@[simp] theorem effects_caseLines {label : String} {lines : List Line} :
    Line.Effects P (caseLines label lines) ↔ Line.Effects P lines := by
  simp [caseLines]

theorem effects_candidateLines (m : Machine) (transitions : List Nat) :
    Line.Effects P (candidateLines m transitions) := by
  have hlines (c : Candidate) : Line.Effects P c.lines := by
    unfold Candidate.lines
    split <;> simp
  simp [candidateLines, hlines]

theorem effects_stepLines (s : Step) : Line.Effects P (stepLines s) := by
  obtain ⟨node, operation⟩ := s
  cases operation with
  | receive parameter var type copy => cases copy <;> simp [stepLines, declare]
  | call result target method arguments => cases result <;> simp [stepLines, declare]
  | block locals body exports => simp [stepLines, blockLines, localLine, declare, assign]
  | create | literal | read | write | fork | join | output => simp [stepLines, declare, assign]

theorem notMem_cppString {text : String} (htext : '\n' ∉ text.toList) :
    '\n' ∉ (cppString text).toList := by
  have hescaped : ∀ c ∈ text.toList, '\n' ∉ if c = '"' || c = '\\' then ['\\', c] else [c] := by
    intro c hc
    have hne : '\n' ≠ c := fun heq => htext (heq ▸ hc)
    split <;> simp [hne]
  simp only [cppString, String.toList_ofList, List.mem_append, List.mem_cons, List.mem_flatMap]
  rintro ((hquote | ⟨c, hc, hmem⟩) | hquote)
  · exact absurd hquote (by decide)
  · exact hescaped c hc hmem
  · simp at hquote

section Names

variable {m : Machine} (h : ∀ s ∈ m.states, '\n' ∉ s.name.ident.toList)

include h

theorem notMem_stateName (index : Nat) : '\n' ∉ (m.stateName index).toList := by
  unfold Machine.stateName
  cases hs : m.states[index]? with
  | none => decide +kernel
  | some s => exact h s (List.mem_of_getElem? hs)

theorem effects_start : Line.Effects Effect.Single (m.start.map (lifecycleLine m)) := by
  have hname := notMem_cppString (notMem_stateName h m.initial)
  have hmarker : '\n' ∉ (cppString "INIT").toList := by decide +kernel
  simp [Machine.start, lifecycleLine, Machine.placeName, Effect.Single, Effect.operands, hname,
    hmarker]

end Names

theorem single_fatal : (Effect.fatal "m_currentState").Single := by
  simp [Effect.Single, Effect.operands]

theorem single_response (r : CommandResponse) : (Effect.response r).Single := by
  simp [Effect.Single, Effect.operands]

theorem effects_stop (m : Machine) :
    Line.Effects Effect.Single (Machine.stop.map (lifecycleLine m)) := by
  have hmarkers : '\n' ∉ (cppString "ACTIVE").toList ∧ '\n' ∉ (cppString "STOPPED").toList := by
    decide +kernel
  simp [Machine.stop, lifecycleLine, Machine.placeName, Effect.Single, Effect.operands, hmarkers]

theorem effects_commandBody (m : Machine) (c : Machine.Command) :
    Line.Effects Effect.Single (commandBody m c) := by
  unfold commandBody
  split
  · simp
  · exact effects_stop m
  · simp [triggerCase, effects_candidateLines, defaultCase, single_response, single_fatal]

/-- The effects of an implementation take one line each, if the names of states do. -/
theorem effects_bodyLines {b : Bundle}
    (h : ∀ s ∈ b.machine.states, '\n' ∉ s.name.ident.toList) :
    Line.Effects Effect.Single (bodyLines b) := by
  have hstart := effects_start h
  have htransition :
      (Effect.log "getStateName(m_currentState)" "getStateName(newState)").Single ∧
      (Effect.telemetry "getStateName(newState)").Single := by
    simp [Effect.Single, Effect.operands]
  simpa [bodyLines, lifecycleLines, dispatchLines, commandLines, transitionLines, stateNameLines,
    guardLines, routineLines, effects_stepLines, effects_candidateLines, armLines, defaultCase,
    handlerParameters, effects_commandBody, single_response, single_fatal, htransition] using hstart

end Implementation

/-! ### Both profiles -/

/-- The lines that declare the methods of the mock profile, at the depth of a class. -/
def declarationBlock (depth : Nat) : List String :=
  (["", "// Mock framework diagnostics"] ++ Profile.supportDeclarations .mock).map fun text =>
    (Line.mk (depth + 2) (.code text)).text .mock

/-- The lines that define the methods of the mock profile, at the depth of a class. -/
def definitionBlock (className : String) (depth : Nat) : List String :=
  (["// Mock framework diagnostics", ""] ++ Profile.supportDefinitions className .mock ++ [""]).map
    fun text => (Line.mk depth (.code text)).text .mock

/-- The files of a component under the production and under the mock profile. The mock header
declares more methods. The mock implementation has other includes and defines these methods;
apart from that, its lines are those of the other one up to the calls of effects. -/
structure Artifacts.Rebound (className : String) (depth : Nat) (a b : Artifacts) : Prop where
  component : a.component = b.component
  headerName : a.header.name = b.header.name
  implementationName : a.implementation.name = b.implementation.name
  componentModel : a.componentModel = b.componentModel
  header : ∃ before after, Text.Consists a.header.text (before ++ after) ∧
    Text.Consists b.header.text (before ++ declarationBlock depth ++ after)
  implementation : ∃ first body body' last last',
    Text.Consists a.implementation.text
      (first ++ Profile.includes .production ++ body ++ last) ∧
    Text.Consists b.implementation.text
      (first ++ Profile.includes .mock ++ body' ++ definitionBlock className depth ++ last') ∧
    List.Forall₂ SameLine body body' ∧ List.Forall₂ SameLine last last'

theorem Line.notMem_text_code {text : String} (h : '\n' ∉ text.toList) (p : Profile) (depth : Nat) :
    '\n' ∉ ((Line.mk depth (.code text)).text p).toList := by
  have hspaces : '\n' ∉ (spaces (2 * depth)).toList := by simp [spaces]
  unfold Line.text
  split
  · decide
  · exact Text.notMem_append.2 ⟨hspaces, h⟩

theorem consists_declarationBlock (depth : Nat) :
    Text.Consists (Text.unlines (declarationBlock depth)) (declarationBlock depth) := by
  have htexts : ∀ text ∈ ["", "// Mock framework diagnostics"] ++ Profile.supportDeclarations .mock,
      '\n' ∉ text.toList := by
    simp only [Profile.supportDeclarations, List.cons_append, List.nil_append, List.forall_mem_cons,
      List.not_mem_nil, IsEmpty.forall_iff, implies_true, and_true]
    and_intros <;> exact Text.notMem_ofList (by decide)
  refine ⟨rfl, fun line hline => ?_⟩
  obtain ⟨text, htext, rfl⟩ := List.mem_map.1 hline
  exact Line.notMem_text_code (htexts text htext) .mock _

theorem consists_definitionBlock {className : String} (h : '\n' ∉ className.toList) (depth : Nat) :
    Text.Consists (Text.unlines (definitionBlock className depth))
      (definitionBlock className depth) := by
  have htexts : ∀ text ∈ ["// Mock framework diagnostics", ""] ++
      Profile.supportDefinitions className .mock ++ [""], '\n' ∉ text.toList := by
    simp only [Profile.supportDefinitions, List.cons_append, List.nil_append, List.forall_mem_cons,
      List.not_mem_nil, IsEmpty.forall_iff, implies_true, Text.notMem_append, h, not_false_eq_true,
      and_true]
    and_intros <;> exact Text.notMem_ofList (by decide)
  refine ⟨rfl, fun line hline => ?_⟩
  obtain ⟨text, htext, rfl⟩ := List.mem_map.1 hline
  exact Line.notMem_text_code (htexts text htext) .mock _

/-- The mock profile adds its declarations to a header. -/
theorem Header.inserted_lines (b : Bundle) : Line.Inserted (b.namespaces.length + 2)
    (titled "Mock framework diagnostics" (Profile.supportDeclarations .mock |>.map Line.code))
    (lines .production b) (lines .mock b) := by
  have hprivate := (Line.Inserted.behind (privateLines .production b)
    (titled "Mock framework diagnostics" (Profile.supportDeclarations .mock |>.map Line.code)))
  have hmock : privateLines .production b ++ titled "Mock framework diagnostics"
      (Profile.supportDeclarations .mock |>.map Line.code) = privateLines .mock b := by
    simp [privateLines, Profile.supportDeclarations, titled]
  rw [hmock] at hprivate
  have hclass : Line.Inserted 2 _ (classLines .production b) (classLines .mock b) :=
    (((hprivate.indented.append_left _).append_right _).enclosed _ _).append_left _
  rw [Nat.add_comm]
  exact ((((hclass.append_left _).append_right _).inNamespaces _).append_left _).append_right _

namespace Implementation

/-- What follows the includes. -/
def remaining (p : Profile) (b : Bundle) : List Line :=
  [Line.blank] ++ titleLines b.machine ++
    inNamespaces b.namespaces ([Line.blank] ++ bodyLines b ++ supportLines p b)

theorem lines_eq (p : Profile) (b : Bundle) : lines p b =
    [Line.code ("#include \"" ++ b.className ++ ".hpp\"")] ++ p.includes.map Line.code ++
      remaining p b := by
  simp [lines, remaining]

/-- The mock profile adds its definitions to what follows the includes. -/
theorem inserted_remaining (b : Bundle) : Line.Inserted b.namespaces.length (supportLines .mock b)
    (remaining .production b) (remaining .mock b) := by
  have hbody : Line.Inserted 0 (supportLines .mock b)
      ([Line.blank] ++ bodyLines b ++ supportLines .production b)
      ([Line.blank] ++ bodyLines b ++ supportLines .mock b) := by
    have hproduction : supportLines .production b = [] := rfl
    rw [hproduction, List.append_nil]
    exact .behind _ _
  have hnamespaces := hbody.inNamespaces b.namespaces
  rw [Nat.zero_add] at hnamespaces
  exact hnamespaces.append_left _

theorem effects_remaining {b : Bundle}
    (h : ∀ s ∈ b.machine.states, '\n' ∉ s.name.ident.toList) (p : Profile) :
    Line.Effects Effect.Single (remaining p b) := by
  have hsupport : Line.Effects Effect.Single (supportLines p b) := by
    unfold supportLines
    split <;> simp
  simp [remaining, titleLines, effects_bodyLines h, hsupport]

end Implementation

/-! ### Blocks -/

theorem nest_map_code (n : Nat) (texts : List String) :
    Line.nest n (texts.map Line.code) = texts.map fun text => ⟨n, .code text⟩ := by
  simp [Line.nest, Line.code]

theorem render_declarations (depth : Nat) :
    Line.render .mock (Line.nest (depth + 2) (Header.titled "Mock framework diagnostics"
      ((Profile.supportDeclarations .mock).map Line.code))) =
      Text.unlines (declarationBlock depth) := by
  have hlines : Line.nest (depth + 2) (Header.titled "Mock framework diagnostics"
      ((Profile.supportDeclarations .mock).map Line.code)) =
      [⟨depth + 2, .code ""⟩, ⟨depth + 2, .noted "" .slashes "Mock framework diagnostics"⟩] ++
        (Profile.supportDeclarations .mock).map fun text => ⟨depth + 2, .code text⟩ := by
    rw [← nest_map_code]
    simp [Line.nest, Header.titled, Line.blank, Line.code, Line.note, Profile.supportDeclarations]
  rw [Line.render_eq_unlines, hlines, declarationBlock, List.map_append, List.map_append,
    List.map_map]
  rfl

theorem render_definitions (b : Bundle) (depth : Nat) :
    Line.render .mock (Line.nest depth (Implementation.supportLines .mock b)) =
      Text.unlines (definitionBlock b.className depth) := by
  have hlines : Line.nest depth (Implementation.supportLines .mock b) =
      [⟨depth, .noted "" .slashes "Mock framework diagnostics"⟩, ⟨depth, .code ""⟩] ++
        (Profile.supportDefinitions b.className .mock).map (fun text => ⟨depth, .code text⟩) ++
        [⟨depth, .code ""⟩] := by
    rw [← nest_map_code]
    simp [Line.nest, Implementation.supportLines, Line.blank, Line.code, Line.note,
      Profile.supportDefinitions]
  rw [Line.render_eq_unlines, hlines, definitionBlock]
  simp only [List.map_append, List.map_map]
  rfl

theorem consists_includes (p : Profile) :
    Text.Consists (Line.render p (p.includes.map Line.code)) p.includes := by
  cases p <;> exact ⟨by decide +kernel, by decide +kernel⟩

namespace Bundle

variable (b : Bundle)

theorem header_rebound : ∃ before after,
    Text.Consists (b.headerFile .production).text (before ++ after) ∧
    Text.Consists (b.headerFile .mock).text
      (before ++ declarationBlock b.namespaces.length ++ after) := by
  obtain ⟨before, after, hproduction, hmock, hbefore, hafter⟩ :=
    (Header.inserted_lines b).effects (Header.effects_lines .mock b)
  obtain ⟨texts, htexts⟩ := Line.exists_consists_render .mock before
  obtain ⟨texts', htexts'⟩ := Line.exists_consists_render .mock after
  refine ⟨texts, texts', ?_, ?_⟩
  · rw [headerFile, hproduction, Line.render_append, Line.render_eq_of_neutral hbefore _ .mock,
      Line.render_eq_of_neutral hafter _ .mock]
    exact htexts.append htexts'
  · rw [headerFile, hmock, Line.render_append, Line.render_append, render_declarations]
    exact (htexts.append (consists_declarationBlock _)).append htexts'

theorem implementation_rebound (hname : '\n' ∉ b.className.toList)
    (hstates : ∀ s ∈ b.machine.states, '\n' ∉ s.name.ident.toList) :
    ∃ first body body' last last',
      Text.Consists (b.implementationFile .production).text
        (first ++ Profile.includes .production ++ body ++ last) ∧
      Text.Consists (b.implementationFile .mock).text (first ++ Profile.includes .mock ++ body' ++
        definitionBlock b.className b.namespaces.length ++ last') ∧
      List.Forall₂ SameLine body body' ∧ List.Forall₂ SameLine last last' := by
  obtain ⟨before, after, hproduction, hmock, hbefore, hafter⟩ :=
    (Implementation.inserted_remaining b).effects (Implementation.effects_remaining hstates .mock)
  obtain ⟨body, body', hbody, hbody', hsame⟩ := Line.exists_sameLine hbefore
  obtain ⟨last, last', hlast, hlast', hsame'⟩ := Line.exists_sameLine hafter
  obtain ⟨first, hfirst⟩ := Line.exists_consists_render .mock
    [.code ("#include \"" ++ b.className ++ ".hpp\"")]
  refine ⟨first, body, body', last, last', ?_, ?_, hsame, hsame'⟩
  · rw [implementationFile, Implementation.lines_eq, hproduction, Line.render_append,
      Line.render_append, Line.render_append, ← String.append_assoc,
      Line.render_eq_of_neutral (by simp) .production .mock]
    exact ((hfirst.append (consists_includes _)).append hbody).append hlast
  · rw [implementationFile, Implementation.lines_eq, hmock]
    simp only [Line.render_append, render_definitions, ← String.append_assoc]
    exact (((hfirst.append (consists_includes _)).append hbody').append
      (consists_definitionBlock hname _)).append hlast'

end Bundle

theorem emit_eq (s : Settings) (m : Machine) (l : Library) (records : List RecordType) :
    emit s m l records = (Bundle.collect s.path m l records).map fun b =>
      { component := m.component.ident
        header := b.headerFile s.profile
        implementation := b.implementationFile s.profile
        componentModel :=
          if s.componentModel then some (b.componentModelFile s.profile) else none } := by
  unfold emit
  cases Bundle.collect s.path m l records <;> rfl

theorem Bundle.collect_eq_ok {path : String} {m : Machine} {l : Library}
    {records : List RecordType} {b : Bundle} (h : collect path m l records = .ok b) :
    b.machine = m ∧ b.namespaces = Identifier.segments path := by
  unfold collect at h
  obtain ⟨-, -, h⟩ := bind_eq_ok.1 h
  obtain ⟨routines, -, h⟩ := bind_eq_ok.1 h
  obtain ⟨-, -, h⟩ := bind_eq_ok.1 h
  cases h
  exact ⟨rfl, rfl⟩

theorem ModelStages.single_names {d : Definition} {m : Model} (S : ModelStages d m) {c : Component}
    (hc : c ∈ m.components) : '\n' ∉ c.name.ident.toList ∧
      ∀ s ∈ c.synthesize.states, '\n' ∉ s.name.ident.toList := by
  have hname : c.name.ident ∈ m.names := by
    simp only [Model.names, List.mem_append]
    exact .inl (.inr (List.mem_map.2 ⟨c, hc, rfl⟩))
  refine ⟨(S.isIdentifier_names _ hname).1.notMem rfl, fun s hs => ?_⟩
  obtain ⟨d, -, ⟨R⟩⟩ := exists_of_forall₂ S.componentRuns.flip hc
  obtain ⟨i, hi⟩ := List.mem_iff_getElem?.1 hs
  rw [c.getElem?_machineStates] at hi
  obtain ⟨state, hstate, rfl⟩ := Option.map_eq_some_iff.1 hi
  have hident := R.stages.states.isIdentifier R.rendered_after state.name
    (List.mem_map.2 ⟨state, List.mem_of_getElem? hstate, rfl⟩)
  exact hident.1.notMem rfl

/-- Under the two profiles, a component of a model fails with the same error or has the same files
up to where its effects go. -/
theorem Model.emit_rebound {d : Definition} {m : Model} (h : Model.build d = .ok m) {c : Component}
    (hc : c ∈ m.components) (path : String) (componentModel : Bool) (l : Library)
    (records : List RecordType) :
    (∃ e, emit ⟨path, .production, componentModel⟩ c.synthesize l records = .error e ∧
      emit ⟨path, .mock, componentModel⟩ c.synthesize l records = .error e) ∨
    ∃ a b, emit ⟨path, .production, componentModel⟩ c.synthesize l records = .ok a ∧
      emit ⟨path, .mock, componentModel⟩ c.synthesize l records = .ok b ∧
      a.Rebound (c.name.ident ++ "ComponentImpl") (Identifier.segments path).length b := by
  obtain ⟨S⟩ := exists_modelStages h
  obtain ⟨hname, hstates⟩ := S.single_names hc
  simp only [emit_eq]
  cases hcollect : Bundle.collect path c.synthesize l records with
  | error e => exact .inl ⟨e, rfl, rfl⟩
  | ok b =>
    obtain ⟨hmachine, hnamespaces⟩ := Bundle.collect_eq_ok hcollect
    have hclass : b.className = c.name.ident ++ "ComponentImpl" := by
      rw [Bundle.className, hmachine]
      rfl
    have hsingle : '\n' ∉ b.className.toList := by
      rw [hclass]
      exact Text.notMem_append.2 ⟨hname, by decide⟩
    have hmodel : b.componentModelFile .production = b.componentModelFile .mock := by
      rw [Bundle.componentModelFile, Bundle.componentModelFile,
        Line.render_eq_of_neutral (Fpp.effects_lines b) .production .mock]
    refine .inr ⟨_, _, rfl, rfl, ?_⟩
    rw [← hclass, ← hnamespaces]
    refine ⟨rfl, rfl, rfl, ?_, b.header_rebound,
      b.implementation_rebound hsingle (hmachine ▸ hstates)⟩
    simp only [hmodel]

/-- A door is emitted under both profiles. -/
theorem Sample.emit_rebound_door : ∃ a b,
    emit ⟨"Site::Doors", .production, true⟩ door.synthesize ⟨[]⟩ [] = .ok a ∧
      emit ⟨"Site::Doors", .mock, true⟩ door.synthesize ⟨[]⟩ [] = .ok b ∧
      a.Rebound ("Door" ++ "ComponentImpl") 2 b := by
  obtain ⟨e, hproduction, -⟩ | hrebound := Model.emit_rebound build_doorDefinition
    (List.mem_singleton_self door) "Site::Doors" true ⟨[]⟩ []
  · have hok : (Bundle.collect "Site::Doors" door.synthesize ⟨[]⟩ []).isOk = true := by
      decide +kernel
    obtain ⟨b, hb⟩ := exists_of_isOk hok
    rw [emit_eq, hb] at hproduction
    cases hproduction
  · exact hrebound

end FlightGen
