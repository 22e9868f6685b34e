import FlightGen.Proofs.Artifact.Profile

/-! Files without the words of the model. A component is emitted with identifiers, and what else its
model says goes into notes: with all such texts erased, the lines of its files are the same up to
their notes. -/

namespace FlightGen

/-! ### Erasing -/

/-- Erases the words of a note of a kind, unless they run over the end of the line. -/
def Line.plain (mark : NoteMark) (l : Line) : Line :=
  match l.content with
  | .noted code mark' words =>
    if mark' = mark ∧ '\n' ∉ words.toList then ⟨l.depth, .noted code mark ""⟩ else l
  | _ => l

def Name.plain (n : Name) : Name :=
  { n with raw := "" }

namespace CommandKind

def plain : CommandKind → CommandKind
  | trigger _ => trigger ""
  | kind => kind

def signal? : CommandKind → Option String
  | trigger signal => some signal
  | _ => none

end CommandKind

namespace Machine

def State.plain (s : State) : State :=
  { s with name := s.name.plain }

def Guard.plain (g : Guard) : Guard :=
  { g with source := "" }

def Command.plain (c : Command) : Command :=
  { c with kind := c.kind.plain }

def plain (m : Machine) : Machine :=
  { m with
    component := m.component.plain
    states := m.states.map (·.plain)
    guards := m.guards.map (·.plain)
    commands := m.commands.map (·.plain) }

/-- The words of the model in a machine. -/
def words (m : Machine) : List String :=
  [m.component.raw] ++ m.states.map (·.name.raw) ++ m.guards.map (·.source) ++
    m.commands.filterMap (·.kind.signal?)

end Machine

namespace Operation

def plain : Operation → Operation
  | fork branches => fork (branches.map fun _ => "")
  | join inputs => join (inputs.map fun _ => "")
  | operation => operation

end Operation

namespace Step

def plain (s : Step) : Step :=
  ⟨"", s.operation.plain⟩

/-- The nodes that the lines of a step name. -/
def shown (s : Step) : List String :=
  match s.operation with
  | .block .. => [s.node]
  | .fork ids | .join ids => s.node :: ids
  | _ => []

end Step

def Slot.plain (s : Slot) : Slot :=
  { s with raw := "" }

namespace Routine

def plain (r : Routine) : Routine :=
  { r with
    raw := ""
    inputs := r.inputs.map (·.plain)
    outputs := r.outputs.map (·.plain)
    steps := r.steps.map (·.plain) }

/-- The words of the model in the lines of a routine. -/
def words (r : Routine) : List String :=
  [r.raw] ++ r.steps.flatMap (·.shown)

end Routine

def RecordType.plain (r : RecordType) : RecordType :=
  ⟨r.name.plain, r.fields.map fun f => { f with name := f.name.plain }⟩

namespace Bundle

def plain (b : Bundle) : Bundle where
  machine := b.machine.plain
  routines := b.routines.map (·.plain)
  records := b.records.map (·.plain)
  namespaces := b.namespaces

/-- All words of the model fit on the lines of their notes. -/
structure WordsFit (b : Bundle) : Prop where
  machine : ∀ text ∈ b.machine.words, '\n' ∉ text.toList
  routines : ∀ r ∈ b.routines, ∀ text ∈ r.words, '\n' ∉ text.toList

end Bundle

/-! ### Lines -/

namespace Line

variable {mark : NoteMark}

@[simp] theorem plain_code (text : String) : (code text).plain mark = code text := rfl

@[simp] theorem plain_blank : blank.plain mark = blank := rfl

theorem plain_noted {words : String} (h : '\n' ∉ words.toList) (text : String) :
    (noted text words).plain .slashes = noted text "" := by
  simp [plain, noted, h]

theorem plain_note {words : String} (h : '\n' ∉ words.toList) :
    (note words).plain .slashes = note "" :=
  plain_noted h ""

theorem plain_note_append {words : String} (h : '\n' ∉ words.toList) (first : String)
    (hfirst : '\n' ∉ first.toList) : (note (first ++ words)).plain .slashes = note "" :=
  plain_note (Text.notMem_append.2 ⟨hfirst, h⟩)

@[simp] theorem map_plain_indent (lines : List Line) :
    (indent lines).map (plain mark) = indent (lines.map (plain mark)) := by
  simp only [indent, List.map_map]
  refine List.map_congr_left fun l _ => ?_
  obtain ⟨depth, content⟩ := l
  cases content with
  | code | effect => rfl
  | noted text mark' words =>
    simp only [Function.comp_apply, plain]
    split <;> rfl

@[simp] theorem map_plain_enclose (first last : Line) (lines : List Line) :
    (enclose first lines last).map (plain mark) =
      enclose (first.plain mark) (lines.map (plain mark)) (last.plain mark) := by
  simp [enclose]

@[simp] theorem map_plain_braced (head : String) (lines : List Line) :
    (braced head lines).map (plain mark) = braced head (lines.map (plain mark)) := by
  simp [braced]

theorem map_plain_inNamespaces {lines lines' : List Line}
    (h : lines.map (plain mark) = lines'.map (plain mark)) (namespaces : List String) :
    (inNamespaces namespaces lines).map (plain mark) =
      (inNamespaces namespaces lines').map (plain mark) := by
  induction namespaces with
  | nil => exact h
  | cons name namespaces ih =>
    simp only [inNamespaces, List.foldr_cons, map_plain_enclose] at ih ⊢
    rw [ih]

theorem map_plain_titled {lines lines' : List Line}
    (h : lines.map (plain mark) = lines'.map (plain mark)) (title : String) :
    (Header.titled title lines).map (plain mark) =
      (Header.titled title lines').map (plain mark) := by
  cases lines <;> cases lines' <;> simp_all [Header.titled]

theorem map_plain_flatMap {α : Type} {f g : α → List Line} {xs : List α}
    (h : ∀ x ∈ xs, (f x).map (plain mark) = (g x).map (plain mark)) :
    (xs.flatMap f).map (plain mark) = (xs.flatMap g).map (plain mark) := by
  rw [List.map_flatMap, List.map_flatMap]
  exact List.flatMap_congr h

@[simp] theorem map_plain_definition (head lines : List Line) :
    (Implementation.definition head lines).map (plain mark) =
      Implementation.definition (head.map (plain mark)) (lines.map (plain mark)) := by
  simp [Implementation.definition]

@[simp] theorem map_plain_method (head : String) (lines : List Line) :
    (Implementation.method head lines).map (plain mark) =
      Implementation.method head (lines.map (plain mark)) := by
  simp [Implementation.method]

end Line

/-! ### Words -/

theorem notMem_empty : '\n' ∉ "".toList := by decide

theorem Machine.forall_words {m : Machine} {P : String → Prop} : (∀ text ∈ m.words, P text) ↔
    P m.component.raw ∧ (∀ s ∈ m.states, P s.name.raw) ∧ (∀ g ∈ m.guards, P g.source) ∧
      ∀ c ∈ m.commands, ∀ signal, c.kind.signal? = some signal → P signal := by
  simp only [words, List.forall_mem_append, List.forall_mem_singleton, List.forall_mem_map,
    List.mem_filterMap, forall_exists_index, and_imp, and_assoc]
  grind

theorem Routine.forall_words {r : Routine} {P : String → Prop} : (∀ text ∈ r.words, P text) ↔
    P r.raw ∧ ∀ s ∈ r.steps, ∀ id ∈ s.shown, P id := by
  simp only [words, List.forall_mem_append, List.forall_mem_singleton, List.forall_mem_flatMap]

/-! ### What does not change -/

section Unchanged

variable (m : Machine) (r : Routine) (b : Bundle)

@[simp] theorem Machine.getElem?_plain (index : Nat) :
    m.plain.states[index]? = m.states[index]?.map (·.plain) :=
  List.getElem?_map

@[simp] theorem Machine.constantOf_plain (index : Nat) :
    m.plain.constantOf index = m.constantOf index := by
  rw [constantOf, constantOf, getElem?_plain, Option.map_map]
  rfl

@[simp] theorem Machine.stateName_plain (index : Nat) :
    m.plain.stateName index = m.stateName index := by
  rw [stateName, stateName, getElem?_plain, Option.map_map]
  rfl

@[simp] theorem Machine.placeName_plain (place : Place) :
    m.plain.placeName place = m.placeName place := by
  cases place with
  | marker => rfl
  | state index => exact m.stateName_plain index

@[simp] theorem Machine.referenced_plain : m.plain.referenced = m.referenced := rfl

@[simp] theorem Bundle.machine_plain : b.plain.machine = b.machine.plain := rfl

@[simp] theorem Bundle.namespaces_plain : b.plain.namespaces = b.namespaces := rfl

@[simp] theorem Bundle.className_plain : b.plain.className = b.className := rfl

@[simp] theorem Bundle.baseName_plain : b.plain.baseName = b.baseName := rfl

@[simp] theorem Routine.qualified_plain : r.plain.qualified = r.qualified := rfl

@[simp] theorem Routine.length_outputs_plain : r.plain.outputs.length = r.outputs.length :=
  List.length_map _

theorem Routine.signature_plain (qualifier : String) :
    r.plain.signature qualifier = r.signature qualifier := by
  simp only [signature, plain, List.map_map, List.head?_map, Option.map_map]
  rfl

@[simp] theorem Routine.calls_plain : r.plain.calls = r.calls := rfl

@[simp] theorem Routine.recordNames_plain : r.plain.recordNames = r.recordNames := by
  have hslots (slots : List Slot) :
      (slots.map (·.plain)).filterMap (·.type.record?) = slots.filterMap (·.type.record?) := by
    rw [List.filterMap_map]
    rfl
  simp only [recordNames, plain, ← List.map_append, hslots, List.filterMap_map]
  congr 1
  refine List.filterMap_congr fun s _ => ?_
  obtain ⟨node, operation⟩ := s
  cases operation <;> rfl

end Unchanged

/-! ### Headers -/

theorem map_plain_titleLines {m : Machine} (h : '\n' ∉ m.component.raw.toList) :
    (titleLines m).map (Line.plain .slashes) = (titleLines m.plain).map (Line.plain .slashes) := by
  have hplain : '\n' ∉ m.plain.component.raw.toList := notMem_empty
  simp only [titleLines, List.map_cons]
  rw [Line.plain_note_append h "Component: " (by decide),
    Line.plain_note_append hplain "Component: " (by decide)]
  rfl

namespace Header

variable {b : Bundle}

theorem recordLines_plain (r : RecordType) : recordLines r.plain = recordLines r := by
  simp only [recordLines, recordConstructor, RecordType.plain, List.map_map]
  rfl

theorem publicLines_plain (b : Bundle) : publicLines b.plain = publicLines b := by
  simp only [publicLines, Bundle.plain, Machine.plain, List.flatMap_map]
  rfl

theorem stateLines_plain (m : Machine) : stateLines m.plain = stateLines m := by
  simp only [stateLines, Machine.plain, List.map_map]
  rfl

theorem map_plain_privateLines (h : b.WordsFit) (p : Profile) :
    (privateLines p b).map (Line.plain .slashes) =
      (privateLines p b.plain).map (Line.plain .slashes) := by
  have hguards : (b.machine.guards.map fun g =>
      Line.noted ("bool " ++ g.method ++ "();") g.source).map (Line.plain .slashes) =
        (b.plain.machine.guards.map fun g =>
          Line.noted ("bool " ++ g.method ++ "();") g.source).map (Line.plain .slashes) := by
    simp only [Bundle.plain, Machine.plain, List.map_map]
    obtain ⟨-, -, hsources, -⟩ := Machine.forall_words.1 h.machine
    refine List.map_congr_left fun g hg => ?_
    have hplain : '\n' ∉ g.plain.source.toList := notMem_empty
    simp only [Function.comp_apply]
    rw [Line.plain_noted (hsources g hg), Line.plain_noted hplain]
    rfl
  have hroutines : (b.plain.routines.map fun r => Line.code (r.signature "" ++ ";")) =
      b.routines.map fun r => Line.code (r.signature "" ++ ";") := by
    simp only [Bundle.plain, List.map_map]
    exact List.map_congr_left fun r _ => by rw [Function.comp_apply, r.signature_plain]
  have hstates : stateLines b.plain.machine = stateLines b.machine := stateLines_plain _
  simp only [privateLines, List.map_append, hroutines, hstates, Line.map_plain_titled hguards]
  rfl

theorem map_plain_lines (h : b.WordsFit) (p : Profile) :
    (lines p b).map (Line.plain .slashes) = (lines p b.plain).map (Line.plain .slashes) := by
  have hrecords : (b.plain.records.flatMap fun r => recordLines r ++ [Line.blank]) =
      b.records.flatMap fun r => recordLines r ++ [Line.blank] := by
    simp only [Bundle.plain, List.flatMap_map, recordLines_plain]
  have hclass : (classLines p b).map (Line.plain .slashes) =
      (classLines p b.plain).map (Line.plain .slashes) := by
    simp only [classLines, List.map_append, Line.map_plain_enclose, Line.map_plain_indent,
      publicLines_plain, map_plain_privateLines h p]
    rfl
  have htitle := map_plain_titleLines (Machine.forall_words.1 h.machine).1
  unfold lines
  simp only [List.map_append, htitle]
  congr 2
  · refine Line.map_plain_inNamespaces ?_ _
    rw [hrecords]
    simp only [List.map_append, hclass]

end Header

/-! ### Implementations -/

namespace Implementation

variable {m : Machine} {b : Bundle}

theorem lifecycleLine_plain (m : Machine) (step : LifecycleStep) :
    lifecycleLine m.plain step = lifecycleLine m step := by
  cases step <;> simp [lifecycleLine]

theorem lifecycleLines_plain (b : Bundle) : lifecycleLines b.plain = lifecycleLines b := by
  have hinitializers : initializers b.machine.plain = initializers b.machine := by
    rw [initializers, Machine.constantOf_plain]
    rfl
  have hstart : b.machine.plain.start.map (lifecycleLine b.machine.plain) =
      b.machine.start.map (lifecycleLine b.machine) :=
    List.map_congr_left fun step _ => lifecycleLine_plain b.machine step
  simp only [lifecycleLines, Bundle.machine_plain, Bundle.className_plain, Bundle.baseName_plain,
    hinitializers, hstart]

theorem candidates_plain (m : Machine) (transitions : List Nat) :
    candidates m.plain transitions = candidates m transitions := by
  induction transitions with
  | nil => rfl
  | cons index rest ih =>
    have htransition : m.plain.transitions[index]? = m.transitions[index]? := rfl
    rw [candidates, candidates, htransition, ih]
    cases m.transitions[index]? with
    | none => rfl
    | some t =>
      have hguard : t.guard.bind (m.plain.guards[·]?) =
          (t.guard.bind (m.guards[·]?)).map (·.plain) := by
        cases t.guard with
        | none => rfl
        | some i => exact List.getElem?_map
      simp only [hguard, Machine.constantOf_plain]
      cases t.guard.bind (m.guards[·]?) <;> rfl

theorem candidateLines_plain (m : Machine) (transitions : List Nat) :
    candidateLines m.plain transitions = candidateLines m transitions := by
  rw [candidateLines, candidates_plain, candidateLines]

@[simp] theorem map_plain_caseLines {mark : NoteMark} (label : String) (lines : List Line) :
    (caseLines label lines).map (Line.plain mark) =
      caseLines label (lines.map (Line.plain mark)) := by
  simp [caseLines]

theorem map_plain_armLines (h : ∀ s ∈ m.states, '\n' ∉ s.name.raw.toList) (arm : Machine.Arm) :
    (armLines m arm).map (Line.plain .slashes) =
      (armLines m.plain arm).map (Line.plain .slashes) := by
  have hraw : '\n' ∉ ((m.states[arm.state]?.map (·.name.raw)).getD "").toList := by
    cases hstate : m.states[arm.state]? with
    | none => exact notMem_empty
    | some s => exact h s (List.mem_of_getElem? hstate)
  have hplain : '\n' ∉ ((m.plain.states[arm.state]?.map (·.name.raw)).getD "").toList := by
    rw [Machine.getElem?_plain]
    cases m.states[arm.state]? <;> exact notMem_empty
  simp only [armLines, List.map_append, map_plain_caseLines, List.map_cons, List.map_nil,
    Line.plain_note_append hraw "State: " (by decide),
    Line.plain_note_append hplain "State: " (by decide), candidateLines_plain,
    Machine.constantOf_plain]

theorem map_plain_dispatchLines (h : b.WordsFit) :
    (dispatchLines b).map (Line.plain .slashes) =
      (dispatchLines b.plain).map (Line.plain .slashes) := by
  have harms : (b.machine.arms.flatMap (armLines b.machine)).map (Line.plain .slashes) =
      (b.plain.machine.arms.flatMap (armLines b.plain.machine)).map (Line.plain .slashes) :=
    Line.map_plain_flatMap fun arm _ =>
      map_plain_armLines (Machine.forall_words.1 h.machine).2.1 arm
  simp only [dispatchLines, Line.map_plain_method, List.map_append, Line.map_plain_braced, harms]
  rfl

theorem commandBody_trigger (mnemonic signal : String) (arms : List (Nat × List Nat)) :
    commandBody m ⟨mnemonic, .trigger signal, arms⟩ =
      [Line.note ("Signal: " ++ signal)] ++
      Line.braced "if (!m_stateMachineActive)"
        [.effect (.response .executionError), Line.code "return;"] ++
      [Line.blank] ++
      Line.braced "switch (m_currentState)" (m.states.zipIdx.flatMap (fun p =>
        triggerCase m ⟨mnemonic, .trigger signal, arms⟩ p.1 p.2) ++ defaultCase) :=
  rfl

theorem map_plain_commandBody {c : Machine.Command}
    (h : ∀ signal, c.kind.signal? = some signal → '\n' ∉ signal.toList) :
    (commandBody m c).map (Line.plain .slashes) =
      (commandBody m.plain c.plain).map (Line.plain .slashes) := by
  obtain ⟨mnemonic, kind, arms⟩ := c
  cases kind with
  | start => rfl
  | stop =>
    have hstop : Machine.stop.map (lifecycleLine m.plain) = Machine.stop.map (lifecycleLine m) :=
      List.map_congr_left fun step _ => lifecycleLine_plain m step
    simp only [commandBody, Machine.Command.plain, CommandKind.plain, hstop]
  | trigger signal =>
    have hcases : (m.plain.states.zipIdx.flatMap fun p =>
        triggerCase m.plain ⟨mnemonic, .trigger "", arms⟩ p.1 p.2) =
          m.states.zipIdx.flatMap fun p =>
            triggerCase m ⟨mnemonic, .trigger signal, arms⟩ p.1 p.2 := by
      simp only [Machine.plain, List.zipIdx_map, List.flatMap_map]
      refine List.flatMap_congr fun p _ => ?_
      exact congrArg (caseLines _) (candidateLines_plain m _)
    simp only [commandBody_trigger, Machine.Command.plain, CommandKind.plain, List.map_append,
      List.map_cons, Line.plain_note_append (h signal rfl) "Signal: " (by decide),
      Line.plain_note_append notMem_empty "Signal: " (by decide), Line.map_plain_braced, hcases]

theorem map_plain_guardLines {g : Machine.Guard} (h : '\n' ∉ g.source.toList) (b : Bundle) :
    (guardLines b g).map (Line.plain .slashes) =
      (guardLines b.plain g.plain).map (Line.plain .slashes) := by
  have hplain : '\n' ∉ g.plain.source.toList := notMem_empty
  simp only [guardLines, Line.map_plain_method, List.map_cons, Line.plain_note h,
    Line.plain_note hplain]
  rfl

theorem notMem_intercalate {c : Char} {separator : String} (hseparator : c ∉ separator.toList)
    {texts : List String} (h : ∀ text ∈ texts, c ∉ text.toList) :
    c ∉ (separator.intercalate texts).toList := by
  induction texts with
  | nil => simp
  | cons text texts ih =>
    obtain ⟨htext, htexts⟩ := List.forall_mem_cons.1 h
    cases texts with
    | nil => rwa [String.intercalate_singleton]
    | cons =>
      rw [String.intercalate_cons_cons]
      exact Text.notMem_append.2 ⟨Text.notMem_append.2 ⟨htext, hseparator⟩, ih htexts⟩

theorem map_plain_stepLines {s : Step} (h : ∀ id ∈ s.shown, '\n' ∉ id.toList) :
    (stepLines s).map (Line.plain .slashes) = (stepLines s.plain).map (Line.plain .slashes) := by
  -- The ids that a fork or a join lists, in the words of the model or erased.
  have hlisted (first : String) {node : String} {ids : List String}
      (hfirst : '\n' ∉ first.toList) (hnode : '\n' ∉ node.toList)
      (hids : ∀ id ∈ ids, '\n' ∉ id.toList) :
      (Line.note (first ++ node ++ ": " ++ ", ".intercalate ids)).plain .slashes =
        Line.note "" := by
    refine Line.plain_note ?_
    simp only [Text.notMem_append]
    exact ⟨⟨⟨hfirst, hnode⟩, by decide⟩, notMem_intercalate (by decide) hids⟩
  have herased (ids : List String) : ∀ id ∈ ids.map (fun _ => ""), '\n' ∉ id.toList :=
    List.forall_mem_map.2 fun _ _ => notMem_empty
  obtain ⟨node, operation⟩ := s
  cases operation with
  | block locals body exports =>
    have hnode := h node List.mem_cons_self
    simp only [stepLines, Step.plain, Operation.plain, blockLines, List.map_append,
      Line.map_plain_enclose, Line.plain_noted hnode, Line.plain_noted notMem_empty]
  | fork ids =>
    obtain ⟨hnode, hnodes⟩ := List.forall_mem_cons.1 h
    exact congrArg (fun l => [l]) ((hlisted "fork " (by decide) hnode hnodes).trans
      (hlisted "fork " (by decide) notMem_empty (herased ids)).symm)
  | join ids =>
    obtain ⟨hnode, hnodes⟩ := List.forall_mem_cons.1 h
    exact congrArg (fun l => [l]) ((hlisted "join " (by decide) hnode hnodes).trans
      (hlisted "join " (by decide) notMem_empty (herased ids)).symm)
  | receive | create | literal | read | write | call | output => rfl

theorem map_plain_routineLines {r : Routine} (h : ∀ text ∈ r.words, '\n' ∉ text.toList)
    (b : Bundle) : (routineLines b r).map (Line.plain .slashes) =
      (routineLines b.plain r.plain).map (Line.plain .slashes) := by
  obtain ⟨hraw, hsteps⟩ := Routine.forall_words.1 h
  have hlines : (r.steps.flatMap stepLines).map (Line.plain .slashes) =
      (r.plain.steps.flatMap stepLines).map (Line.plain .slashes) := by
    simp only [Routine.plain, List.flatMap_map]
    exact Line.map_plain_flatMap fun s hs => map_plain_stepLines (hsteps s hs)
  have hplain : '\n' ∉ r.plain.raw.toList := notMem_empty
  simp only [routineLines, Line.map_plain_method, List.map_cons, hlines, r.signature_plain,
    Line.plain_note_append hraw "Activity: " (by decide),
    Line.plain_note_append hplain "Activity: " (by decide)]
  rfl

theorem map_plain_commandLines {c : Machine.Command}
    (h : ∀ signal, c.kind.signal? = some signal → '\n' ∉ signal.toList) (b : Bundle) :
    (commandLines b c).map (Line.plain .slashes) =
      (commandLines b.plain c.plain).map (Line.plain .slashes) := by
  have hhandler : c.plain.handler = c.handler := rfl
  simp only [commandLines, Line.map_plain_definition, List.map_append, Bundle.machine_plain,
    Bundle.className_plain, hhandler, map_plain_commandBody h]

theorem map_plain_bodyLines (h : b.WordsFit) : (bodyLines b).map (Line.plain .slashes) =
    (bodyLines b.plain).map (Line.plain .slashes) := by
  obtain ⟨-, -, hguards, hsignals⟩ := Machine.forall_words.1 h.machine
  have hcommands : (b.machine.commands.flatMap (commandLines b)).map (Line.plain .slashes) =
      (b.plain.machine.commands.flatMap (commandLines b.plain)).map (Line.plain .slashes) := by
    have hmachine : b.plain.machine.commands = b.machine.commands.map (·.plain) := rfl
    rw [hmachine, List.flatMap_map]
    exact Line.map_plain_flatMap fun c hc => map_plain_commandLines (hsignals c hc) b
  have hstates : stateNameLines b.plain = stateNameLines b := by
    have hmachine : b.plain.machine.states = b.machine.states.map (·.plain) := rfl
    rw [stateNameLines, hmachine, List.map_map, Bundle.className_plain]
    rfl
  have hguardLines : (b.machine.guards.flatMap (guardLines b)).map (Line.plain .slashes) =
      (b.plain.machine.guards.flatMap (guardLines b.plain)).map (Line.plain .slashes) := by
    have hmachine : b.plain.machine.guards = b.machine.guards.map (·.plain) := rfl
    rw [hmachine, List.flatMap_map]
    exact Line.map_plain_flatMap fun g hg => map_plain_guardLines (hguards g hg) b
  have hroutines : (b.routines.flatMap (routineLines b)).map (Line.plain .slashes) =
      (b.plain.routines.flatMap (routineLines b.plain)).map (Line.plain .slashes) := by
    have hbundle : b.plain.routines = b.routines.map (·.plain) := rfl
    rw [hbundle, List.flatMap_map]
    exact Line.map_plain_flatMap fun r hr => map_plain_routineLines (h.routines r hr) b
  have htransitions : transitionLines b.plain = transitionLines b := by
    rw [transitionLines, Bundle.className_plain, transitionLines]
  simp only [bodyLines, List.map_append, map_plain_dispatchLines h, hcommands, hstates,
    hguardLines, hroutines, htransitions, lifecycleLines_plain]

theorem map_plain_lines (h : b.WordsFit) (p : Profile) :
    (lines p b).map (Line.plain .slashes) = (lines p b.plain).map (Line.plain .slashes) := by
  have htitle := map_plain_titleLines (Machine.forall_words.1 h.machine).1
  have hsupport : supportLines p b.plain = supportLines p b := by
    rw [supportLines, Bundle.className_plain, supportLines]
  have hbody : ([Line.blank] ++ bodyLines b ++ supportLines p b).map (Line.plain .slashes) =
      ([Line.blank] ++ bodyLines b.plain ++ supportLines p b).map (Line.plain .slashes) := by
    simp only [List.map_append, map_plain_bodyLines h]
  rw [lines, lines, hsupport, Bundle.machine_plain, Bundle.namespaces_plain, Bundle.className_plain]
  simp only [List.map_append, htitle, Line.map_plain_inNamespaces hbody]

end Implementation

/-! ### Component models -/

theorem Fpp.map_plain_lines {b : Bundle} (h : '\n' ∉ b.machine.component.raw.toList)
    (hname : '\n' ∉ b.machine.name.toList) :
    (lines b).map (Line.plain .atSign) = (lines b.plain).map (Line.plain .atSign) := by
  have hremark {words : String} (hwords : '\n' ∉ words.toList) :
      (remark words).plain .atSign = remark "" := by
    simp [Line.plain, remark, hwords]
  have hfirst {raw : String} (hraw : '\n' ∉ raw.toList) :
      (remark (raw ++ " driven by state machine " ++ b.machine.name)).plain .atSign =
        remark "" := by
    refine hremark ?_
    simp only [Text.notMem_append]
    exact ⟨⟨hraw, by decide⟩, hname⟩
  have hcommands : commands b.machine.plain = commands b.machine := by
    rw [commands, Machine.plain, List.zipIdx_map, List.map_map]
    rfl
  have hcomponent : component b.machine.plain = component b.machine := by
    rw [component, hcommands, component]
    rfl
  have hplain : '\n' ∉ b.machine.plain.component.raw.toList := notMem_empty
  have hmachineName : b.machine.plain.name = b.machine.name := rfl
  unfold lines
  dsimp only
  rw [Bundle.machine_plain, Bundle.namespaces_plain, hmachineName]
  induction b.namespaces with
  | nil =>
    simp only [List.foldr_nil, List.map_append, List.map_cons, List.map_nil, hfirst h,
      hfirst hplain, hcomponent]
  | cons name namespaces ih =>
    rw [List.foldr_cons, List.foldr_cons, Line.map_plain_braced, Line.map_plain_braced, ih]

end FlightGen
