import FlightGen.Proofs.Artifact.Emission

/-! The names that the class of a component declares. They are read back from the lines of the
class, and clash only where an activity has the identifier of a member, of the constant of a state
or of a record type, or an attribute that of a member which every class has. -/

namespace FlightGen

open Identifier (isWordChar)

namespace Emitted

/-! ### Reading -/

def isDelimiter (c : Char) : Bool :=
  c = '(' || c = ')' || c = ';'

/-- The name that a line of a class declares. That of a method or a member stands behind its type
and before a delimiter, that of a constant before its number. -/
def declared? (text : String) : Option String :=
  let head := text.toList.takeWhile (!isDelimiter ·)
  let name := (head.reverse.takeWhile (· ≠ ' ')).reverse
  if head.length = text.toList.length then (enumerator? text).map Prod.fst
  else if name.length = head.length then none
  else some (String.ofList name)

/-- A text that is spelled out is read without its encoding. -/
theorem declared?_ofList (cs : List Char) : declared? (String.ofList cs) =
    (let head := cs.takeWhile (!isDelimiter ·)
    let name := (head.reverse.takeWhile (· ≠ ' ')).reverse
    if head.length = cs.length then (enumerator? (String.ofList cs)).map Prod.fst
    else if name.length = head.length then none
    else some (String.ofList name)) := by
  simp only [declared?, String.toList_ofList]

theorem not_isDelimiter {c : Char} (h : isWordChar c = true) : isDelimiter c = false := by
  by_contra hc
  simp only [isDelimiter, Bool.or_eq_true, decide_eq_true_eq, Bool.not_eq_false] at hc
  obtain (rfl | rfl) | rfl := hc <;> exact absurd h (by decide)

theorem ne_blank {c : Char} (h : isWordChar c = true) : c ≠ ' ' := by
  rintro rfl
  exact absurd h (by decide)

/-- A text without delimiters. -/
def Undelimited (text : String) : Prop :=
  text.toList.all (!isDelimiter ·) = true

instance : DecidablePred Undelimited := fun text =>
  inferInstanceAs (Decidable (text.toList.all (!isDelimiter ·) = true))

theorem Undelimited.append {s t : String} (hs : Undelimited s) (ht : Undelimited t) :
    Undelimited (s ++ t) := by
  rw [Undelimited, String.toList_append, List.all_append, hs, ht]
  rfl

theorem undelimited_of_isWord {s : String} (h : Identifier.IsWord s) : Undelimited s :=
  List.all_eq_true.2 fun c hc => by rw [not_isDelimiter (h c hc)]; rfl

theorem takeWhile_delimited {head rest : List Char} {d : Char}
    (hhead : ∀ c ∈ head, isDelimiter c = false) (hd : isDelimiter d = true) :
    (head ++ d :: rest).takeWhile (!isDelimiter ·) = head := by
  rw [List.takeWhile_append_of_pos fun c hc => by rw [hhead c hc]; rfl]
  simp [hd]

/-- A name behind a type. -/
theorem declared?_member {text name : String} (type : String) (d : Char) (rest : List Char)
    (h : text.toList = type.toList ++ ' ' :: (name.toList ++ d :: rest)) (htype : IsName type)
    (hname : IsName name) (hd : isDelimiter d = true) : declared? text = some name := by
  have hhead : text.toList.takeWhile (!isDelimiter ·) = type.toList ++ ' ' :: name.toList := by
    have htext : text.toList = (type.toList ++ ' ' :: name.toList) ++ d :: rest := by simp [h]
    rw [htext]
    refine takeWhile_delimited (fun c hc => ?_) hd
    simp only [List.mem_append, List.mem_cons] at hc
    obtain hc | rfl | hc := hc
    · exact not_isDelimiter (htype.isWord c hc)
    · rfl
    · exact not_isDelimiter (hname.isWord c hc)
  have hlast : ((type.toList ++ ' ' :: name.toList).reverse.takeWhile (· ≠ ' ')).reverse =
      name.toList := by
    rw [List.reverse_append, List.reverse_cons, List.append_assoc, List.takeWhile_append_of_pos]
    · simp
    · intro c hc
      simpa using ne_blank (hname.isWord c (List.mem_reverse.1 hc))
  unfold declared?
  dsimp only
  have hshorter : name.toList.length ≠ (type.toList ++ ' ' :: name.toList).length := by
    rw [List.length_append, List.length_cons]
    omega
  rw [hhead, hlast, if_neg (by simp [h]), if_neg hshorter, String.ofList_toList]

/-- Nothing stands before a name that is no declaration. -/
theorem declared?_of_word {text : String} (word : List Char) (d : Char) (rest : List Char)
    (h : text.toList = word ++ d :: rest) (hword : ∀ c ∈ word, c ≠ ' ' ∧ isDelimiter c = false)
    (hd : isDelimiter d = true) : declared? text = none := by
  have hhead : text.toList.takeWhile (!isDelimiter ·) = word := by
    rw [h]
    exact takeWhile_delimited (fun c hc => (hword c hc).2) hd
  have hlast : (word.reverse.takeWhile (· ≠ ' ')).reverse = word := by
    rw [List.takeWhile_eq_self_iff.2, List.reverse_reverse]
    intro c hc
    simpa using (hword c (List.mem_reverse.1 hc)).1
  unfold declared?
  dsimp only
  rw [hhead, hlast, if_neg (by simp [h]), if_pos rfl]

/-- A line without delimiters declares a constant, if anything. -/
theorem declared?_of_undelimited {text : String} (h : Undelimited text) :
    declared? text = (enumerator? text).map Prod.fst := by
  have hhead : text.toList.takeWhile (!isDelimiter ·) = text.toList :=
    List.takeWhile_eq_self_iff.2 (List.all_eq_true.1 h)
  unfold declared?
  rw [hhead, if_pos rfl]

/-- A line in which no equals sign stands behind the first blank declares no constant. -/
theorem enumerator?_eq_none {text : String} (before : List Char) (c : Char) (rest : List Char)
    (h : text.toList = before ++ ' ' :: c :: rest) (hbefore : ' ' ∉ before) (hc : c ≠ '=') :
    enumerator? text = none := by
  have hdrop : text.toList.dropWhile (fun x => !decide (' ' = x)) = ' ' :: c :: rest := by
    rw [h, List.dropWhile_append_of_pos]
    · simp
    · intro x hx
      simpa using fun hx' : ' ' = x => hbefore (hx' ▸ hx)
  have hnone : divide? " = " text = none := by
    simp [divide?, hdrop, hc.symm]
  rw [enumerator?, hnone]
  rfl

theorem readings_map_of_some {α β : Type} {read : String → Option α} {p : Profile} {f : β → Line}
    {g : β → α} {xs : List β} (h : ∀ x ∈ xs, read ((f x).content.text p) = some (g x)) :
    readings read p (xs.map f) = xs.map g := by
  induction xs with
  | nil => rfl
  | cons x xs ih =>
    obtain ⟨hx, hxs⟩ := List.forall_mem_cons.1 h
    simp [hx, ih hxs]

end Emitted

open Emitted

/-! ### The names of a class -/

/-- The methods with which a profile prints effects. -/
def Profile.supportMethods : Profile → List String
  | production => []
  | mock => ["mockCmdResponse", "mockTlmWrite", "mockLogEvent", "mockAssert"]

namespace Bundle

/-- The members that hold the state and the attributes. -/
def members (b : Bundle) : List String :=
  fixedMembers.map memberName ++ b.machine.attributes.map fun a => memberName a.ident

/-- What the class of a component declares for the machine and its activities. -/
def scopeNames (b : Bundle) : List String :=
  fixedMethods ++ b.machine.guards.map (·.method) ++ b.routines.map (·.ident) ++ b.members ++
    b.machine.states.map (·.constant)

/-- All methods, members and constants of the class are spelled as names. -/
structure Spelled (b : Bundle) : Prop extends b.Named where
  commands : ∀ c ∈ b.machine.commands, IsName c.handler
  states : ∀ s ∈ b.machine.states, IsName s.constant
  attributes : ∀ a ∈ b.machine.attributes, IsName (memberName a.ident)
  guards : ∀ g ∈ b.machine.guards, IsName g.method
  routines : ∀ r ∈ b.routines, IsName r.ident

end Bundle

/-! ### Fixed texts -/

theorem isName_words : ∀ word ∈ ["void", "bool", "F64", "ComponentImpl", "ComponentBase",
    "_cmdHandler"], IsName word := by
  decide +kernel

theorem Scalar.isName_cppType (s : Scalar) : IsName s.cppType := by
  cases s <;> exact isName_words _ (by simp [Scalar.cppType])

theorem Bundle.Named.isName_className {b : Bundle} (hb : b.Named) : IsName b.className :=
  hb.component.1.append (isName_words "ComponentImpl" (by simp)).isWord

theorem Bundle.Named.isName_baseName {b : Bundle} (hb : b.Named) : IsName b.baseName :=
  hb.component.1.append (isName_words "ComponentBase" (by simp)).isWord

theorem Emitted.undelimited_texts :
    ∀ text ∈ [" = ", "", ",", "class ", " :", "  public "], Undelimited text := by
  decide +kernel

theorem Emitted.declared?_eq_none : ∀ text ∈ ["", "\x7b", "\x7d;", "public:", "private:",
    "enum StateMachineStates \x7b", "// " ++ "Transition guards", "// " ++ "Activities",
    "// " ++ "Mock framework diagnostics"], declared? text = none := by
  decide +kernel

/-- The lines that are the same in all classes. -/
theorem Header.declared_fixed (p : Profile) :
    readings declared? p [.blank, .code "void initializeStateMachine();",
      .code "void processStateMachine();",
      .code "void schedIn_handler(const NATIVE_INT_TYPE portNum, NATIVE_UINT_TYPE context);",
      .blank, .note "Command handlers"] =
        ["initializeStateMachine", "processStateMachine", "schedIn_handler"] ∧
    readings declared? p (handlerParameters ++ [.code ") override;"]) = [] ∧
    readings declared? p [.code "StateMachineStates m_currentState;",
      .code "bool m_stateMachineActive;"] = fixedMembers.map memberName ∧
    declared? "void transitionToState(StateMachineStates newState);" = some "transitionToState" ∧
    declared? "const char* getStateName(StateMachineStates state);" = some "getStateName" ∧
    readings declared? p (p.supportDeclarations.map Line.code) = p.supportMethods := by
  refine ⟨?_, ?_, ?_, ?_, ?_, ?_⟩
  · simp only [readings_cons, readings_nil, text_code, text_blank, text_note]
    rw [declared?_ofList, declared?_ofList, declared?_ofList, declared?_ofList]
    decide +kernel
  · simp only [handlerParameters, List.cons_append, List.nil_append, readings_cons, readings_nil,
      text_code]
    rw [declared?_ofList, declared?_ofList, declared?_ofList]
    decide +kernel
  · simp only [readings_cons, readings_nil, text_code]
    rw [declared?_ofList, declared?_ofList]
    decide +kernel
  · rw [declared?_ofList]
    decide +kernel
  · rw [declared?_ofList]
    decide +kernel
  · cases p with
    | production => rfl
    | mock =>
      simp only [Profile.supportDeclarations, List.map_cons, List.map_nil, readings_cons,
        readings_nil, text_code]
      rw [declared?_ofList, declared?_ofList, declared?_ofList, declared?_ofList]
      decide +kernel

namespace Header

variable {p : Profile} {b : Bundle}

theorem declared_publicLines (hb : b.Spelled) : readings declared? p (publicLines b) =
    ["initializeStateMachine", "processStateMachine", "schedIn_handler"] ++
      b.machine.commands.map (·.handler) := by
  have hclass := hb.isName_className
  have hword : ∀ c ∈ b.className.toList, c ≠ ' ' ∧ isDelimiter c = false := fun c hc =>
    ⟨ne_blank (hclass.isWord c hc), not_isDelimiter (hclass.isWord c hc)⟩
  have hconstructor : declared? (b.className ++ "(const char* const compName);") = none :=
    declared?_of_word _ '(' _ String.toList_append hword rfl
  have hdestructor : declared? ("~" ++ b.className ++ "();") = none := by
    refine declared?_of_word ('~' :: b.className.toList) '(' [')', ';'] (by simp) ?_ rfl
    exact List.forall_mem_cons.2 ⟨by decide, hword⟩
  obtain ⟨hfixed, hrest, -⟩ := declared_fixed p
  have hhandler (c : Machine.Command) (hc : c ∈ b.machine.commands) :
      readings declared? p (handlerLines c) = [c.handler] := by
    have hhead : declared? ("void " ++ c.handler ++ "(") = some c.handler :=
      declared?_member "void" '(' [] (by simp) (isName_words _ (by simp)) (hb.commands c hc) rfl
    rw [handlerLines, List.append_assoc, readings_append, hrest]
    simp [hhead]
  rw [publicLines, readings_append, readings_cons, readings_cons, text_code, text_code,
    hconstructor, hdestructor, hfixed, readings_flatMap, List.flatMap_congr hhandler,
    List.map_eq_flatMap]
  rfl

theorem declared?_constant {s : Machine.State} (hs : IsName s.constant) {tail : String}
    (htail : tail = "" ∨ tail = ",") :
    declared? (s.constant ++ " = " ++ toString s.value.toNat ++ tail) = some s.constant := by
  have hblank : Undelimited " = " := undelimited_texts _ (by simp)
  have hnumber : Undelimited (toString s.value.toNat) :=
    undelimited_of_isWord (Identifier.isWord_toString _)
  have hend : Undelimited tail := undelimited_texts _ (by obtain rfl | rfl := htail <;> simp)
  have htext : Undelimited (s.constant ++ " = " ++ toString s.value.toNat ++ tail) :=
    (((undelimited_of_isWord hs.isWord).append hblank).append hnumber).append hend
  rw [declared?_of_undelimited htext, enumerator?_append (hs.notMem rfl)]
  · rfl
  · obtain rfl | rfl := htail <;> simp

theorem declared_separated {states : List Machine.State} (h : ∀ s ∈ states, IsName s.constant) :
    readings declared? p (Line.separated (states.map fun s => s.constant ++ " = " ++
      toString s.value.toNat)) = states.map (·.constant) := by
  induction states with
  | nil => rfl
  | cons s states ih =>
    obtain ⟨hs, hstates⟩ := List.forall_mem_cons.1 h
    cases states with
    | nil =>
      have hlast := declared?_constant hs (.inl rfl)
      rw [String.append_empty] at hlast
      rw [List.map_singleton, Line.separated, readings_cons, text_code, hlast]
      rfl
    | cons s' states =>
      have hrest := ih hstates
      rw [List.map_cons] at hrest
      rw [List.map_cons, List.map_cons, Line.separated, readings_cons, text_code,
        declared?_constant hs (.inr rfl), hrest]
      · rfl
      · exact List.cons_ne_nil _ _

theorem declared_stateLines (hb : b.Spelled) :
    readings declared? p (stateLines b.machine) = b.machine.states.map (·.constant) := by
  have hopen : declared? "enum StateMachineStates \x7b" = none := declared?_eq_none _ (by simp)
  have hclose : declared? "\x7d;" = none := declared?_eq_none _ (by simp)
  rw [stateLines, readings_enclose, declared_separated hb.states]
  simp [hopen, hclose]

theorem declared_memberLines (hb : b.Spelled) :
    readings declared? p (memberLines b.machine) = b.members := by
  have hattribute (a : Machine.Attribute) (ha : a ∈ b.machine.attributes) :
      declared? (a.scalar.cppType ++ " " ++ memberName a.ident ++ ";") =
        some (memberName a.ident) :=
    declared?_member a.scalar.cppType ';' [] (by simp) a.scalar.isName_cppType
      (hb.attributes a ha) rfl
  obtain ⟨-, -, hfixed, -⟩ := declared_fixed p
  rw [memberLines, readings_append, hfixed, readings_map_of_some hattribute]
  rfl

theorem declared_routines (hb : b.Spelled) :
    readings declared? p (b.routines.map fun r => .code (r.signature "" ++ ";")) =
      b.routines.map (·.ident) := by
  refine readings_map_of_some fun r hr => ?_
  have hresult : IsName ((r.outputs.head?.map (·.type.cppType)).getD "void") := by
    cases houtput : r.outputs.head? with
    | none => exact isName_words _ (by simp)
    | some slot =>
      rw [Option.map_some, Option.getD_some]
      cases htype : slot.type with
      | scalar s => exact s.isName_cppType
      | record name => exact (hb.results r hr slot (List.mem_of_mem_head? houtput) name htype).1
  refine declared?_member _ '(' (", ".intercalate (r.inputs.map fun s =>
    "const " ++ s.type.cppType ++ "& " ++ s.ident) ++ ");").toList ?_ hresult (hb.routines r hr) rfl
  simp [Routine.signature]

theorem declared_guards (hb : b.Spelled) :
    readings declared? p (b.machine.guards.map fun g =>
      .noted ("bool " ++ g.method ++ "();") g.source) = b.machine.guards.map (·.method) := by
  refine readings_map_of_some fun g hg => ?_
  rw [text_noted (by simp [← String.toList_inj])]
  exact declared?_member "bool" '(' (")" ++ "; // " ++ g.source).toList (by simp)
    (isName_words _ (by simp)) (hb.guards g hg) rfl

/-- The names that a class declares, in the order of its lines. -/
theorem declared_classLines (hb : b.Spelled) : readings declared? p (classLines p b) =
    ["initializeStateMachine", "processStateMachine", "schedIn_handler"] ++
      b.machine.commands.map (·.handler) ++ b.machine.states.map (·.constant) ++ b.members ++
      ["transitionToState", "getStateName"] ++ b.machine.guards.map (·.method) ++
      b.routines.map (·.ident) ++ p.supportMethods := by
  have hblank : declared? "" = none := declared?_eq_none _ (by simp)
  have hclass : declared? ("class " ++ b.className ++ " :") = none := by
    obtain ⟨c, cs, hname, hc, -⟩ := isName_iff.1 hb.isName_className
    rw [declared?_of_undelimited, enumerator?_eq_none "class".toList c (cs ++ [' ', ':'])]
    · rfl
    · simp [hname]
    · simp
    · rintro rfl
      exact absurd hc (by decide)
    · have hfirst : Undelimited "class " := undelimited_texts _ (by simp)
      have hlast : Undelimited " :" := undelimited_texts _ (by simp)
      exact (hfirst.append (undelimited_of_isWord hb.isName_className.isWord)).append hlast
  have hbase : declared? ("  public " ++ b.baseName) = none := by
    rw [declared?_of_undelimited, enumerator?_eq_none [] ' ' ("public " ++ b.baseName).toList]
    · rfl
    · simp
    · simp
    · decide
    · have hfirst : Undelimited "  public " := undelimited_texts _ (by simp)
      exact hfirst.append (undelimited_of_isWord hb.isName_baseName.isWord)
  have hopen : declared? "\x7b" = none := declared?_eq_none _ (by simp)
  have hpublic : declared? "public:" = none := declared?_eq_none _ (by simp)
  have hprivate : declared? "private:" = none := declared?_eq_none _ (by simp)
  have hclose : declared? "\x7d;" = none := declared?_eq_none _ (by simp)
  have htitles {title : String} (h : title ∈ ["Transition guards", "Activities",
      "Mock framework diagnostics"]) : declared? ("// " ++ title) = none := by
    refine declared?_eq_none _ ?_
    simp only [List.mem_cons, List.not_mem_nil, or_false] at h
    obtain rfl | rfl | rfl := h <;> simp
  obtain ⟨-, -, -, htransition, hname, hsupport⟩ := declared_fixed p
  have hprivateLines : readings declared? p (privateLines p b) =
      b.machine.states.map (·.constant) ++ b.members ++ ["transitionToState", "getStateName"] ++
        b.machine.guards.map (·.method) ++ b.routines.map (·.ident) ++ p.supportMethods := by
    simp [privateLines, declared_stateLines hb, declared_memberLines hb,
      readings_titled hblank (htitles _), declared_guards hb, declared_routines hb, hsupport,
      hblank, htransition, hname]
  simp [classLines, declared_publicLines hb, hprivateLines, hblank, hclass, hbase, hopen, hpublic,
    hprivate, hclose]

end Header

/-! ### Components of a model -/

/-- No attribute takes the member of another purpose, unless the component is named like the scope
of a record type. -/
theorem ComponentRun.attributes_apart {records : List RecordType} {d : Definition.Component}
    {c : Component} {t' : NameTable} (R : ComponentRun records t' d c)
    (h : ∀ name, d.name ≠ "record " ++ name) : ∀ a ∈ c.attributes, a.name.ident ∉ fixedMembers := by
  have hempty : R.stages.afterName.names d.name .field = {} :=
    (NameTable.names_assign R.stages.name_eq (by simp)).trans (R.fields h)
  have hreserves := Naming.reserves_reserveAll hempty R.stages.members_eq
  have hkey : NameKind.key .field = id := rfl
  rw [hkey, List.map_id] at hreserves
  intro a ha hmem
  have hholds := R.stages.attributes.held a.name (List.mem_map.2 ⟨a, ha, rfl⟩)
  have hreaches : R.stages.afterMembers.Reaches R.after :=
    (within_buildFields trivial _ _ _ _ R.stages.attributes_eq).trans
      R.stages.afterAttributes_reaches
  exact (hreaches.reserves hreserves).free _ _ hholds hmem

/-- The names of a class that do not come from activities are told apart by how they start. -/
theorem Component.names_apart (c : Component) :
    (∀ method ∈ fixedMethods ++ c.synthesize.guards.map (·.method),
      ¬ "m_".toList <+: method.toList ∧ ¬ "STATE_".toList <+: method.toList) ∧
    ∀ constant ∈ c.synthesize.states.map (·.constant), "STATE_".toList <+: constant.toList := by
  constructor
  · intro method hmethod
    rw [map_method] at hmethod
    obtain hfixed | hguard := List.mem_append.1 hmethod
    · have hstart : ∀ method ∈ fixedMethods,
          ¬ "m_".toList <+: method.toList ∧ ¬ "STATE_".toList <+: method.toList := by
        decide +kernel
      exact hstart method hfixed
    · obtain ⟨n, -, rfl⟩ := List.mem_map.1 hguard
      simp [guardMethod]
  · intro constant hconstant
    rw [map_constant] at hconstant
    obtain ⟨state, -, rfl⟩ := List.mem_map.1 hconstant
    rw [String.toList_append]
    exact List.prefix_append _ _

namespace Bundle.Collected

variable {d : Definition} {m : Model} {c : Component} {s : Compilation} {path : String} {b : Bundle}
  {r : Routine} (hb : Collected path c.synthesize s.library m.recordTypes b) (hm : m.Resolved)
  (hc : c ∈ m.components) (hs : s.Of m)
  (hrequests : ∀ i ∈ c.stateActivities, i < c.activities.length)

include hb hm hc hs hrequests

/-- The method of a routine is that of an activity of the component. -/
theorem ident_mem (hr : r ∈ b.routines) :
    r.component = c.name.ident ∧ r.ident ∈ c.activities.map (·.name.ident) := by
  obtain ⟨f, i, hf, rfl, hactivity⟩ := hb.exists_flow hm hc hs hrequests hr
  obtain ⟨L⟩ := f.exists_lowering hf.lower
  exact ⟨L.component_eq,
    List.mem_map.2 ⟨f.activity, List.mem_of_getElem? hactivity, L.ident_eq.symm⟩⟩

theorem spelled (S : ModelStages d m) : b.Spelled := by
  obtain ⟨d, -, ⟨R⟩⟩ := exists_of_forall₂ S.componentRuns.flip hc
  have hnames {name : String} (h : name ∈ c.names) : IsName name := (R.isIdentifier_names name h).1
  refine ⟨hb.named hm hc hs hrequests S, ?_, ?_, ?_, ?_, fun r hr => ?_⟩
  · intro command hcommand
    rw [hb.machine, c.mem_machineCommands] at hcommand
    obtain ⟨k, d, hd, rfl⟩ := hcommand
    rw [Machine.Command.handler, Component.mnemonic_machineCommand]
    refine (hnames ?_).append (isName_words "_cmdHandler" (by simp)).isWord
    simp only [Component.names, List.mem_append]
    exact .inl (.inr (List.mem_map.2 ⟨d, List.mem_of_getElem? hd, rfl⟩))
  · intro state hstate
    rw [hb.machine] at hstate
    refine hnames ?_
    simp only [Component.names, List.mem_append]
    exact .inl (.inl (.inr (List.mem_map_of_mem hstate)))
  · intro a ha
    rw [hb.machine] at ha
    obtain ⟨f, hf, rfl⟩ := List.mem_map.1 ha
    refine isName_memberName (R.isIdentifier_names _ ?_)
    simp only [Component.names, List.mem_append]
    exact .inl (.inl (.inl (List.mem_map.2 ⟨f, hf, rfl⟩)))
  · intro g hg
    rw [hb.machine] at hg
    refine hnames ?_
    simp only [Component.names, Component.methods, List.mem_append]
    exact .inr (.inl (.inr (List.mem_map_of_mem hg)))
  · refine hnames ?_
    simp only [Component.names, Component.methods, List.mem_append]
    exact .inr (.inr (hb.ident_mem hm hc hs hrequests hr).2)

/-- No two routines have the same method. -/
theorem nodup_idents : (b.routines.map (·.ident)).Nodup := by
  have hordered := (hs.reachable_eq_ok hb.reached).1
  rw [List.Nodup, List.pairwise_map]
  refine hordered.imp_of_mem fun {r r'} hr hr' hlt hident => ?_
  have hname : r.qualified = r'.qualified := by
    rw [Routine.qualified, Routine.qualified, hident, (hb.ident_mem hm hc hs hrequests hr).1,
      (hb.ident_mem hm hc hs hrequests hr').1]
  rw [hname] at hlt
  exact String.lt_irrefl _ hlt

/-- The methods are distinct, whatever the activities are called. -/
theorem nodup_methods (S : ModelStages d m) :
    (fixedMethods ++ b.machine.guards.map (·.method) ++ b.routines.map (·.ident)).Nodup := by
  obtain ⟨d, -, ⟨R⟩⟩ := exists_of_forall₂ S.componentRuns.flip hc
  have hmethods := R.nodup_methods
  rw [Component.methods, List.nodup_append'] at hmethods
  rw [hb.machine]
  refine hmethods.1.append (hb.nodup_idents hm hc hs hrequests) fun method hmethod hident => ?_
  obtain ⟨r, hr, rfl⟩ := List.mem_map.1 hident
  exact hmethods.2.2 hmethod (hb.ident_mem hm hc hs hrequests hr).2

omit hm hc hs hrequests in
theorem members_eq :
    b.members = (fixedMembers ++ c.attributes.map (·.name.ident)).map memberName := by
  rw [Bundle.members, hb.machine, List.map_append]
  simp [Component.synthesize]

omit hm hs hrequests in
theorem nodup_members_iff (S : ModelStages d m) :
    b.members.Nodup ↔ ∀ a ∈ c.attributes, a.name.ident ∉ fixedMembers := by
  obtain ⟨d, -, ⟨R⟩⟩ := exists_of_forall₂ S.componentRuns.flip hc
  have hfixed : fixedMembers.Nodup := by decide +kernel
  rw [hb.members_eq, List.nodup_map_iff memberName_injective, List.nodup_append']
  constructor
  · rintro ⟨-, -, hdisjoint⟩ a ha hmem
    exact hdisjoint hmem (List.mem_map.2 ⟨a, ha, rfl⟩)
  · refine fun hapart => ⟨hfixed, R.distinct.attributes, fun name hmem hname => ?_⟩
    obtain ⟨a, ha, rfl⟩ := List.mem_map.1 hname
    exact hapart a ha hmem

/-- The names of the class clash only through an activity, or through an attribute with the member
of another purpose. -/
theorem nodup_scopeNames_iff (S : ModelStages d m) : b.scopeNames.Nodup ↔
    (∀ a ∈ c.attributes, a.name.ident ∉ fixedMembers) ∧
      ∀ r ∈ b.routines, r.ident ∉ b.members ∧ r.ident ∉ b.machine.states.map (·.constant) := by
  have hmethods := hb.nodup_methods hm hc hs hrequests S
  have hconstants : (b.machine.states.map (·.constant)).Nodup := by
    obtain ⟨d, -, ⟨R⟩⟩ := exists_of_forall₂ S.componentRuns.flip hc
    rw [hb.machine]
    exact R.nodup_constants
  obtain ⟨hfixed, hstates⟩ := c.names_apart
  rw [← hb.machine] at hfixed hstates
  have hmember {name : String} (h : name ∈ b.members) : "m_".toList <+: name.toList := by
    rw [hb.members_eq] at h
    obtain ⟨ident, -, rfl⟩ := List.mem_map.1 h
    rw [memberName, String.toList_append]
    exact List.prefix_append _ _
  rw [Bundle.scopeNames, List.nodup_append', List.nodup_append', hb.nodup_members_iff hc S]
  constructor
  · rintro ⟨⟨-, hattributes, hmembers⟩, -, hdisjoint⟩
    refine ⟨hattributes, fun r hr => ⟨fun hmem => hmembers ?_ hmem, fun hmem => hdisjoint ?_ hmem⟩⟩
    · exact List.mem_append_right _ (List.mem_map_of_mem hr)
    · exact List.mem_append_left _ (List.mem_append_right _ (List.mem_map_of_mem hr))
  · rintro ⟨hattributes, hroutines⟩
    refine ⟨⟨hmethods, hattributes, fun name hname hmem => ?_⟩, hconstants,
      fun name hname hmem => ?_⟩
    · obtain hname | hname := List.mem_append.1 hname
      · exact (hfixed name hname).1 (hmember hmem)
      · obtain ⟨r, hr, rfl⟩ := List.mem_map.1 hname
        exact (hroutines r hr).1 hmem
    · obtain hname | hname := List.mem_append.1 hname
      · obtain hname | hname := List.mem_append.1 hname
        · exact (hfixed name hname).2 (hstates name hmem)
        · obtain ⟨r, hr, rfl⟩ := List.mem_map.1 hname
          exact (hroutines r hr).2 hmem
      · -- Members and constants start with different characters.
        obtain ⟨rest, hrest⟩ := hmember hname
        obtain ⟨rest', hrest'⟩ := hstates name hmem
        have hhead := congrArg List.head? (hrest.trans hrest'.symm)
        simp at hhead

end Bundle.Collected

/-! ### A sample of clashes -/

namespace Sample

/-- A component with an attribute and an activity, beside a record type. -/
def lampDefinition (component member activity : String) : Definition where
  recordTypes := [⟨"Pose", [⟨"currentState", .bool⟩]⟩]
  components := [{
    name := component
    attributes := [⟨member, .bool⟩]
    machine := ⟨"Cycle", "On", [⟨"On", [activity]⟩], []⟩
    activities := [⟨activity, [], []⟩] }]

def lamp : Component where
  name := ⟨"Lamp", "Lamp"⟩
  machine := ⟨"Cycle", "Cycle"⟩
  states := [⟨⟨"On", "On"⟩, [0]⟩]
  initial := 0
  transitions := []
  activities := [⟨⟨"Blink", "Blink"⟩, [], []⟩]
  attributes := [⟨⟨"level", "level"⟩, .bool⟩]
  commands := lifecycleCommands

def lampModel : Model :=
  ⟨[⟨⟨"Pose", "Pose"⟩, [⟨⟨"currentState", "currentState"⟩, .bool⟩]⟩], [lamp]⟩

theorem build_lampDefinition :
    Model.build (lampDefinition "Lamp" "level" "Blink") = .ok lampModel := by
  decide +kernel

theorem collect_lamp : ∃ b : Bundle, Bundle.collect ({} : Settings).path lamp.synthesize
    (lamp.ownLibrary lampModel) lampModel.recordTypes = .ok b ∧
      (b.routines.map (·.ident), b.members, b.machine.states.map (·.constant)) =
        (["Blink"], ["m_currentState", "m_stateMachineActive", "m_level"], ["STATE_ON"]) :=
  exists_of_toOption_map (by decide +kernel)

/-- The names that the classes of a model declare for machines and activities. -/
def declarations (d : Definition) : Option (List (List String)) :=
  (Model.build d).toOption.bind fun m => m.components.mapM fun c =>
    (Bundle.collect "Gen" c.synthesize (c.ownLibrary m) m.recordTypes).toOption.map (·.scopeNames)

end Sample

/-- The class of a component declares what the machine and the activities need, a handler for each
command and the methods of the profile. No two of the former are equal, and no activity bears the
name of a record type, exactly if no activity has the identifier of a member, of a constant or of a
record type and no attribute that of a member which every class has. Of the latter there is none
unless the component is named like the scope of a record type. -/
theorem Model.class_names {d : Definition} {m : Model} (h : Model.build d = .ok m) {c : Component}
    (hc : c ∈ m.components) {s : Compilation} (hs : s.Of m) {settings : Settings} {b : Bundle}
    (hb : Bundle.collect settings.path c.synthesize s.library m.recordTypes = .ok b) :
    (emitComponent settings m c s).map (·.header) = .ok (b.headerFile settings.profile) ∧
      contents settings.profile (Header.classLines settings.profile b) <:+:
        contents settings.profile (Header.lines settings.profile b) ∧
      (readings declared? settings.profile (Header.classLines settings.profile b)).Perm
        (b.scopeNames ++ b.machine.commands.map (·.handler) ++ settings.profile.supportMethods) ∧
      (b.scopeNames.Nodup ∧ (∀ r ∈ b.routines, r.ident ∉ m.recordTypes.map (·.name.ident)) ↔
        (∀ a ∈ c.attributes, a.name.ident ∉ fixedMembers) ∧
        ∀ r ∈ b.routines, r.ident ∉ b.members ∧ r.ident ∉ b.machine.states.map (·.constant) ∧
          r.ident ∉ m.recordTypes.map (·.name.ident)) ∧
      ((∀ name, c.name.raw ≠ "record " ++ name) →
        ∀ a ∈ c.attributes, a.name.ident ∉ fixedMembers) := by
  have hm := Model.resolved_of_build h
  obtain ⟨S⟩ := exists_modelStages h
  have hrequests := ((S.linked.closed hm).components c hc).requests
  have hcollected := Bundle.collected hb
  refine ⟨?_, Header.infix_classLines _ b, ?_, ?_, fun hraw => ?_⟩
  · rw [emitComponent, emit_eq, hb]
    rfl
  · rw [Header.declared_classLines (hcollected.spelled hm hc hs hrequests S), Bundle.scopeNames,
      fixedMethods]
    refine List.perm_iff_count.2 fun name => ?_
    simp only [List.count_append, List.count_cons, List.count_nil]
    omega
  · rw [hcollected.nodup_scopeNames_iff hm hc hs hrequests S]
    constructor
    · rintro ⟨⟨hattributes, hroutines⟩, hrecords⟩
      exact ⟨hattributes, fun r hr => ⟨(hroutines r hr).1, (hroutines r hr).2, hrecords r hr⟩⟩
    · rintro ⟨hattributes, hroutines⟩
      exact ⟨⟨hattributes, fun r hr => ⟨(hroutines r hr).1, (hroutines r hr).2.1⟩⟩,
        fun r hr => (hroutines r hr).2.2⟩
  · obtain ⟨d, -, ⟨R⟩⟩ := exists_of_forall₂ S.componentRuns.flip hc
    rw [R.stages.raw_eq] at hraw
    exact R.attributes_apart hraw

/-- A lamp that blinks has no clash. -/
theorem Sample.class_names_lamp : ∃ b : Bundle,
    Bundle.collect ({} : Settings).path lamp.synthesize (lamp.ownLibrary lampModel)
      lampModel.recordTypes = .ok b ∧
      b.routines.map (·.ident) = ["Blink"] ∧ b.scopeNames.Nodup := by
  obtain ⟨b, hb, hnames⟩ := collect_lamp
  simp only [Prod.mk.injEq] at hnames
  obtain ⟨hroutines, hmembers, hconstants⟩ := hnames
  have hlamp : lamp ∈ lampModel.components := List.mem_singleton_self lamp
  have hs : (compileActivities lampModel lamp {} lamp.stateActivities).2.Of lampModel :=
    compileActivities_of .start hlamp
  obtain ⟨-, -, -, hclash, -⟩ := Model.class_names build_lampDefinition hlamp hs hb
  refine ⟨b, hb, hroutines, (hclash.2 ⟨by decide +kernel, fun r hr => ?_⟩).1⟩
  have hident : r.ident ∈ ["Blink"] := hroutines ▸ List.mem_map_of_mem hr
  rw [List.mem_singleton.1 hident, hmembers, hconstants]
  decide +kernel

/-- An activity takes the name of a member, of a constant or of a record type, and an attribute that
of the member for the state. -/
theorem Sample.class_names_clash :
    (declarations (lampDefinition "Lamp" "level" "m_level")).map
      (·.map (·.count "m_level")) = some [2] ∧
    (declarations (lampDefinition "Lamp" "level" "STATE_ON")).map
      (·.map (·.count "STATE_ON")) = some [2] ∧
    (declarations (lampDefinition "Lamp" "level" "Pose")).map (·.map (·.count "Pose")) = some [1] ∧
    (declarations (lampDefinition "record Pose" "currentState" "Blink")).map
      (·.map (·.count "m_currentState")) = some [2] := by
  decide +kernel

end FlightGen
