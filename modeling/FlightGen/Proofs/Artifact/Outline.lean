import FlightGen.Proofs.Artifact.Gathering
import FlightGen.Proofs.Artifact.Transition

/-! The outline of a header, read back from its lines: the conditional parts, the record types and
the class. All other lines are of no account for it. -/

namespace FlightGen

/-- A note stands behind its mark, and the mark behind the code. -/
theorem LineContent.text_noted (p : Profile) (code : String) (mark : NoteMark) (words : String) :
    (noted code mark words).text p =
      (if code = "" then "" else code ++ " ") ++ mark.text ++ " " ++ words := by
  unfold LineContent.text
  split
  · rename_i heq
    cases heq
  · rename_i heq
    cases heq
    simp
  · rename_i hcode heq
    cases heq
    rw [if_neg hcode]
  · rename_i heq
    cases heq

namespace Emitted

/-! ### Reading -/

/-- A line that matters to the outline of a file. -/
inductive Landmark where
  /-- A part that counts only where a macro is not defined. -/
  | opens (name : String)
  | defines (name : String)
  | closes
  | record (name : String)
  | component (name : String)
deriving Repr, DecidableEq

def Landmark.read? (text : String) : Option Landmark :=
  (between? "#ifndef " "" text).map opens <|>
  (between? "#define " "" text).map defines <|>
  (if "#endif".toList <+: text.toList then some closes else none) <|>
  (between? "struct " " \x7b" text).map record <|>
  (between? "class " " :" text).map component

/-- What is found among some lines, if each of them is read by itself. Words of the model that
run over several lines of a file are read as the one note that they were emitted as. -/
def readings {α : Type} (read : String → Option α) (p : Profile) (lines : List Line) : List α :=
  (contents p lines).filterMap read

theorem between?_eq_none_of_last {first last text : String}
    (h : last.toList.getLast? ≠ text.toList.getLast?) (hlast : last.toList ≠ []) :
    between? first last text = none := by
  refine if_neg fun ⟨_, hsuffix⟩ => h ?_
  obtain ⟨before, hbefore⟩ := hsuffix.trans (List.drop_suffix _ _)
  rw [← hbefore, List.getLast?_append_of_ne_nil _ hlast]

namespace Landmark

/-- A line that starts in another way. -/
theorem read?_of_head {text : String} (h : text.toList.head? ≠ some '#' ∧
    text.toList.head? ≠ some 's' ∧ text.toList.head? ≠ some 'c') : read? text = none := by
  have hstart (first : String) {c : Char} (hfirst : first.toList.head? = some c)
      (hc : text.toList.head? ≠ some c) : ¬ first.toList <+: text.toList :=
    fun ⟨rest, hrest⟩ => hc (by rw [← hrest, List.head?_append, hfirst]; rfl)
  rw [read?, between?_eq_none (hstart "#ifndef " (by simp) h.1),
    between?_eq_none (hstart "#define " (by simp) h.1), if_neg (hstart "#endif" (by simp) h.1),
    between?_eq_none (hstart "struct " (by simp) h.2.1),
    between?_eq_none (hstart "class " (by simp) h.2.2)]
  rfl

/-- A line that ends in another way. -/
theorem read?_of_last {text last : String} {c : Char} (hlast : last.toList.getLast? = some c)
    (hc : c ≠ '\x7b' ∧ c ≠ ':') (hhead : (text ++ last).toList.head? ≠ some '#') :
    read? (text ++ last) = none := by
  have hstart (first : String) (hfirst : first.toList.head? = some '#') :
      ¬ first.toList <+: (text ++ last).toList :=
    fun ⟨rest, hrest⟩ => hhead (by rw [← hrest, List.head?_append, hfirst]; rfl)
  have hend : (text ++ last).toList.getLast? = some c := by
    rw [String.toList_append, List.getLast?_append, hlast]
    rfl
  rw [read?, between?_eq_none (hstart "#ifndef " (by simp)),
    between?_eq_none (hstart "#define " (by simp)), if_neg (hstart "#endif" (by simp)),
    between?_eq_none_of_last (by rw [hend]; simpa using hc.1.symm) (by simp),
    between?_eq_none_of_last (by rw [hend]; simpa using hc.2.symm) (by simp)]
  rfl

@[simp] theorem read?_empty : read? "" = none := by
  decide +kernel

theorem read?_opens (name : String) : read? ("#ifndef " ++ name) = some (.opens name) := by
  have h := between?_append "#ifndef " "" name
  rw [String.append_empty] at h
  rw [read?, h]
  rfl

theorem read?_defines (name : String) : read? ("#define " ++ name) = some (.defines name) := by
  have h := between?_append "#define " "" name
  rw [String.append_empty] at h
  rw [read?, h, between?_eq_none (by simp)]
  rfl

theorem read?_closes (note : String) : read? ("#endif" ++ note) = some .closes := by
  rw [read?, between?_eq_none (by simp), between?_eq_none (by simp)]
  simp

theorem read?_record (name : String) :
    read? ("struct " ++ name ++ " \x7b") = some (.record name) := by
  rw [read?, between?_eq_none (by simp), between?_eq_none (by simp), between?_append]
  simp

theorem read?_component (name : String) :
    read? ("class " ++ name ++ " :") = some (.component name) := by
  rw [read?, between?_eq_none (by simp), between?_eq_none (by simp), between?_append,
    between?_eq_none (by simp)]
  simp

end Landmark

/-! ### Lines -/

section Lines

variable {α : Type} (read : String → Option α) {p : Profile}

@[simp] theorem readings_nil : readings read p [] = [] := rfl

@[simp] theorem readings_append (lines lines' : List Line) :
    readings read p (lines ++ lines') = readings read p lines ++ readings read p lines' := by
  rw [readings, contents_append, List.filterMap_append]
  rfl

@[simp] theorem readings_cons (l : Line) (lines : List Line) :
    readings read p (l :: lines) = (read (l.content.text p)).toList ++ readings read p lines := by
  rw [readings, contents, List.map_cons, List.filterMap_cons]
  cases read (l.content.text p) <;> rfl

@[simp] theorem readings_indent (lines : List Line) :
    readings read p (Line.indent lines) = readings read p lines := by
  rw [readings, contents_indent]
  rfl

@[simp] theorem readings_enclose (first last : Line) (lines : List Line) :
    readings read p (Line.enclose first lines last) =
      readings read p [first] ++ readings read p lines ++ readings read p [last] := by
  simp [Line.enclose]

theorem readings_flatMap {β : Type} (f : β → List Line) (xs : List β) :
    readings read p (xs.flatMap f) = xs.flatMap fun x => readings read p (f x) := by
  rw [readings, contents, List.map_flatMap, List.filterMap_flatMap]
  rfl

variable {read}

theorem readings_eq_nil {lines : List Line} (h : ∀ l ∈ lines, read (l.content.text p) = none) :
    readings read p lines = [] := by
  refine List.filterMap_eq_nil_iff.2 fun text htext => ?_
  obtain ⟨l, hl, rfl⟩ := List.mem_map.1 htext
  exact h l hl

@[simp] theorem text_code (text : String) : (Line.code text).content.text p = text := rfl

@[simp] theorem text_blank : Line.blank.content.text p = "" := rfl

@[simp] theorem text_note (text : String) : (Line.note text).content.text p = "// " ++ text := by
  simp [Line.note, LineContent.text, NoteMark.text]

theorem text_noted {code : String} (h : code ≠ "") (note : String) :
    (Line.noted code note).content.text p = code ++ " // " ++ note := by
  rw [Line.noted, LineContent.text_noted, if_neg h]
  simp [← String.toList_inj, NoteMark.text]

theorem readings_titled {title : String} (hblank : read "" = none)
    (htitle : read ("// " ++ title) = none) (lines : List Line) :
    readings read p (Header.titled title lines) = readings read p lines := by
  unfold Header.titled
  split
  · rfl
  · simp [hblank, htitle]

/-- Namespaces have no part in the outline. -/
@[simp] theorem landmarks_inNamespaces (namespaces : List String) (lines : List Line) :
    readings Landmark.read? p (inNamespaces namespaces lines) =
      readings Landmark.read? p lines := by
  induction namespaces with
  | nil => rfl
  | cons name namespaces ih =>
    have hopen : Landmark.read? ("namespace " ++ name ++ " \x7b") = none :=
      Landmark.read?_of_head (by simp)
    have hclose : Landmark.read? ((Line.noted "\x7d" ("end namespace " ++ name)).content.text p) =
        none := by
      rw [text_noted (by simp)]
      exact Landmark.read?_of_head (by simp)
    change readings Landmark.read? p (Line.enclose _ (inNamespaces namespaces lines) _) = _
    simp [hopen, hclose, ih]

end Lines

end Emitted

open Emitted

/-! ### Headers -/

/-- The macro under which a record type is declared. -/
def RecordType.includeGuard (r : RecordType) : String :=
  r.name.ident.toUpper ++ "_RECORD_DEFINED"

/-- The macro under which the class of a component is declared. -/
def Machine.includeGuard (m : Machine) : String :=
  m.component.ident.toUpper ++ "_COMPONENT_IMPL_HPP"

/-- A record type stands in a part of its own. -/
def RecordType.outline (r : RecordType) : List Landmark :=
  [.opens r.includeGuard, .defines r.includeGuard, .record r.name.ident, .closes]

/-- The class comes after the record types. -/
def Bundle.outline (b : Bundle) : List Landmark :=
  [Landmark.opens b.machine.includeGuard, .defines b.machine.includeGuard] ++
    b.records.flatMap (·.outline) ++ [Landmark.component b.className, .closes]

/-- All types and classes of the header are named by identifiers. -/
structure Bundle.Named (b : Bundle) : Prop where
  component : IsIdentifier b.machine.component.ident
  records : ∀ r ∈ b.records, IsIdentifier r.name.ident
  results : ∀ r ∈ b.routines, ∀ slot ∈ r.outputs, ∀ name, slot.type = .record name →
    IsIdentifier name

theorem IsName.head_ne {s : String} (h : IsName s) (rest : String) :
    (s ++ rest).toList.head? ≠ some '#' := by
  obtain ⟨c, cs, hs, hc, -⟩ := isName_iff.1 h
  have hne : c ≠ '#' := by
    rintro rfl
    exact absurd hc (by decide)
  simpa [hs] using hne

namespace Header

variable {p : Profile} {b : Bundle}

theorem landmarks_recordLines {r : RecordType} (h : IsIdentifier r.name.ident) :
    readings Landmark.read? p (recordLines r) = r.outline := by
  have hfields : readings Landmark.read? p (r.fields.map fun f =>
      Line.code (f.scalar.cppType ++ " " ++ f.name.ident ++ ";")) = [] := by
    refine readings_eq_nil fun l hl => ?_
    obtain ⟨f, -, rfl⟩ := List.mem_map.1 hl
    refine Landmark.read?_of_last (c := ';') (by simp) (by simp) ?_
    cases f.scalar <;> simp [Scalar.cppType]
  have hconstructor : Landmark.read? (recordConstructor r) = none := by
    unfold recordConstructor
    dsimp only
    split
    · exact Landmark.read?_of_last (c := '\x7d') (by simp) (by simp) (h.1.head_ne _)
    · refine Landmark.read?_of_last (c := '\x7d') (by simp) (by simp) ?_
      simp only [String.append_assoc]
      exact h.1.head_ne _
  have hend : Landmark.read? "\x7d;" = none := by decide +kernel
  have hclose : Landmark.read? ((Line.noted "#endif" r.includeGuard).content.text p) =
      some .closes := by
    rw [text_noted (by simp), String.append_assoc]
    exact Landmark.read?_closes _
  unfold recordLines RecordType.outline
  rw [← RecordType.includeGuard]
  simp [hfields, hconstructor, hend, hclose, Landmark.read?_opens, Landmark.read?_defines,
    Landmark.read?_record]

theorem landmarks_of_head {lines : List Line} (h : ∀ l ∈ lines,
    (l.content.text p).toList.head? ≠ some '#' ∧ (l.content.text p).toList.head? ≠ some 's' ∧
      (l.content.text p).toList.head? ≠ some 'c') : readings Landmark.read? p lines = [] :=
  readings_eq_nil fun l hl => Landmark.read?_of_head (h l hl)

theorem mem_separated {texts : List String} {l : Line} (h : l ∈ Line.separated texts) :
    ∃ text ∈ texts, l = .code text ∨ l = .code (text ++ ",") := by
  induction texts with
  | nil => cases h
  | cons text texts ih =>
    cases texts with
    | nil =>
      obtain rfl := List.mem_singleton.1 h
      exact ⟨text, List.mem_cons_self, .inl rfl⟩
    | cons text' texts =>
      obtain rfl | h := List.mem_cons.1 h
      · exact ⟨text, List.mem_cons_self, .inr rfl⟩
      · obtain ⟨other, hother, hl⟩ := ih h
        exact ⟨other, List.mem_cons_of_mem _ hother, hl⟩

theorem landmarks_publicLines (hb : b.Named) : readings Landmark.read? p (publicLines b) = [] := by
  have hclass : Landmark.read? (b.className ++ "(const char* const compName);") = none := by
    refine Landmark.read?_of_last (c := ';') (by simp) (by simp) ?_
    rw [Bundle.className, String.append_assoc]
    exact hb.component.1.head_ne _
  have hfixed : readings Landmark.read? p [.code ("~" ++ b.className ++ "();"), .blank,
      .code "void initializeStateMachine();", .code "void processStateMachine();",
      .code "void schedIn_handler(const NATIVE_INT_TYPE portNum, NATIVE_UINT_TYPE context);",
      .blank, .note "Command handlers"] = [] := by
    refine landmarks_of_head ?_
    simp
  have hcommands : readings Landmark.read? p (b.machine.commands.flatMap handlerLines) = [] := by
    refine landmarks_of_head fun l hl => ?_
    obtain ⟨command, -, hl⟩ := List.mem_flatMap.1 hl
    simp only [handlerLines, handlerParameters, List.mem_append, List.mem_cons, List.not_mem_nil,
      or_false] at hl
    obtain (rfl | rfl | rfl) | rfl := hl <;> simp
  rw [publicLines, readings_append, readings_cons, text_code, hclass, hfixed, hcommands]
  rfl

theorem head_signature (hb : b.Named) {r : Routine} (hr : r ∈ b.routines) (rest : String) :
    (r.signature "" ++ rest).toList.head? ≠ some '#' := by
  simp only [Routine.signature, String.append_assoc]
  cases houtput : r.outputs.head? with
  | none => simp
  | some slot =>
    rw [Option.map_some, Option.getD_some]
    cases htype : slot.type with
    | scalar s => cases s <;> simp [DataType.cppType, Scalar.cppType]
    | record name =>
      exact (hb.results r hr slot (List.mem_of_mem_head? houtput) name htype).1.head_ne _

theorem landmarks_privateLines (hb : b.Named) :
    readings Landmark.read? p (privateLines p b) = [] := by
  have hstates : readings Landmark.read? p (stateLines b.machine) = [] := by
    refine landmarks_of_head fun l hl => ?_
    simp only [stateLines, Line.enclose, Line.indent, List.mem_append, List.mem_cons, List.mem_map,
      List.not_mem_nil, or_false] at hl
    obtain (rfl | ⟨l, hl, rfl⟩) | rfl := hl
    · simp
    · obtain ⟨text, htext, hl⟩ := mem_separated hl
      obtain ⟨s, -, rfl⟩ := List.mem_map.1 htext
      obtain rfl | rfl := hl <;> simp [Machine.State.constant]
    · simp
  have hmembers : readings Landmark.read? p (memberLines b.machine) = [] := by
    refine landmarks_of_head fun l hl => ?_
    simp only [memberLines, List.mem_append, List.mem_cons, List.mem_map, List.not_mem_nil,
      or_false] at hl
    obtain (rfl | rfl) | ⟨a, -, rfl⟩ := hl
    · simp
    · simp
    · cases a.scalar <;> simp [Scalar.cppType]
  have htransition :
      Landmark.read? "void transitionToState(StateMachineStates newState);" = none := by
    decide +kernel
  have hname : Landmark.read? "const char* getStateName(StateMachineStates state);" = none := by
    decide +kernel
  have hguards : readings Landmark.read? p (b.machine.guards.map fun g =>
      Line.noted ("bool " ++ g.method ++ "();") g.source) = [] := by
    refine landmarks_of_head fun l hl => ?_
    obtain ⟨g, -, rfl⟩ := List.mem_map.1 hl
    rw [text_noted (by simp [← String.toList_inj])]
    simp
  have hroutines : readings Landmark.read? p
      (b.routines.map fun r => Line.code (r.signature "" ++ ";")) = [] := by
    refine readings_eq_nil fun l hl => ?_
    obtain ⟨r, hr, rfl⟩ := List.mem_map.1 hl
    exact Landmark.read?_of_last (c := ';') (by simp) (by simp) (head_signature hb hr _)
  have hsupport : readings Landmark.read? p (p.supportDeclarations.map Line.code) = [] := by
    cases p <;> decide +kernel
  have htitle (title : String) : Landmark.read? ("// " ++ title) = none :=
    Landmark.read?_of_head (by simp)
  simp [privateLines, hstates, hmembers, htransition, hname,
    readings_titled Landmark.read?_empty (htitle _), hguards, hroutines, hsupport]

theorem landmarks_classLines (hb : b.Named) :
    readings Landmark.read? p (classLines p b) = [.component b.className] := by
  have hbase : Landmark.read? ("  public " ++ b.baseName) = none :=
    Landmark.read?_of_head (by simp)
  have hopen : Landmark.read? "\x7b" = none := by decide +kernel
  have hpublic : Landmark.read? "public:" = none := by decide +kernel
  have hprivate : Landmark.read? "private:" = none := by decide +kernel
  have hclose : Landmark.read? "\x7d;" = none := by decide +kernel
  simp [classLines, landmarks_publicLines hb, landmarks_privateLines hb,
    Landmark.read?_component, hbase, hopen, hpublic, hprivate, hclose]

/-- The outline of a header is read back from its lines. -/
theorem landmarks_lines (hb : b.Named) :
    readings Landmark.read? p (lines p b) = b.outline := by
  have htitle : readings Landmark.read? p (titleLines b.machine) = [] := by
    refine landmarks_of_head ?_
    simp [titleLines]
  have hinclude : Landmark.read?
      ("#include \"" ++ b.machine.component.ident ++ "ComponentAc.hpp\"") = none := by
    rw [Landmark.read?, between?_eq_none (by simp), between?_eq_none (by simp),
      if_neg (by simp), between?_eq_none (by simp), between?_eq_none (by simp)]
    rfl
  have hclose : Landmark.read? ((Line.noted "#endif" b.machine.includeGuard).content.text p) =
      some .closes := by
    rw [text_noted (by simp), String.append_assoc]
    exact Landmark.read?_closes _
  have hrecords : readings Landmark.read? p
      (b.records.flatMap fun r => recordLines r ++ [Line.blank]) =
        b.records.flatMap (·.outline) := by
    rw [readings_flatMap]
    refine List.flatMap_congr fun r hr => ?_
    simp [landmarks_recordLines (hb.records r hr)]
  unfold lines Bundle.outline
  rw [← Machine.includeGuard]
  simp [htitle, hinclude, hrecords, landmarks_classLines hb, hclose, Landmark.read?_opens,
    Landmark.read?_defines]

end Header

end FlightGen
