import FlightGen.Proofs.Artifact.Emission
import FlightGen.Proofs.Artifact.Plain

/-! The words of a model show in comments alone. Components with the same identifiers, structure and
guard conditions, whose activities compile to the same steps, have files with as many lines, which
are the same up to what follows the mark of a comment. -/

namespace FlightGen

/-! ### Texts -/

/-- Lines that are the same up to what follows a mark. -/
inductive SameUpTo (mark : NoteMark) : String → String → Prop
  | same (text : String) : SameUpTo mark text text
  | noted (before words words' : String) :
      SameUpTo mark (before ++ mark.text ++ words) (before ++ mark.text ++ words')

namespace Text

/-- Texts with as many lines, which are the same up to what follows a mark. -/
def SameLines (mark : NoteMark) (text text' : String) : Prop :=
  ∃ lines lines', Consists text lines ∧ Consists text' lines' ∧
    List.Forall₂ (SameUpTo mark) lines lines'

variable {mark : NoteMark}

theorem SameLines.refl {text : String} {lines : List String} (h : Consists text lines) :
    SameLines mark text text :=
  ⟨lines, lines, h, h, List.forall₂_same.2 fun line _ => .same line⟩

theorem SameLines.append {s s' t t' : String} (h : SameLines mark s s') (h' : SameLines mark t t') :
    SameLines mark (s ++ t) (s' ++ t') := by
  obtain ⟨lines, lines', hs, hs', hsame⟩ := h
  obtain ⟨more, more', ht, ht', hsame'⟩ := h'
  exact ⟨lines ++ more, lines' ++ more', hs.append ht, hs'.append ht', List.rel_append hsame hsame'⟩

theorem Consists.count_eq {text : String} {lines : List String} (h : Consists text lines) :
    text.toList.count '\n' = lines.length := by
  obtain ⟨rfl, hsingle⟩ := h
  induction lines with
  | nil => rfl
  | cons line lines ih =>
    obtain ⟨hline, hlines⟩ := List.forall_mem_cons.1 hsingle
    have hcons : unlines (line :: lines) = line ++ "\n" ++ unlines lines := by simp [unlines]
    have hnewline : ("\n".toList).count '\n' = 1 := by decide
    rw [hcons, String.toList_append, String.toList_append, List.count_append, List.count_append,
      List.count_eq_zero.2 hline, hnewline, ih hlines, List.length_cons]
    omega

theorem SameLines.count_eq {text text' : String} (h : SameLines mark text text') :
    text.toList.count '\n' = text'.toList.count '\n' := by
  obtain ⟨lines, lines', htext, htext', hsame⟩ := h
  rw [htext.count_eq, htext'.count_eq, hsame.length_eq]

/-- A text is a number of lines and the start of another one. -/
theorem exists_start (text : String) : ∃ lines last, text = unlines lines ++ last ∧
    (∀ line ∈ lines, '\n' ∉ line.toList) ∧ '\n' ∉ last.toList := by
  obtain ⟨lines, htext, hsingle⟩ := exists_consists text
  obtain rfl | ⟨lines, last, rfl⟩ := lines.eq_nil_or_concat
  · have hlength := congrArg (·.toList.length) htext
    simp [unlines] at hlength
  · rw [List.concat_eq_append] at htext hsingle
    obtain ⟨hlines, hlast⟩ := List.forall_mem_append.1 hsingle
    refine ⟨lines, last, ?_, hlines, hlast last (List.mem_singleton_self last)⟩
    have hone : unlines [last] = last ++ "\n" := by simp [unlines]
    rw [unlines_append, hone, ← String.append_assoc] at htext
    exact (String.append_left_inj _).1 htext

/-- What follows a mark to the end of the line is of no account. -/
theorem SameLines.noted (start : String) {words words' : String} (h : '\n' ∉ words.toList)
    (h' : '\n' ∉ words'.toList) : SameLines mark (start ++ mark.text ++ " " ++ words ++ "\n")
      (start ++ mark.text ++ " " ++ words' ++ "\n") := by
  obtain ⟨lines, last, hstart, hlines, hlast⟩ := exists_start start
  have hmark : '\n' ∉ (mark.text ++ " ").toList := by cases mark <;> decide
  have hconsists {words : String} (h : '\n' ∉ words.toList) :
      Consists (start ++ mark.text ++ " " ++ words ++ "\n")
        (lines ++ [last ++ mark.text ++ (" " ++ words)]) := by
    refine ⟨?_, List.forall_mem_append.2 ⟨hlines, ?_⟩⟩
    · rw [hstart, unlines_append]
      simp [unlines, String.append_assoc]
    · rw [List.forall_mem_singleton]
      simp only [notMem_append] at hmark ⊢
      exact ⟨⟨hlast, hmark.1⟩, hmark.2, h⟩
  refine ⟨_, _, hconsists h, hconsists h', List.rel_append ?_ (.cons (.noted _ _ _) .nil)⟩
  exact List.forall₂_same.2 fun line _ => .same line

end Text

namespace Line

variable {mark : NoteMark} {l l' : Line}

theorem plain_cases (mark : NoteMark) (l : Line) : l.plain mark = l ∨ ∃ depth code words,
    l = ⟨depth, .noted code mark words⟩ ∧ '\n' ∉ words.toList ∧
      l.plain mark = ⟨depth, .noted code mark ""⟩ := by
  obtain ⟨depth, content⟩ := l
  cases content with
  | code | effect => exact .inl rfl
  | noted code mark' words =>
    by_cases h : mark' = mark ∧ '\n' ∉ words.toList
    · obtain ⟨rfl, hwords⟩ := h
      exact .inr ⟨depth, code, words, rfl, hwords, if_pos ⟨rfl, hwords⟩⟩
    · exact .inl (if_neg h)

theorem plain_eq (h : l.plain mark = l'.plain mark) : l = l' ∨ ∃ depth code words words',
    l = ⟨depth, .noted code mark words⟩ ∧ l' = ⟨depth, .noted code mark words'⟩ ∧
      '\n' ∉ words.toList ∧ '\n' ∉ words'.toList := by
  obtain hl | ⟨depth, code, words, rfl, hwords, hplain⟩ := plain_cases mark l
  · obtain hl' | ⟨depth, code, words, rfl, hwords, hplain⟩ := plain_cases mark l'
    · exact .inl (hl.symm.trans (h.trans hl'))
    · exact .inr ⟨depth, code, "", words, hl.symm.trans (h.trans hplain), rfl, notMem_empty, hwords⟩
  · obtain hl' | ⟨depth', code', words', rfl, hwords', hplain'⟩ := plain_cases mark l'
    · exact .inr ⟨depth, code, words, "", rfl, hl'.symm.trans (h.symm.trans hplain), hwords,
        notMem_empty⟩
    · cases hplain.symm.trans (h.trans hplain')
      exact .inr ⟨depth, code, words, words', rfl, rfl, hwords, hwords'⟩

theorem text_eq_noted (p : Profile) (depth : Nat) (code words : String) :
    (Line.mk depth (.noted code mark words)).text p =
      spaces (2 * depth) ++ (if code = "" then "" else code ++ " ") ++ mark.text ++ " " ++
        words := by
  have hne : (LineContent.noted code mark words).text p ≠ "" := by
    rw [LineContent.text_noted]
    intro hempty
    have hlength := congrArg (·.toList.length) hempty
    simp at hlength
  unfold Line.text
  split
  · contradiction
  · rw [LineContent.text_noted]
    simp [String.append_assoc]

theorem sameLines_line (h : l.plain mark = l'.plain mark) (p : Profile) :
    Text.SameLines mark (l.text p ++ "\n") (l'.text p ++ "\n") := by
  obtain rfl | ⟨depth, code, words, words', rfl, rfl, hwords, hwords'⟩ := plain_eq h
  · obtain ⟨lines, hlines⟩ := Text.exists_consists (l.text p)
    exact .refl hlines
  · rw [text_eq_noted, text_eq_noted]
    exact .noted _ hwords hwords'

/-- Lines that are the same with notes erased make texts that are the same up to comments. -/
theorem sameLines_render {lines lines' : List Line}
    (h : lines.map (plain mark) = lines'.map (plain mark)) (p : Profile) :
    Text.SameLines mark (render p lines) (render p lines') := by
  have hcons (l : Line) (lines : List Line) :
      render p (l :: lines) = l.text p ++ "\n" ++ render p lines := by
    simp [render]
  induction lines generalizing lines' with
  | nil =>
    obtain rfl := List.map_eq_nil_iff.1 h.symm
    exact .refl ⟨rfl, List.forall_mem_nil _⟩
  | cons l lines ih =>
    obtain ⟨l', rest, rfl, hl, hrest⟩ := List.map_eq_cons_iff.1 h.symm
    rw [hcons, hcons]
    exact (sameLines_line hl.symm p).append (ih hrest.symm)

end Line

/-! ### Components -/

def Guard.plain (g : Guard) : Guard :=
  { g with source := "" }

def Transition.plain (t : Transition) : Transition :=
  { t with guard := t.guard.map (·.plain) }

namespace Component

/-- A component without the words of its model. Of the activities only the identifiers are left,
since their routines say what they do. -/
def plain (c : Component) : Component where
  name := c.name.plain
  machine := c.machine.plain
  states := c.states.map fun s => { s with name := s.name.plain }
  initial := c.initial
  transitions := c.transitions.map (·.plain)
  activities := c.activities.map fun a => ⟨a.name.plain, [], []⟩
  attributes := c.attributes.map fun a => { a with name := a.name.plain }
  commands := c.commands.map fun d => { d with kind := d.kind.plain }

/-- The words of the model that the files of a component show beside those of its routines. -/
def words (c : Component) : List String :=
  [c.name.raw] ++ c.states.map (·.name.raw) ++ (c.transitions.filterMap (·.guard)).map (·.source) ++
    c.commands.filterMap (·.kind.signal?)

variable (c : Component)

theorem activityIdent_plain (index : Nat) :
    c.plain.activityIdent index = c.activityIdent index := by
  rw [activityIdent, activityIdent, plain, List.getElem?_map, Option.map_map]
  rfl

theorem qualified_plain (index : Nat) : c.plain.qualified index = c.qualified index := by
  rw [qualified, activityIdent_plain, qualified]
  rfl

theorem activityRef_plain (index : Nat) : c.plain.activityRef index = c.activityRef index := by
  rw [activityRef, activityRef, qualified_plain, activityIdent_plain]

theorem numberGuards_plain (next : Nat) (ts : List Transition) :
    numberGuards next (ts.map (·.plain)) = numberGuards next ts := by
  induction ts generalizing next with
  | nil => rfl
  | cons t ts ih =>
    obtain ⟨source, target, guard, trigger⟩ := t
    cases guard with
    | none => exact congrArg (_ :: ·) (ih next)
    | some g => exact congrArg (_ :: ·) (ih (next + 1))

theorem leaving_plain (state : Nat) (trigger : Option Nat) :
    c.plain.leaving state trigger = c.leaving state trigger := by
  have htransitions : c.plain.transitions = c.transitions.map (·.plain) := rfl
  rw [leaving, htransitions, List.zipIdx_map, List.filter_map, List.map_map]
  rfl

theorem machineGuards_plain : c.plain.machineGuards = c.machineGuards.map (·.plain) := by
  have hguards : c.plain.transitions.filterMap (·.guard) =
      (c.transitions.filterMap (·.guard)).map (·.plain) := by
    rw [plain, List.filterMap_map, List.map_filterMap]
    rfl
  rw [machineGuards, hguards, List.zipIdx_map, List.map_map, machineGuards, List.map_map]
  rfl

theorem machineCommand_plain (index : Nat) (d : Command) :
    c.plain.machineCommand index { d with kind := d.kind.plain } =
      (c.machineCommand index d).plain := by
  have harms : c.plain.commandArms index = c.commandArms index := by
    have hstates : c.plain.states.length = c.states.length := List.length_map _
    simp only [commandArms, leaving_plain, hstates]
  obtain ⟨mnemonic, kind⟩ := d
  cases kind with
  | start | stop => rfl
  | trigger signal => exact congrArg (Machine.Command.mk mnemonic (.trigger "")) harms

theorem commands_synthesize : c.synthesize.commands =
    c.commands.zipIdx.map fun p => c.machineCommand p.2 p.1 :=
  rfl

/-- Synthesis works on what is left. -/
theorem synthesize_plain : c.plain.synthesize = c.synthesize.plain := by
  have hrefs (activities : List Nat) :
      activities.map c.plain.activityRef = activities.map c.activityRef :=
    List.map_congr_left fun i _ => c.activityRef_plain i
  have hstates : c.plain.machineStates = c.machineStates.map (·.plain) := by
    have hlist : c.plain.states = c.states.map fun s => { s with name := s.name.plain } := rfl
    rw [machineStates, hlist, List.zipIdx_map, List.map_map, machineStates, List.map_map]
    exact List.map_congr_left fun p _ => by simp only [Function.comp_apply, Prod.map, hrefs]; rfl
  have harms : c.plain.machineArms = c.machineArms := by
    have hlist : c.plain.states = c.states.map fun s => { s with name := s.name.plain } := rfl
    rw [machineArms, hlist, List.zipIdx_map, List.map_map, machineArms]
    exact List.map_congr_left fun p _ => by
      simp only [Function.comp_apply, Prod.map, hrefs, leaving_plain]
      rfl
  have hcommands : c.plain.synthesize.commands = c.synthesize.commands.map (·.plain) := by
    have hlist : c.plain.commands = c.commands.map fun d => { d with kind := d.kind.plain } := rfl
    rw [commands_synthesize, commands_synthesize, hlist, List.zipIdx_map, List.map_map,
      List.map_map]
    exact List.map_congr_left fun p _ => c.machineCommand_plain p.2 p.1
  have hattributes : c.plain.synthesize.attributes = c.synthesize.attributes := by
    show (c.attributes.map _).map _ = c.attributes.map _
    rw [List.map_map]
    rfl
  unfold synthesize Machine.plain
  rw [Machine.mk.injEq]
  exact ⟨rfl, rfl, hstates, rfl, numberGuards_plain 0 c.transitions, c.machineGuards_plain, harms,
    hcommands, hattributes⟩

theorem words_synthesize : c.synthesize.words = c.words := by
  -- Tables number the entries of a list and keep their words.
  have hkeeps {α β : Type} {f : α × Nat → β} {g : β → String} {h : α → String}
      (hf : ∀ p, g (f p) = h p.1) (xs : List α) : (xs.zipIdx.map f).map g = xs.map h := by
    conv_rhs => rw [← List.zipIdx_map_fst 0 xs, List.map_map]
    rw [List.map_map]
    exact List.map_congr_left fun p _ => hf p
  have hstates : c.synthesize.states.map (·.name.raw) = c.states.map (·.name.raw) := by
    refine hkeeps (fun p => ?_) c.states
    rfl
  have hguards : c.synthesize.guards.map (·.source) =
      (c.transitions.filterMap (·.guard)).map (·.source) := by
    refine hkeeps (fun p => ?_) (c.transitions.filterMap (·.guard))
    rfl
  have hkind (index : Nat) (d : Command) : (c.machineCommand index d).kind = d.kind := by
    unfold machineCommand
    split <;> rfl
  have hsignals : c.synthesize.commands.filterMap (·.kind.signal?) =
      c.commands.filterMap (·.kind.signal?) := by
    conv_rhs => rw [← List.zipIdx_map_fst 0 c.commands, List.filterMap_map]
    rw [commands_synthesize, List.filterMap_map]
    exact List.filterMap_congr fun p _ => by simp only [Function.comp_apply, hkind]
  rw [Machine.words, hstates, hguards, hsignals]
  rfl

end Component

/-! ### Routines -/

namespace Library

def plainEntry (e : String × Routine) : String × Routine :=
  (e.1, e.2.plain)

def plain (l : Library) : Library :=
  ⟨l.entries.map plainEntry⟩

variable (l : Library)

theorem find?_plain (name : String) : l.plain.find? name = (l.find? name).map (·.plain) := by
  obtain ⟨entries⟩ := l
  rw [find?, plain, find?]
  induction entries with
  | nil => rfl
  | cons e entries ih =>
    rw [List.map_cons, List.lookup_cons, List.lookup_cons, ih, plainEntry]
    cases name == e.1 <;> rfl

theorem closeWithin_plain (count : Nat) (seen : List (String × Routine)) (pending : List String) :
    l.plain.closeWithin count (seen.map plainEntry) pending =
      (l.closeWithin count seen pending).map (List.map plainEntry) := by
  have hseen (seen : List (String × Routine)) :
      (seen.map plainEntry).map (·.1) = seen.map (·.1) := by
    rw [List.map_map]
    rfl
  induction count generalizing seen pending with
  | zero => cases pending <;> rfl
  | succ count ih =>
    cases pending with
    | nil => rfl
    | cons name pending =>
      rw [closeWithin, closeWithin, hseen, find?_plain]
      split
      · exact ih seen pending
      · cases hr : l.find? name with
        | none => rfl
        | some r =>
          have hcalls := r.calls_plain
          simp only [Option.map_some, hcalls]
          exact ih ((name, r) :: seen) _

theorem callCount_plain : l.plain.callCount = l.callCount := by
  rw [callCount, plain, List.foldl_map, callCount]
  rfl

theorem reachable_plain (names : List String) :
    l.plain.reachable names = (l.reachable names).map (List.map (·.plain)) := by
  have hsort (entries : List (String × Routine)) :
      sortEntries (entries.map plainEntry) = (sortEntries entries).map plainEntry :=
    (List.map_mergeSort (f := plainEntry) fun _ _ _ _ => rfl).symm
  have hclose := l.closeWithin_plain (names.length + l.callCount) [] names.reverse
  rw [List.map_nil] at hclose
  rw [reachable, callCount_plain, hclose, reachable]
  cases l.closeWithin (names.length + l.callCount) [] names.reverse with
  | error name => rfl
  | ok entries =>
    refine congrArg Except.ok ?_
    rw [hsort, List.map_map, List.map_map]
    rfl

end Library

/-! ### Bundles -/

namespace Bundle

variable {path : String} {m m' : Machine} {l l' : Library} {records records' : List RecordType}
  {b b' : Bundle}

/-- The record types that some routines use, without words. -/
theorem map_plain_filter (routines : List Routine) (records : List RecordType) :
    (records.filter (·.name.ident ∈ routines.flatMap (·.recordNames))).map (·.plain) =
      (records.map (·.plain)).filter
        (·.name.ident ∈ (routines.map (·.plain)).flatMap (·.recordNames)) := by
  simp only [List.filter_map, List.flatMap_map, Routine.recordNames_plain]
  rfl

/-- Where one component is emitted, so is another one that is the same without words. -/
theorem Collected.exists_plain_eq (h : Collected path m l records b) (hm : m.plain = m'.plain)
    (hrecords : records.map (·.plain) = records'.map (·.plain))
    (hl : l.plain.reachable m.referenced = l'.plain.reachable m.referenced) :
    ∃ b', Collected path m' l' records' b' ∧ b.plain = b'.plain := by
  have hreferenced : m'.referenced = m.referenced := by
    rw [← m'.referenced_plain, ← hm, m.referenced_plain]
  rw [l.reachable_plain, l'.reachable_plain, h.reached] at hl
  obtain ⟨routines, hreached, hroutines⟩ : ∃ routines, l'.reachable m.referenced = .ok routines ∧
      b.routines.map (·.plain) = routines.map (·.plain) := by
    cases hreached : l'.reachable m.referenced with
    | error name =>
      rw [hreached] at hl
      cases hl
    | ok routines =>
      rw [hreached] at hl
      exact ⟨routines, rfl, Except.ok.inj hl⟩
  refine ⟨⟨m', routines, records'.filter (·.name.ident ∈ routines.flatMap (·.recordNames)),
    Identifier.segments path⟩, ⟨h.valid, rfl, rfl, hreferenced ▸ hreached, fun r hr => ?_, rfl⟩, ?_⟩
  · have hmem : r.plain ∈ b.routines.map (·.plain) := hroutines ▸ List.mem_map_of_mem hr
    obtain ⟨r', hr', hplain⟩ := List.mem_map.1 hmem
    rw [← r.length_outputs_plain, ← hplain, r'.length_outputs_plain]
    exact h.outputs r' hr'
  · unfold plain
    rw [h.machine, h.namespaces, h.records, map_plain_filter, map_plain_filter, hroutines, hm,
      hrecords]

end Bundle

/-! ### Files -/

/-- Files of one name whose lines are the same up to what follows a mark. -/
structure SourceFile.Alike (mark : NoteMark) (f f' : SourceFile) : Prop where
  name : f.name = f'.name
  text : Text.SameLines mark f.text f'.text

/-- Files that are the same up to their comments. -/
structure Artifacts.Alike (a a' : Artifacts) : Prop where
  component : a.component = a'.component
  header : a.header.Alike .slashes a'.header
  implementation : a.implementation.Alike .slashes a'.implementation
  componentModel : Option.Rel (SourceFile.Alike .atSign) a.componentModel a'.componentModel

/-- A file of rendered lines. -/
theorem SourceFile.alike_render {mark : NoteMark} {lines lines' : List Line}
    (h : lines.map (Line.plain mark) = lines'.map (Line.plain mark)) (name : String) (p : Profile) :
    SourceFile.Alike mark ⟨name, Line.render p lines⟩ ⟨name, Line.render p lines'⟩ :=
  ⟨rfl, Line.sameLines_render h p⟩

namespace Bundle

variable {b b' : Bundle} (hb : b.WordsFit) (hb' : b'.WordsFit) (h : b.plain = b'.plain)
  (p : Profile)

include hb hb' h

theorem headerFile_alike : (b.headerFile p).Alike .slashes (b'.headerFile p) := by
  have hclass : b.className = b'.className := congrArg (·.className) h
  have hlines : (Header.lines p b).map (Line.plain .slashes) =
      (Header.lines p b').map (Line.plain .slashes) := by
    rw [Header.map_plain_lines hb, h, Header.map_plain_lines hb']
  rw [headerFile, headerFile, hclass]
  exact SourceFile.alike_render hlines _ p

theorem implementationFile_alike :
    (b.implementationFile p).Alike .slashes (b'.implementationFile p) := by
  have hclass : b.className = b'.className := congrArg (·.className) h
  have hlines : (Implementation.lines p b).map (Line.plain .slashes) =
      (Implementation.lines p b').map (Line.plain .slashes) := by
    rw [Implementation.map_plain_lines hb, h, Implementation.map_plain_lines hb']
  rw [implementationFile, implementationFile, hclass]
  exact SourceFile.alike_render hlines _ p

theorem componentModelFile_alike (hname : '\n' ∉ b.machine.name.toList) :
    (b.componentModelFile p).Alike .atSign (b'.componentModelFile p) := by
  have hident : b.machine.component.ident = b'.machine.component.ident :=
    congrArg (·.machine.component.ident) h
  have hname' : '\n' ∉ b'.machine.name.toList := by
    have hnames : b.machine.name = b'.machine.name := congrArg (·.machine.name) h
    rwa [← hnames]
  have hlines : (Fpp.lines b).map (Line.plain .atSign) =
      (Fpp.lines b').map (Line.plain .atSign) := by
    rw [Fpp.map_plain_lines (Machine.forall_words.1 hb.machine).1 hname, h,
      Fpp.map_plain_lines (Machine.forall_words.1 hb'.machine).1 hname']
  rw [componentModelFile, componentModelFile, hident]
  exact SourceFile.alike_render hlines _ p

end Bundle

/-! ### Components of two models -/

/-- Components with the same identifiers, structure and guard conditions, whose activities compile
to the same steps. -/
structure Component.SameStructure (c c' : Component) (l l' : Library)
    (records records' : List RecordType) : Prop where
  component : c.plain = c'.plain
  records : records.map (·.plain) = records'.map (·.plain)
  routines : ∀ i < c.activities.length,
    (l.find? (c.qualified i)).map (·.plain) = (l'.find? (c'.qualified i)).map (·.plain)

/-- No text that the files of a component show has a newline. -/
structure Component.SingleWords (c : Component) (l : Library) : Prop where
  component : ∀ text ∈ c.words, '\n' ∉ text.toList
  routines : ∀ name, l.LeadsTo c.synthesize.referenced name → ∀ r, l.find? name = some r →
    ∀ text ∈ r.words, '\n' ∉ text.toList

namespace Component.SameStructure

variable {m m' : Model} {c c' : Component} {s s' : Compilation}

theorem machine {l l' : Library} {records records' : List RecordType}
    (h : c.SameStructure c' l l' records records') : c.synthesize.plain = c'.synthesize.plain := by
  rw [← c.synthesize_plain, h.component, c'.synthesize_plain]

theorem symm {l l' : Library} {records records' : List RecordType}
    (h : c.SameStructure c' l l' records records') : c'.SameStructure c l' l records' records := by
  have hlength : c'.activities.length = c.activities.length := by
    have hlengths := congrArg (·.activities.length) h.component.symm
    simpa [Component.plain] using hlengths
  exact ⟨h.component.symm, h.records.symm, fun i hi => (h.routines i (hlength ▸ hi)).symm⟩

/-- Calls lead to the same routines, up to their words. -/
theorem reachable_eq (h : c.SameStructure c' s.library s'.library m.recordTypes m'.recordTypes)
    (hm : m.Resolved) (hc : c ∈ m.components) (hs : s.Of m)
    (hrequests : ∀ i ∈ c.stateActivities, i < c.activities.length) :
    s.library.plain.reachable c.synthesize.referenced =
      s'.library.plain.reachable c.synthesize.referenced := by
  refine Library.reachable_congr (P := s.library.LeadsTo c.synthesize.referenced)
    (fun name hname => ?_) (fun name r' hname hr' name' hname' => ?_) fun name => .self
  · obtain ⟨i, hi, rfl⟩ := hs.exists_index hm hc hrequests hname
    have hqualified : c'.qualified i = c.qualified i := by
      rw [← c'.qualified_plain, ← h.component, c.qualified_plain]
    rw [Library.find?_plain, Library.find?_plain, h.routines i hi, hqualified]
  · rw [Library.find?_plain] at hr'
    obtain ⟨r, hr, rfl⟩ := Option.map_eq_some_iff.1 hr'
    exact hname.call hr (r.calls_plain ▸ hname')

end Component.SameStructure

theorem Bundle.Collected.wordsFit {m : Model} {c : Component} {s : Compilation} {path : String}
    {b : Bundle} (hb : Collected path c.synthesize s.library m.recordTypes b) (hs : s.Of m)
    (h : c.SingleWords s.library) : b.WordsFit := by
  refine ⟨?_, fun r hr => ?_⟩
  · rw [hb.machine, c.words_synthesize]
    exact h.component
  · obtain ⟨hleads, hfind⟩ := ((hs.reachable_eq_ok hb.reached).2.1 r).1 hr
    exact h.routines r.qualified hleads r hfind

theorem ModelStages.notMem_machine {d : Definition} {m : Model} (S : ModelStages d m)
    {c : Component} (hc : c ∈ m.components) : '\n' ∉ c.machine.ident.toList := by
  obtain ⟨d, -, ⟨R⟩⟩ := exists_of_forall₂ S.componentRuns.flip hc
  have hident := R.rendered_after.isIdentifier (NameTable.lookup_assign R.stages.machine_eq)
  exact hident.1.notMem rfl

/-! ### Newlines -/

/-- The component by another name, with the same identifier. -/
def Bundle.renamed (b : Bundle) (raw : String) : Bundle :=
  { b with machine.component.raw := raw }

/-- The name of a component stands in one line of its header. -/
theorem Header.exists_lines_renamed (p : Profile) (b : Bundle) : ∃ before after, ∀ raw,
    lines p (b.renamed raw) = before ++ [Line.note ("Component: " ++ raw)] ++ after := by
  refine ⟨(lines p b).take 3, (lines p b).drop 4, fun raw => ?_⟩
  rfl

/-- Each newline in the name of a component makes another line. -/
theorem Bundle.exists_count_header (p : Profile) (b : Bundle) : ∃ n, ∀ raw,
    ((b.renamed raw).headerFile p).text.toList.count '\n' = n + raw.toList.count '\n' := by
  obtain ⟨before, after, hlines⟩ := Header.exists_lines_renamed p b
  refine ⟨(Line.render p before).toList.count '\n' + 1 +
    (Line.render p after).toList.count '\n', fun raw => ?_⟩
  have hnote : Line.render p [Line.note ("Component: " ++ raw)] =
      "// Component: " ++ raw ++ "\n" := by
    have htext : (Line.note ("Component: " ++ raw)).text p = "// Component: " ++ raw := by
      rw [Line.note, Line.text_eq_noted]
      simp [← String.toList_inj, Line.spaces, NoteMark.text]
    simp [Line.render, htext]
  have hfixed : "// Component: ".toList.count '\n' = 0 ∧ "\n".toList.count '\n' = 1 := by decide
  rw [headerFile, hlines, Line.render_append, Line.render_append, hnote]
  simp only [String.toList_append, List.count_append, hfixed]
  omega

/-! ### A sample of words -/

namespace Sample

/-- A sign with one state, in which it blinks. -/
def signDefinition (component state signal source activity node : String) : Definition where
  recordTypes := []
  components := [{
    name := component
    attributes := [⟨"level", .bool⟩]
    machine := ⟨"Cycle", state, [⟨state, [activity]⟩], [⟨state, state, some source, some signal⟩]⟩
    activities := [⟨activity, [⟨node, none, .fork []⟩], []⟩] }]

def sign (component state signal source activity node : String) : Component where
  name := ⟨component, "Sign_One"⟩
  machine := ⟨"Cycle", "Cycle"⟩
  states := [⟨⟨state, "Stand_by"⟩, [0]⟩]
  initial := 0
  transitions := [⟨0, 0, some ⟨source, .var "level"⟩, some 2⟩]
  activities := [⟨⟨activity, "Blink_it"⟩, [⟨node, "n_1", .fork []⟩], []⟩]
  attributes := [⟨⟨"level", "level"⟩, .bool⟩]
  commands := lifecycleCommands ++ [⟨"GO_ON", .trigger signal⟩]

def firstSign : Component :=
  sign "Sign One" "Stand by" "Go on" "level" "Blink it" "n 1"

def secondSign : Component :=
  sign "Sign-One" "Stand.by" "Go/on" " level " "Blink+it" "n-1"

def signModel (c : Component) : Model :=
  ⟨[], [c]⟩

def signCompiled (c : Component) : Compilation :=
  (compileActivities (signModel c) c {} c.stateActivities).2

theorem of_signCompiled (c : Component) : (signCompiled c).Of (signModel c) :=
  compileActivities_of .start (List.mem_singleton_self c)

theorem build_signs :
    Model.build (signDefinition "Sign One" "Stand by" "Go on" "level" "Blink it" "n 1") =
      .ok (signModel firstSign) ∧
    Model.build (signDefinition "Sign-One" "Stand.by" "Go/on" " level " "Blink+it" "n-1") =
      .ok (signModel secondSign) := by
  decide +kernel

def signRoutine (activity node : String) : Routine :=
  ⟨"Sign_One", activity, "Blink_it", [], [], [⟨node, .fork []⟩], []⟩

theorem library_signs :
    (signCompiled firstSign).library.entries =
      [("Sign_One::Blink_it", signRoutine "Blink it" "n 1")] ∧
    (signCompiled secondSign).library.entries =
      [("Sign_One::Blink_it", signRoutine "Blink+it" "n-1")] := by
  decide +kernel

theorem sameStructure_signs : firstSign.SameStructure secondSign (signCompiled firstSign).library
    (signCompiled secondSign).library [] [] := by
  refine ⟨rfl, rfl, fun i hi => ?_⟩
  obtain rfl := Nat.lt_one_iff.1 hi
  rw [Library.find?, library_signs.1, Library.find?, library_signs.2]
  decide +kernel

theorem singleWords_signs : firstSign.SingleWords (signCompiled firstSign).library ∧
    secondSign.SingleWords (signCompiled secondSign).library := by
  refine ⟨⟨by decide +kernel, fun name _ r hr => ?_⟩, ⟨by decide +kernel, fun name _ r hr => ?_⟩⟩
  · have hmem := library_signs.1 ▸ mem_of_lookup hr
    cases List.mem_singleton.1 hmem
    decide +kernel
  · have hmem := library_signs.2 ▸ mem_of_lookup hr
    cases List.mem_singleton.1 hmem
    decide +kernel

/-- A sign that does nothing. -/
def bare (component : String) : Component :=
  { sign component "Stand by" "Go on" "level" "" "" with
    states := [⟨⟨"Stand by", "Stand_by"⟩, []⟩]
    transitions := []
    activities := []
    attributes := []
    commands := lifecycleCommands }

def bareDefinition (component : String) : Definition where
  recordTypes := []
  components := [⟨component, [], ⟨"Cycle", "Stand by", [⟨"Stand by", []⟩], []⟩, []⟩]

def emitBare (component : String) : Except EmitError Artifacts :=
  emitComponent ⟨"Site", .mock, false⟩ (signModel (bare component)) (bare component)
    (signCompiled (bare component))

end Sample

/-- Two components that differ in the words of their models alone are both refused, or both
emitted with files that are the same up to their comments, if none of these words has a newline. -/
theorem Model.words_in_comments {d d' : Definition} {m m' : Model} (h : Model.build d = .ok m)
    (h' : Model.build d' = .ok m') {c c' : Component} (hc : c ∈ m.components)
    (hc' : c' ∈ m'.components) {s s' : Compilation} (hs : s.Of m) (hs' : s'.Of m')
    (hsame : c.SameStructure c' s.library s'.library m.recordTypes m'.recordTypes)
    (hwords : c.SingleWords s.library) (hwords' : c'.SingleWords s'.library)
    (settings : Settings) :
    (∃ e e', emitComponent settings m c s = .error e ∧
      emitComponent settings m' c' s' = .error e') ∨
    ∃ a a', emitComponent settings m c s = .ok a ∧ emitComponent settings m' c' s' = .ok a' ∧
      a.Alike a' := by
  have hm := Model.resolved_of_build h
  have hm' := Model.resolved_of_build h'
  obtain ⟨S⟩ := exists_modelStages h
  obtain ⟨S'⟩ := exists_modelStages h'
  have hrequests := ((S.linked.closed hm).components c hc).requests
  have hrequests' := ((S'.linked.closed hm').components c' hc').requests
  simp only [emitComponent, emit_eq]
  cases hcollect : Bundle.collect settings.path c.synthesize s.library m.recordTypes with
  | error e =>
    cases hcollect' : Bundle.collect settings.path c'.synthesize s'.library m'.recordTypes with
    | error e' => exact .inl ⟨e, e', rfl, rfl⟩
    | ok b' =>
      obtain ⟨b, hb, -⟩ := (Bundle.collected hcollect').exists_plain_eq hsame.symm.machine
        hsame.symm.records (hsame.symm.reachable_eq hm' hc' hs' hrequests')
      cases hb.collect_eq.symm.trans hcollect
  | ok b =>
    have hb := Bundle.collected hcollect
    obtain ⟨b', hb', hplain⟩ := hb.exists_plain_eq hsame.machine hsame.records
      (hsame.reachable_eq hm hc hs hrequests)
    have hfit := hb.wordsFit hs hwords
    have hfit' := hb'.wordsFit hs' hwords'
    have hname : '\n' ∉ b.machine.name.toList := hb.machine ▸ S.notMem_machine hc
    rw [hb'.collect_eq]
    refine .inr ⟨_, _, rfl, rfl, ?_, Bundle.headerFile_alike hfit hfit' hplain _,
      Bundle.implementationFile_alike hfit hfit' hplain _, ?_⟩
    · exact congrArg (·.component.ident) hsame.machine
    · cases settings.componentModel with
      | false => exact .none
      | true => exact .some (Bundle.componentModelFile_alike hfit hfit' hplain _ hname)

/-- Signs with other words have the same files up to comments. -/
theorem Sample.words_in_comments_sign : ∃ a a',
    emitComponent ⟨"Site", .mock, true⟩ (signModel firstSign) firstSign (signCompiled firstSign) =
      .ok a ∧
    emitComponent ⟨"Site", .mock, true⟩ (signModel secondSign) secondSign
      (signCompiled secondSign) = .ok a' ∧ a.Alike a' := by
  obtain ⟨e, -, herror, -⟩ | halike := Model.words_in_comments build_signs.1 build_signs.2
    (List.mem_singleton_self firstSign) (List.mem_singleton_self secondSign)
    (of_signCompiled firstSign) (of_signCompiled secondSign) sameStructure_signs
    singleWords_signs.1 singleWords_signs.2 ⟨"Site", .mock, true⟩
  · have hok : (Bundle.collect "Site" firstSign.synthesize (signCompiled firstSign).library
        []).isOk = true := by
      decide +kernel
    obtain ⟨b, hb⟩ := exists_of_isOk hok
    cases hb.symm.trans (emit_eq_error.1 herror)
  · exact halike

/-- A newline in the name of a component makes another line, which is no comment. -/
theorem Sample.words_split_lines :
    Model.build (bareDefinition "Sign One") = .ok (signModel (bare "Sign One")) ∧
    Model.build (bareDefinition "Sign\nOne") = .ok (signModel (bare "Sign\nOne")) ∧
    (bare "Sign One").SameStructure (bare "Sign\nOne") (signCompiled (bare "Sign One")).library
      (signCompiled (bare "Sign\nOne")).library [] [] ∧
    ∃ a a', emitBare "Sign One" = .ok a ∧ emitBare "Sign\nOne" = .ok a' ∧
      a'.header.text.toList.count '\n' = a.header.text.toList.count '\n' + 1 ∧ ¬ a.Alike a' := by
  have hbuild : Model.build (bareDefinition "Sign One") = .ok (signModel (bare "Sign One")) ∧
      Model.build (bareDefinition "Sign\nOne") = .ok (signModel (bare "Sign\nOne")) := by
    decide +kernel
  have hsame : (bare "Sign One").SameStructure (bare "Sign\nOne")
      (signCompiled (bare "Sign One")).library (signCompiled (bare "Sign\nOne")).library [] [] :=
    ⟨rfl, rfl, fun i hi => absurd hi (Nat.not_lt_zero i)⟩
  let b : Bundle := ⟨(bare "Sign One").synthesize, [], [], Identifier.segments "Site"⟩
  have hvalid : Identifier.invalidSegment? "Site" = none := by decide +kernel
  have hreached (raw : String) : (signCompiled (bare raw)).library.reachable
      (bare raw).synthesize.referenced = .ok [] := by
    have hreferenced : (bare raw).synthesize.referenced = [] := List.eraseDups_nil
    simp [hreferenced, Library.reachable, Library.closeWithin, sortEntries]
  have hcollect (raw : String) : Bundle.collect "Site" (bare raw).synthesize
      (signCompiled (bare raw)).library [] = .ok (b.renamed raw) :=
    Bundle.Collected.collect_eq ⟨hvalid, rfl, rfl, hreached raw, List.forall_mem_nil _, rfl⟩
  obtain ⟨n, hcount⟩ := b.exists_count_header .mock
  have hlines : ((b.renamed "Sign\nOne").headerFile .mock).text.toList.count '\n' =
      ((b.renamed "Sign One").headerFile .mock).text.toList.count '\n' + 1 := by
    rw [hcount, hcount]
    rfl
  have hemit (raw : String) := emit_eq ⟨"Site", .mock, false⟩ (bare raw).synthesize
    (signCompiled (bare raw)).library []
  simp only [hcollect] at hemit
  refine ⟨hbuild.1, hbuild.2, hsame, _, _, hemit "Sign One", hemit "Sign\nOne", hlines,
    fun halike => ?_⟩
  exact Nat.ne_of_lt (Nat.lt_succ_self _) (halike.header.text.count_eq.trans hlines)

end FlightGen
