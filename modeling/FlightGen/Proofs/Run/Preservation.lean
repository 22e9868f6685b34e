import FlightGen.Proofs.Run.Soundness

/-! Typed data stays typed. A block whose assignments keep its variables to their types hands
typed values on, as long as it exports each variable under the type that the variable was
declared with. A pin that is both input and output shares one variable, which has the type of
the input; nothing makes the output agree with it, so that a block may hand on a value of
another type than its output pin declares. -/

namespace FlightGen

/-- A block whose text reads as assignments which, from variables of their declared types,
evaluate without error and leave all of them with values of these types. -/
def RespectsTypes (locals : List BlockLocal) (body : List String) : Prop :=
  ∃ assignments, Assignment.parseAll ("\n".intercalate body) = .ok assignments ∧
    ∀ scope : Env Value, scope.Holds (fun t v => t.accepts v) locals →
      ∃ final, assignments.foldlM Assignment.execute scope.reverse = .ok final ∧
        ∀ l ∈ locals, ∃ v, final.lookup l.name = some v ∧ l.scalar.accepts v

/-- Exports have the types of the variables they are taken from. -/
def ExportsAgree (locals : List BlockLocal) (exports : List BlockExport) : Prop :=
  ∀ l ∈ locals, ∀ e ∈ exports, l.name = e.name → l.scalar = e.scalar

theorem Value.accepts_scalar (v : Value) : v.scalar.accepts v := by
  cases v <;> rfl

theorem RespectsTypes.blockYields {locals : List BlockLocal} {body : List String}
    {exports : List BlockExport} (h : RespectsTypes locals body)
    (hagree : ExportsAgree locals exports) (E : RunError → Prop) (node : String) :
    BlockYields (fun t v => t.accepts v) E node locals body exports := by
  intro env hlocals hexports
  obtain ⟨assignments, hbody, hrun⟩ := h
  obtain ⟨scope, hscope, hholds⟩ : ∃ scope, locals.mapM (·.initial env) = .ok scope ∧
      Env.Holds (fun t v => t.accepts v) locals scope :=
    exists_scope Value.accepts_scalar hlocals
  obtain ⟨final, hfinal, htyped⟩ := hrun scope hholds
  have hbound : ∀ e ∈ exports, ∃ v, final.lookup e.name = some v ∧ e.scalar.accepts v := by
    intro e he
    obtain ⟨l, hl, hname⟩ := List.mem_map.1 (hexports e he)
    obtain ⟨v, hv, haccepts⟩ := htyped l hl
    rw [hname] at hv
    rw [hagree l hl e he hname] at haccepts
    exact ⟨v, hv, haccepts⟩
  obtain ⟨bindings, hbindings, hfits⟩ : ∃ bindings,
      exports.mapM (BlockExport.binding final) = .ok bindings ∧
        Env.Exports (fun t v => t.accepts v) exports bindings.reverse := exists_bindings hbound
  have hread : readBody node body = .ok assignments := mapError_eq_ok.2 hbody
  refine .of_eq_ok (a := bindings.reverse) ?_ hfits
  exact bind_eq_ok.2 ⟨scope, hscope, bind_eq_ok.2 ⟨assignments, hread,
    bind_eq_ok.2 ⟨final, hfinal, bind_eq_ok.2 ⟨bindings, hbindings, rfl⟩⟩⟩⟩

/-- A compiled activity runs through on typed arguments and yields typed results, if all blocks
that it may come to respect types and export variables as they are declared. -/
theorem Library.run_typed {d : Definition} {m : Model} (hm : Model.build d = .ok m)
    {s : Compilation} (hs : s.Of m) {name : String} {r : Routine}
    (hr : s.library.find? name = some r)
    (hblocks : ∀ r', s.library.Reaches name r' → ∀ step ∈ r'.steps, ∀ locals body exports,
      step.operation = .block locals body exports →
      RespectsTypes locals body ∧ ExportsAgree locals exports)
    {arguments : List Datum} (harguments : Datum.Typed m.recordTypes r.inputs arguments) :
    ∃ outputs, s.library.run name arguments = .ok outputs ∧
      Datum.Typed m.recordTypes r.outputs outputs := by
  have hyields : Yields (fun _ => False) (Datum.Typed m.recordTypes r.outputs)
      (s.library.run name arguments) := by
    refine hs.yields_of_blocks (Model.resolved_of_build hm) Value.accepts_scalar (Nat.le_succ _) hr
      ?_ harguments
    intro r' hr' step hstep locals body exports ho
    obtain ⟨hrespects, hagree⟩ := hblocks r' hr' step hstep locals body exports ho
    exact hrespects.blockYields hagree _ _
  obtain ⟨outputs, houtputs⟩ := hyields.failsOnly.exists_ok
  exact ⟨outputs, houtputs, hyields.result houtputs⟩

namespace Sample

/-! ### A pin that is input and output -/

/-- `Flip` negates a flag, which it takes as a boolean and hands on as `level` says; `Toggle`
calls it. -/
def flipDefinition (level : Scalar) : Definition where
  recordTypes := []
  components := [{
    name := "Valve"
    attributes := []
    machine := ⟨"Main", "Idle", [⟨"Idle", []⟩], []⟩
    activities := [
      ⟨"Flip", [
        ⟨"p", none, .parameter .input "state" "bool" none⟩,
        ⟨"f", none, .opaqueAction "flag = !flag" none [⟨"flag", .bool, some ⟨"p", none⟩⟩]
          [⟨"flag", level, none⟩]⟩,
        ⟨"r", none, .parameter .output "level" level.text (some ⟨"f", some "flag"⟩)⟩], []⟩,
      ⟨"Toggle", [
        ⟨"p", none, .parameter .input "state" "bool" none⟩,
        ⟨"c", none, .call "Flip" [⟨"state", ⟨"p", none⟩⟩]⟩,
        ⟨"r", none, .parameter .output "level" level.text (some ⟨"c", none⟩)⟩], []⟩] }]

def flipModel (level : Scalar) : Model where
  recordTypes := []
  components := [{
    name := ⟨"Valve", "Valve"⟩
    machine := ⟨"Main", "Main"⟩
    states := [⟨⟨"Idle", "Idle"⟩, []⟩]
    initial := 0
    transitions := []
    activities := [
      ⟨⟨"Flip", "Flip"⟩, [
        ⟨"p", "state", .parameter .input ⟨"state", "state"⟩ (.scalar .bool) none⟩,
        ⟨"f", "f", .opaqueAction "flag = !flag" none [⟨⟨"flag", "flag"⟩, .bool, some ⟨0, none⟩⟩]
          [⟨⟨"flag", "flag"⟩, level, none⟩]⟩,
        ⟨"r", "level", .parameter .output ⟨"level", "level"⟩ (.scalar level)
          (some ⟨1, some 0⟩)⟩], []⟩,
      ⟨⟨"Toggle", "Toggle"⟩, [
        ⟨"p", "state", .parameter .input ⟨"state", "state"⟩ (.scalar .bool) none⟩,
        ⟨"c", "c", .call 0 [⟨0, ⟨0, none⟩⟩]⟩,
        ⟨"r", "level", .parameter .output ⟨"level", "level"⟩ (.scalar level)
          (some ⟨1, none⟩)⟩], []⟩]
    attributes := []
    commands := lifecycleCommands }]

theorem build_flipDefinition (level : Scalar) :
    Model.build (flipDefinition level) = .ok (flipModel level) := by
  cases level <;> decide +kernel

def flipCompilation (level : Scalar) : Compilation :=
  ((compileNamed (flipModel level) "Valve" "Toggle").run.run {}).2

def flipped (level : Scalar) : Routine where
  component := "Valve"
  raw := "Flip"
  ident := "Flip"
  inputs := [⟨"state", "state", .scalar .bool⟩]
  outputs := [⟨"level", "level", .scalar level⟩]
  steps := [
    ⟨"p", .receive "state" "state" (.scalar .bool) false⟩,
    ⟨"f", .block [⟨"flag", .bool, some "state"⟩] ["flag = !flag"] [⟨"f_flag", "flag", level⟩]⟩,
    ⟨"r", .output 0 "f_flag"⟩]
  calls := []

def toggled (level : Scalar) : Routine where
  component := "Valve"
  raw := "Toggle"
  ident := "Toggle"
  inputs := [⟨"state", "state", .scalar .bool⟩]
  outputs := [⟨"level", "level", .scalar level⟩]
  steps := [
    ⟨"p", .receive "state" "state" (.scalar .bool) false⟩,
    ⟨"c", .call (some ("c", .scalar level)) "Valve::Flip" "Flip" ["state"]⟩,
    ⟨"r", .output 0 "c"⟩]
  calls := ["Valve::Flip"]

theorem results_flipCompilation (level : Scalar) : (flipCompilation level).results =
    [("Valve::Flip", .ok (flipped level)), ("Valve::Toggle", .ok (toggled level))] := by
  cases level <;> decide +kernel

theorem flipCompilation_of (level : Scalar) : (flipCompilation level).Of (flipModel level) :=
  .named .start _ _

theorem library_flipCompilation (level : Scalar) :
    (flipCompilation level).library =
      ⟨[("Valve::Flip", flipped level), ("Valve::Toggle", toggled level)]⟩ := by
  have hsorted : [("Valve::Flip", flipped level), ("Valve::Toggle", toggled level)].Pairwise
      fun a b => decide (a.1 ≤ b.1) := by
    cases level <;> decide +kernel
  rw [Compilation.library, results_flipCompilation]
  exact congrArg Library.mk (List.mergeSort_of_pairwise hsorted)

theorem find?_toggled (level : Scalar) :
    (flipCompilation level).library.find? "Valve::Toggle" = some (toggled level) := by
  rw [library_flipCompilation]
  cases level <;> decide +kernel

/-- Negation keeps a flag to its type. -/
theorem respectsTypes_flip : RespectsTypes [⟨"flag", .bool, some "state"⟩] ["flag = !flag"] := by
  refine ⟨[⟨"flag", .unary .not (.var "flag")⟩], by decide +kernel, fun scope hscope => ?_⟩
  cases hscope with
  | @cons _ entry _ _ hentry hrest =>
    cases hrest
    obtain ⟨name, v⟩ := entry
    obtain ⟨rfl, hv⟩ := hentry
    cases v with
    | number x => cases hv
    | bool b => exact ⟨_, rfl, by simp [Scalar.accepts]⟩

theorem blocks_flip {level : Scalar} {r : Routine}
    (hr : (flipCompilation level).library.Reaches "Valve::Toggle" r) {step : Step}
    (hstep : step ∈ r.steps) {locals : List BlockLocal} {body : List String}
    {exports : List BlockExport} (ho : step.operation = .block locals body exports) :
    locals = [⟨"flag", .bool, some "state"⟩] ∧ body = ["flag = !flag"] ∧
      exports = [⟨"f_flag", "flag", level⟩] := by
  have hmem : ∃ name, (name, .ok r) ∈ (flipCompilation level).results := by
    cases hr with
    | self h | call _ _ h => exact ⟨_, (flipCompilation_of level).find?_library.1 h⟩
  obtain ⟨name, hmem⟩ := hmem
  simp only [results_flipCompilation, List.mem_cons, Prod.mk.injEq, Except.ok.injEq,
    List.not_mem_nil, or_false] at hmem
  obtain ⟨-, rfl⟩ | ⟨-, rfl⟩ := hmem
  · simp only [flipped, List.mem_cons, List.not_mem_nil, or_false] at hstep
    obtain rfl | rfl | rfl := hstep <;> cases ho
    exact ⟨rfl, rfl, rfl⟩
  · simp only [toggled, List.mem_cons, List.not_mem_nil, or_false] at hstep
    obtain rfl | rfl | rfl := hstep <;> cases ho

/-- With one type on both sides of the pin, `Toggle` yields a boolean. -/
theorem run_typed_toggle : ∃ outputs,
    (flipCompilation .bool).library.run "Valve::Toggle" [.scalar (.bool true)] = .ok outputs ∧
      Datum.Typed (flipModel .bool).recordTypes (toggled .bool).outputs outputs := by
  refine Library.run_typed (build_flipDefinition .bool) (flipCompilation_of .bool)
    (find?_toggled .bool) ?_ (.cons (.scalar rfl) .nil)
  intro r hr step hstep locals body exports ho
  obtain ⟨rfl, rfl, rfl⟩ := blocks_flip hr hstep ho
  refine ⟨respectsTypes_flip, fun l hl e he _ => ?_⟩
  cases List.mem_singleton.1 hl
  cases List.mem_singleton.1 he
  rfl

/-- With an output pin that declares a number, the block respects all types and yet `Toggle`
yields a boolean for its numeric output. -/
theorem run_untyped_toggle :
    Model.build (flipDefinition .float) = .ok (flipModel .float) ∧
    (flipCompilation .float).Of (flipModel .float) ∧
    (flipCompilation .float).library.find? "Valve::Toggle" = some (toggled .float) ∧
    (∀ r, (flipCompilation .float).library.Reaches "Valve::Toggle" r → ∀ step ∈ r.steps,
      ∀ locals body exports, step.operation = .block locals body exports →
      RespectsTypes locals body) ∧
    Datum.Typed (flipModel .float).recordTypes (toggled .float).inputs [.scalar (.bool true)] ∧
    (flipCompilation .float).library.run "Valve::Toggle" [.scalar (.bool true)] =
      .ok [.scalar (.bool false)] ∧
    ¬ Datum.Typed (flipModel .float).recordTypes (toggled .float).outputs
      [.scalar (.bool false)] := by
  refine ⟨build_flipDefinition .float, flipCompilation_of .float, find?_toggled .float, ?_,
    .cons (.scalar rfl) .nil, ?_, ?_⟩
  · intro r hr step hstep locals body exports ho
    obtain ⟨rfl, rfl, -⟩ := blocks_flip hr hstep ho
    exact respectsTypes_flip
  · rw [library_flipCompilation]
    decide +kernel
  · rintro (_ | ⟨⟨hv⟩, -⟩)
    cases hv

end Sample

end FlightGen
