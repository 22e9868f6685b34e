import Mathlib.Data.List.Chain
import FlightGen.Proofs.Flow.Ordering
import FlightGen.Proofs.Generation

/-! What is to blame for an error of compilation. The layers of an error are calls of activities,
one for each layer, and they lead to the activity whose own compilation failed. This holds of
results that are kept as well, whoever asked for them first. -/

namespace FlightGen

open Relation (TransGen)

/-- The number of failed dependencies above the root cause. -/
def CompileError.depth : CompileError → Nat
  | dependencyFailed _ _ cause => cause.depth + 1
  | _ => 0

/-- An error that an activity is the source of, by itself. -/
inductive Model.Origin (m : Model) (c : Component) (i : Nat) : CompileError → Prop
  /-- A body declares a language, and none before it does. -/
  | language {a : Activity} {before after : List Node} {n : Node} {language : String}
      (ha : c.activities[i]? = some a) (hnodes : a.nodes = before ++ n :: after)
      (hbefore : ∀ n' ∈ before, n'.action.language? = none)
      (hn : n.action.language? = some language) :
      Origin m c i (.unsupportedLanguage (c.activityPath i) n.id language)
  /-- All that the activity calls compiles, and still it cannot be lowered. -/
  | lowering {a : Activity} {e : ModelError} (ha : c.activities[i]? = some a)
      (hsupported : a.Supported) (hcalls : ∀ j, c.Calls i j → m.Compilable c j)
      (he : m.lower c i a = .error e) (hother : ∀ path chain, e ≠ .recursiveActivity path chain) :
      Origin m c i (.model e)
  /-- The activity was entered again: calls lead from it back to it. -/
  | reentered {calls : List Nat} (h : List.IsChain c.Calls (i :: calls ++ [i])) :
      Origin m c i (.model (.recursiveActivity (c.qualified i)
        ((i :: calls ++ [i]).map c.qualified)))

/-- An error of an activity, with the calls that lead from it to the source of the error. -/
inductive Model.Traces (m : Model) (c : Component) : Nat → List Nat → CompileError → Prop
  | origin {i : Nat} {e : CompileError} (h : m.Origin c i e) : Traces m c i [] e
  | call {i j : Nat} {calls : List Nat} {e : CompileError} (hcall : c.Calls i j)
      (h : Traces m c j calls e) :
      Traces m c i (j :: calls) (.dependencyFailed (c.activityPath i) (c.activityPath j) e)

/-! ### Errors with their calls -/

section Traces

variable {m : Model} {c : Component} {i : Nat} {calls : List Nat} {e : CompileError}

theorem Model.Traces.isChain (h : m.Traces c i calls e) : List.IsChain c.Calls (i :: calls) := by
  induction h with
  | origin => exact .singleton _
  | call hcall _ ih => exact .cons_cons hcall ih

theorem Model.Origin.rootCause_eq (h : m.Origin c i e) : e.rootCause = e := by
  cases h <;> rfl

theorem Model.Traces.rootCause (h : m.Traces c i calls e) :
    m.Origin c ((i :: calls).getLast (List.cons_ne_nil _ _)) e.rootCause := by
  induction h with
  | origin h => exact h.rootCause_eq.symm ▸ h
  | call _ _ ih =>
    rw [List.getLast_cons (List.cons_ne_nil _ _)]
    exact ih

theorem Model.Traces.depth (h : m.Traces c i calls e) : e.depth = calls.length := by
  induction h with
  | origin h => cases h <;> rfl
  | call _ _ ih => rw [CompileError.depth, ih, List.length_cons]

/-- A chain that ends with an activity goes on with the activities along the calls. No activity
comes in twice, since each layer starts where the one above it ends. -/
theorem Model.Traces.extendChain (h : m.Traces c i calls e) (chain : List String) :
    extendChain (chain ++ [c.activityPath i]) e = chain ++ (i :: calls).map c.activityPath := by
  induction h generalizing chain with
  | origin h => cases h <;> rfl
  | @call i j calls e _ _ ih =>
    rw [FlightGen.extendChain, List.getLast?_concat, if_pos rfl, ih]
    simp

/-- An answer that is traced. -/
theorem Model.Traces.of_error (h : m.Traces c i calls e) :
    ∀ e', (Except.error e : Except CompileError Routine) = .error e' →
      ∃ calls, m.Traces c i calls e' := by
  intro e' he
  cases he
  exact ⟨calls, h⟩

theorem Model.Traces.failureChain (h : m.Traces c i calls e) :
    failureChain c.name.raw (c.activityPath i) e =
      c.name.raw :: (i :: calls).map c.activityPath :=
  h.extendChain [c.name.raw]

end Traces

/-! ### Activities in progress -/

/-- The activities in progress call each other in turn, and the innermost of them calls
activity `i`. -/
def Nested (c : Component) (s : Compilation) (i : Nat) : Prop :=
  ∃ js, s.stack = js.map c.qualified ∧ List.IsChain (fun a b => c.Calls b a) (i :: js)

section Nested

variable {m : Model} {c : Component} {s s' : Compilation} {i : Nat} {a : Activity}

theorem Component.Calls.lt {j : Nat} (h : c.Calls i j) : i < c.activities.length := by
  obtain ⟨a, ha, -⟩ := h
  exact (List.getElem?_eq_some_iff.1 ha).1

theorem calls_of_isChain {js : List Nat} (h : List.IsChain (fun a b => c.Calls b a) (i :: js)) :
    ∀ j ∈ js, j < c.activities.length ∧ TransGen c.Calls j i := by
  induction js generalizing i with
  | nil => exact nofun
  | cons j js ih =>
    obtain ⟨hcall, hrest⟩ := List.isChain_cons_cons.1 h
    refine List.forall_mem_cons.2 ⟨⟨hcall.lt, .single hcall⟩, fun k hk => ?_⟩
    exact ⟨(ih hrest k hk).1, (ih hrest k hk).2.tail hcall⟩

theorem Nested.waiting (h : Nested c s i) : Waiting c s i := by
  obtain ⟨js, hstack, hchain⟩ := h
  intro name hname
  rw [hstack] at hname
  obtain ⟨j, hj, rfl⟩ := List.mem_map.1 hname
  obtain ⟨hlt, hpath⟩ := calls_of_isChain hchain j hj
  exact ⟨j, hlt, rfl, hpath⟩

theorem Nested.enter (h : Nested c s i) (ha : c.activities[i]? = some a) {j : Nat}
    (hj : CallsAmong a.nodes j) (hs' : s'.stack = c.qualified i :: s.stack) : Nested c s' j := by
  obtain ⟨js, hstack, hchain⟩ := h
  exact ⟨i :: js, by rw [hs', hstack, List.map_cons], .cons_cons ⟨a, ha, hj⟩ hchain⟩

theorem Compilation.Of.nested (h : s.Of m) (c : Component) (i : Nat) : Nested c s i :=
  ⟨[], h.stack, .singleton i⟩

/-- A request for an activity in progress closes a cycle of calls: those from the activity to the
innermost one, and the last call of all. -/
theorem origin_recursion (hm : m.Resolved) (hc : c ∈ m.components) (hi : i < c.activities.length)
    (h : Nested c s i) (hstack : c.qualified i ∈ s.stack) :
    m.Origin c i (recursion s.stack (c.qualified i)) := by
  obtain ⟨js, hjs, hchain⟩ := h
  have hinj (j : Nat) (hj : j ∈ js) (hname : c.qualified j = c.qualified i) : j = i :=
    (hm.qualified_injective hc hc (calls_of_isChain hchain j hj).1 hi hname).2
  have hmem : i ∈ js := by
    rw [hjs] at hstack
    obtain ⟨j, hj, hname⟩ := List.mem_map.1 hstack
    exact hinj j hj hname ▸ hj
  obtain ⟨inner, outer, rfl, hinner⟩ := List.eq_append_cons_of_mem hmem
  -- The activities inside the cycle are those above the activity on the stack.
  have htake : s.stack.takeWhile (· ≠ c.qualified i) = inner.map c.qualified := by
    rw [hjs, List.map_append, List.takeWhile_append_of_pos, List.map_cons]
    · simp
    · refine List.forall_mem_map.2 fun j hj => decide_eq_true fun hname => hinner ?_
      exact hinj j (List.mem_append_left _ hj) hname ▸ hj
  have hcycle : List.IsChain c.Calls (i :: inner.reverse ++ [i]) := by
    have hsplit : i :: (inner ++ i :: outer) = (i :: inner ++ [i]) ++ outer := by simp
    rw [hsplit] at hchain
    simpa using List.isChain_reverse.2 hchain.left_of_append
  have horigin := Model.Origin.reentered (m := m) hcycle
  rw [recursion, htake]
  simpa using horigin

end Nested

/-! ### Requests -/

/-- Every error among the results is traced to its source. -/
def Results.Traced (m : Model) (results : Results) : Prop :=
  ∀ c ∈ m.components, ∀ i < c.activities.length, ∀ e, (c.qualified i, .error e) ∈ results →
    ∃ calls, m.Traces c i calls e

theorem Results.Traced.snoc {m : Model} {results : Results} (hm : m.Resolved)
    (h : Results.Traced m results) {c : Component} (hc : c ∈ m.components) {i : Nat}
    (hi : i < c.activities.length) {x : Except CompileError Routine}
    (hx : ∀ e, x = .error e → ∃ calls, m.Traces c i calls e) :
    Results.Traced m (results ++ [(c.qualified i, x)]) := by
  intro c' hc' i' hi' e hmem
  obtain hmem | hmem := List.mem_append.1 hmem
  · exact h c' hc' i' hi' e hmem
  · obtain ⟨hname, hresult⟩ := Prod.mk.inj (List.mem_singleton.1 hmem)
    obtain ⟨rfl, rfl⟩ := hm.qualified_injective hc' hc hi' hi hname
    exact hx e hresult.symm

/-- A request is answered with an error that can be traced, and leaves only such errors. -/
def Blames (m : Model) (c : Component) : Judgment := fun s i x s' =>
  Results.Correct m s.results → Results.Traced m s.results → Nested c s i →
    i < c.activities.length →
    Results.Traced m s'.results ∧ ∀ e, x = .error e → ∃ calls, m.Traces c i calls e

/-- The answers to requests for the called activities. -/
def Answered (m : Model) (c : Component) (a : Activity) : Judgment := fun s j x s' =>
  s.Grows s' ∧ CallsAmong a.nodes j ∧ m.Outcome c j x ∧
    ∀ e, x = .error e → ∃ calls, m.Traces c j calls e

section Requests

variable {m : Model} {c : Component} {s s' : Compilation} {i : Nat} {a : Activity}
  {x : Except CompileError Routine}

/-- The first body with a language is reported. -/
theorem exists_of_checkLanguages {path : String} {nodes : List Node} {e : CompileError}
    (h : checkLanguages path nodes = .error e) :
    ∃ before n after language, nodes = before ++ n :: after ∧
      (∀ n' ∈ before, n'.action.language? = none) ∧ n.action.language? = some language ∧
      e = .unsupportedLanguage path n.id language := by
  induction nodes with
  | nil => cases h
  | cons n nodes ih =>
    rw [checkLanguages] at h
    split at h
    · rename_i language hn
      cases h
      exact ⟨[], n, nodes, language, rfl, by simp, hn, rfl⟩
    · rename_i hn
      obtain ⟨before, n', after, language, rfl, hbefore, hn', rfl⟩ := ih h
      exact ⟨n :: before, n', after, language, rfl, List.forall_mem_cons.2 ⟨hn, hbefore⟩, hn', rfl⟩

theorem origin_checkLanguages (ha : c.activities[i]? = some a) {e : CompileError}
    (h : checkLanguages (c.activityPath i) a.nodes = .error e) : m.Origin c i e := by
  obtain ⟨before, n, after, language, hnodes, hbefore, hn, rfl⟩ := exists_of_checkLanguages h
  exact .language ha hnodes hbefore hn

theorem blame_callees (hm : m.Resolved) (hc : c ∈ m.components) (hp : Pending c s i a)
    (hcorrect : Results.Correct m s.results) (htraced : Results.Traced m s.results)
    (hnested : Nested c s i) {path : String} {y : Except CompileError (List (Nat × Routine))}
    (h : Callees (fun s i x s' => s.Grows s' ∧ Settles m c s i x s' ∧ Blames m c s i x s') c path
      (s.enter (c.qualified i)) a.nodes.zipIdx y s') :
    Callees (Answered m c a) c path (s.enter (c.qualified i)) a.nodes.zipIdx y s' ∧
      Results.Traced m s'.results := by
  obtain ⟨h, -, htraced', -⟩ := h.mono (I := fun s₁ => Results.Correct m s₁.results ∧
      Results.Traced m s₁.results ∧ s₁.stack = c.qualified i :: s.stack)
    (Q := Answered m c a) ⟨hcorrect, htraced, rfl⟩ fun s₁ j z s₂ hj hs₁ hz => by
      rw [List.zipIdx_map_fst] at hj
      obtain ⟨hcorrect₁, htraced₁, hstack⟩ := hs₁
      obtain ⟨hgrows, hsettles, hblames⟩ := hz
      have hj' := lt_of_callsAmong hm hc hp.activity hj
      have hnested₁ := hnested.enter hp.activity hj hstack
      obtain ⟨hcorrect₂, houtcome⟩ := hsettles hcorrect₁ hnested₁.waiting hj'
      obtain ⟨htraced₂, htraces⟩ := hblames hcorrect₁ htraced₁ hnested₁ hj'
      exact ⟨⟨hgrows, hj, houtcome, htraces⟩, hcorrect₂, htraced₂, hgrows.stack.trans hstack⟩
  exact ⟨h, htraced'⟩

/-- Where the called activities compile, the activity itself is the source of its error. -/
theorem origin_of_callees (hm : m.Resolved) (hc : c ∈ m.components)
    (ha : c.activities[i]? = some a) (hsupported : a.Supported) {callees : List (Nat × Routine)}
    {e : CompileError}
    (h : Callees (Answered m c a) c (c.activityPath i) s a.nodes.zipIdx (.ok callees) s')
    (he : lowerFlow (m.flow c i a callees) = .error e) : m.Origin c i e := by
  have hcallees (n target : Nat) (arguments : List Argument)
      (hn : a.action n = .call target arguments) :
      ∃ r, callees.lookup n = some r ∧ m.CompilesTo c target r := by
    obtain ⟨r, _, _, hlookup, ⟨-, -, houtcome, -⟩, -⟩ :=
      h.routine_of_action (fun _ _ _ _ h => h.1) hn
    exact ⟨r, hlookup, (houtcome r).1 rfl⟩
  rw [lowerFlow, lower_of_callees hcallees] at he
  cases hlower : m.lower c i a with
  | ok r =>
    rw [hlower] at he
    cases he
  | error e' =>
    rw [hlower] at he
    cases he
    refine .lowering ha hsupported (fun j hj => ?_) hlower fun path chain heq => ?_
    · obtain ⟨a', ha', hj⟩ := hj
      cases ha.symm.trans ha'
      obtain ⟨n, arguments, hn⟩ := callsAmong_iff.1 hj
      obtain ⟨_, -, hcompiles⟩ := hcallees n j arguments hn
      exact hcompiles.1
    · have hresolved := (hm.components c hc).activities a (List.mem_of_getElem? ha)
      exact Flow.lower_ne_recursive hresolved path chain (heq ▸ hlower)

theorem blames_of_rule (hm : m.Resolved) (hc : c ∈ m.components)
    (h : Rule (fun s i x s' => s.Grows s' ∧ Settles m c s i x s' ∧ Blames m c s i x s') m c s i x
      s') : Blames m c s i x s' := by
  intro hcorrect htraced hnested hi
  cases h with
  | cached h =>
    refine ⟨htraced, fun e he => ?_⟩
    subst he
    exact htraced c hc i hi e (mem_of_lookup h)
  | unknown _ ha =>
    rw [List.getElem?_eq_getElem hi] at ha
    cases ha
  | recursive _ _ hstack =>
    have htraces := Model.Traces.origin (origin_recursion hm hc hi hnested hstack)
    exact ⟨htraced, htraces.of_error⟩
  | unsupported hp he =>
    have htraces := Model.Traces.origin (m := m) (origin_checkLanguages hp.activity he)
    exact ⟨htraced.snoc hm hc hi htraces.of_error, htraces.of_error⟩
  | blocked hp _ hcalls =>
    obtain ⟨hcalls, htraced'⟩ := blame_callees hm hc hp hcorrect htraced hnested hcalls
    obtain ⟨j, e', _, _, -, rfl, -, hj, -, hfailed⟩ := hcalls.exists_failed
    obtain ⟨calls, hcalls⟩ := hfailed e' rfl
    have htraces := Model.Traces.call ⟨_, hp.activity, hj⟩ hcalls
    exact ⟨htraced'.snoc hm hc hi htraces.of_error, htraces.of_error⟩
  | lowered hp hl hcalls hx =>
    obtain ⟨hcalls, htraced'⟩ := blame_callees hm hc hp hcorrect htraced hnested hcalls
    have htraces : ∀ e, x = .error e → ∃ calls, m.Traces c i calls e := by
      intro e he
      exact ⟨[], .origin (origin_of_callees hm hc hp.activity (checkLanguages_eq_ok.1 hl) hcalls
        (hx.trans he))⟩
    exact ⟨htraced'.snoc hm hc hi htraces, htraces⟩

theorem compile_blames (hm : m.Resolved) (hc : c ∈ m.components) (hs : s.stack = []) (i : Nat) :
    Blames m c s i ((compile m c i).run.run s).1 ((compile m c i).run.run s).2 := by
  refine (compile_induction (Q := fun s i x s' => Settles m c s i x s' ∧ Blames m c s i x s')
    (fun s i x s' h => ⟨?_, blames_of_rule hm hc h⟩) hs i).2
  refine settles_of_rule hm hc (h.mono fun _ _ s₁ j y s₂ _ hr => ?_)
  exact ⟨⟨hr.1, hr.2.1⟩, hr.1.stack⟩

theorem Compilation.Of.traced (h : s.Of m) (hm : m.Resolved) : Results.Traced m s.results := by
  refine h.induction (P := fun s => Results.Traced m s.results) nofun
    fun s c i h hc hi hs => ?_
  exact (compile_blames hm hc h.stack i (h.correct hm) hs (h.nested c i) hi).1

/-- Every error that a request is answered with can be traced. -/
theorem Compilation.Of.exists_traces (h : s.Of m) (hm : m.Resolved) (hc : c ∈ m.components)
    (hi : i < c.activities.length) {e : CompileError}
    (he : ((compile m c i).run.run s).1 = .error e) : ∃ calls, m.Traces c i calls e :=
  (compile_blames hm hc h.stack i (h.correct hm) (h.traced hm) (h.nested c i) hi).2 e he

end Requests

/-! ### Failures of a run -/

section Failures

variable {m : Model} {c : Component} {s : Compilation} {f : Failure}

/-- A failure tells of an activity that was asked for, and of the answer. -/
theorem exists_of_mem_failures (hc : c ∈ m.components) {indices : List Nat} (hs : s.Of m)
    (hf : f ∈ (compileActivities m c s indices).1) :
    ∃ i ∈ indices, ∃ t e, t.Of m ∧ ((compile m c i).run.run t).1 = .error e ∧
      f = ⟨c.name.raw, failureChain c.name.raw (c.activityPath i) e, .compile e⟩ := by
  induction indices generalizing s with
  | nil => cases hf
  | cons i indices ih =>
    rw [compileActivities_cons] at hf
    obtain hf | hf := List.mem_append.1 hf
    · cases hanswer : ((compile m c i).run.run s).1 with
      | ok r =>
        rw [hanswer] at hf
        cases hf
      | error e =>
        rw [hanswer] at hf
        exact ⟨i, List.mem_cons_self, s, e, hs, hanswer, List.mem_singleton.1 hf⟩
    · obtain ⟨j, hj, h⟩ := ih (.request hs hc i) hf
      exact ⟨j, List.mem_cons_of_mem _ hj, h⟩

/-- Failures of compilation are those of the component's activities. -/
theorem Component.mem_failures_alone {settings : Settings} {e : CompileError}
    (hf : f ∈ (c.alone settings m).failures) (he : f.error = .compile e) :
    f ∈ (compileActivities m c {} c.stateActivities).1 := by
  rw [alone_eq] at hf
  cases hfailures : (compileActivities m c {} c.stateActivities).1 with
  | cons f' failures =>
    rw [hfailures] at hf
    exact hf
  | nil =>
    rw [hfailures] at hf
    cases hemit : emit settings c.synthesize (c.ownLibrary m) m.recordTypes with
    | ok artifacts =>
      rw [hemit] at hf
      cases hf
    | error e' =>
      rw [hemit] at hf
      cases List.mem_singleton.1 hf
      cases he

end Failures

/-- The chain of a failure is a path of calls. It leads from the activity of a state to the
activity that the root cause arose from, with one call for each layer of the error. -/
theorem Model.failure_chains {d : Definition} {m : Model} (h : Model.build d = .ok m)
    (settings : Settings) {f : Failure} (hf : f ∈ (generate settings m).failures)
    {e : CompileError} (he : f.error = .compile e) :
    ∃ c ∈ m.components, ∃ i ∈ c.failing m, ∃ calls,
      f.component = c.name.raw ∧
      f.chain = c.name.raw :: (i :: calls).map c.activityPath ∧
      List.IsChain c.Calls (i :: calls) ∧
      m.Origin c ((i :: calls).getLast (List.cons_ne_nil _ _)) e.rootCause ∧
      f.chain.length = 2 + e.depth := by
  have hm := Model.resolved_of_build h
  obtain ⟨S⟩ := exists_modelStages h
  have hrequests (c : Component) (hc : c ∈ m.components) :=
    ((S.linked.closed hm).components c hc).requests
  rw [(generate_eq_flatMap hm hrequests settings).2] at hf
  obtain ⟨c, hc, hf⟩ := List.mem_flatMap.1 hf
  obtain ⟨i, hi, t, e', ht, hanswer, rfl⟩ :=
    exists_of_mem_failures hc .start (Component.mem_failures_alone hf he)
  cases he
  have hlt := hrequests c hc i hi
  obtain ⟨calls, htraces⟩ := ht.exists_traces hm hc hlt hanswer
  have hfailing : i ∈ c.failing m := by
    refine List.mem_filter.2 ⟨hi, ?_⟩
    rw [← isOk_compile hm hc ht hlt, hanswer]
    rfl
  refine ⟨c, hc, i, hfailing, calls, rfl, htraces.failureChain, htraces.isChain,
    htraces.rootCause, ?_⟩
  rw [htraces.failureChain, htraces.depth, List.length_cons, List.length_map, List.length_cons]
  omega

namespace Sample

/-- `Ping` calls `Pong`, and there `Ping` is entered again. -/
def pingError : CompileError :=
  .dependencyFailed "Relay::Ping" "Relay::Pong" <|
    .dependencyFailed "Relay::Pong" "Relay::Ping" <|
      .model (.recursiveActivity "Relay::Ping" ["Relay::Ping", "Relay::Pong", "Relay::Ping"])

def bothFailure : Failure where
  component := "Relay"
  chain := ["Relay", "Relay::Both", "Relay::Ping", "Relay::Pong", "Relay::Ping"]
  error := .compile (.dependencyFailed "Relay::Both" "Relay::Ping" pingError)

/-- `Ping` is asked for after `Both`, and its error is there by then. -/
def pingFailure : Failure where
  component := "Relay"
  chain := ["Relay", "Relay::Ping", "Relay::Pong", "Relay::Ping"]
  error := .compile pingError

theorem failures_stationRelay :
    (compileActivities station stationRelay {} stationRelay.stateActivities).1 =
      [bothFailure, pingFailure] := by
  decide +kernel

theorem mem_failures_station : pingFailure ∈ (generate {} station).failures := by
  have hm := Model.resolved_of_build build_stationDefinition
  obtain ⟨S⟩ := exists_modelStages build_stationDefinition
  have hrequests (c : Component) (hc : c ∈ station.components) :=
    ((S.linked.closed hm).components c hc).requests
  rw [(generate_eq_flatMap hm hrequests {}).2]
  refine List.mem_flatMap.2 ⟨stationRelay, List.mem_cons_self, ?_⟩
  rw [Component.alone_eq, failures_stationRelay]
  exact List.mem_cons_of_mem _ List.mem_cons_self

/-- The second failure of the relay is traced, though it was not compiled anew. -/
theorem failure_chains_station : pingFailure ∈ (generate {} station).failures ∧
    ∃ c ∈ station.components, ∃ i ∈ c.failing station, ∃ calls,
      pingFailure.chain = c.name.raw :: (i :: calls).map c.activityPath ∧
      List.IsChain c.Calls (i :: calls) ∧
      station.Origin c ((i :: calls).getLast (List.cons_ne_nil _ _)) pingError.rootCause := by
  obtain ⟨c, hc, i, hi, calls, -, hnames, hchain, horigin, -⟩ :=
    Model.failure_chains build_stationDefinition {} mem_failures_station rfl
  exact ⟨mem_failures_station, c, hc, i, hi, calls, hnames, hchain, horigin⟩

end Sample

end FlightGen
