import FlightGen.Proofs.Artifact.Meaning
import FlightGen.Proofs.Machine.Guard
import FlightGen.Proofs.Machine.Operation
import FlightGen.Proofs.Model.Closed
import FlightGen.Proofs.Model.Distinct

/-! The emitted code makes the transitions that the machine makes. The enumeration and the switch
over it give back the numbers and the names of the states, the method that makes transitions has
the effects of a move, and the candidates for a state lead to the first one that is permitted. -/

namespace FlightGen

/-- The lists of candidates that a machine has for a state, in its arm or for a command. -/
def Machine.Offers (m : Machine) (state : Nat) (candidates : List Nat) : Prop :=
  (∃ arm ∈ m.arms, arm.state = state ∧ arm.transitions = candidates) ∨
    ∃ command ∈ m.commands, (state, candidates) ∈ command.arms

/-- What a guard method answers, if its condition has a boolean value. -/
def Machine.answer? (m : Machine) (attributes : List (String × Value)) (method : String) :
    Option Bool :=
  (m.guards.find? (·.method = method)).bind fun guard =>
    match guard.condition.eval (attributes.lookup ·) with
    | .ok (.bool answer) => some answer
    | _ => none

/-- The guards of all candidates have boolean values. -/
def Machine.Decided (m : Machine) (attributes : List (String × Value)) (candidates : List Nat) :
    Prop :=
  ∀ i ∈ candidates, ∀ t, m.transitions[i]? = some t → ∀ guard,
    t.guard.bind (m.guards[·]?) = some guard →
    ∃ answer, guard.condition.eval (attributes.lookup ·) = .ok (.bool answer)

/-- The states of a component can be told apart by their constants and by their numbers. -/
structure Component.Enumerated (c : Component) : Prop where
  size : c.states.length < 2 ^ 32
  nodup : (c.synthesize.states.map (·.constant)).Nodup
  names : ∀ s ∈ c.synthesize.states, IsName s.constant

/-! ### Lists of candidates -/

section Candidates

variable {m : Machine} {i : Nat} {t : Machine.Transition} (ht : m.transitions[i]? = some t)
  (candidates : List Nat) {attributes : List (String × Value)}

include ht

theorem choose_free (hguard : t.guard.bind (m.guards[·]?) = none) :
    Execution.choose m attributes (i :: candidates) = .ok (some t) := by
  have hpermits : Execution.permits m attributes t = .ok true := by rw [Execution.permits, hguard]
  rw [Execution.choose, ht]
  simp only [hpermits]
  rfl

theorem choose_guarded {g : Machine.Guard} (hguard : t.guard.bind (m.guards[·]?) = some g)
    {answer : Bool} (hanswer : g.condition.eval (attributes.lookup ·) = .ok (.bool answer)) :
    Execution.choose m attributes (i :: candidates) =
      if answer then .ok (some t) else Execution.choose m attributes candidates := by
  have hpermits : Execution.permits m attributes t = .ok answer := by
    rw [Execution.permits_eq hguard, hanswer]
    cases answer <;> rfl
  rw [Execution.choose, ht]
  simp only [hpermits]
  cases answer <;> rfl

theorem candidateLines_free (hguard : t.guard.bind (m.guards[·]?) = none) :
    Implementation.candidateLines m (i :: candidates) =
      [.code ("transitionToState(" ++ m.constantOf t.target ++ ");")] := by
  simp [Implementation.candidateLines, Implementation.candidates, ht, hguard,
    Implementation.Candidate.lines]

theorem candidateLines_guarded {g : Machine.Guard}
    (hguard : t.guard.bind (m.guards[·]?) = some g) :
    Implementation.candidateLines m (i :: candidates) =
      Line.braced ("if (" ++ g.method ++ "())")
        [.code ("transitionToState(" ++ m.constantOf t.target ++ ");"), .code "break;"] ++
      Implementation.candidateLines m candidates := by
  simp [Implementation.candidateLines, Implementation.candidates, ht, hguard,
    Implementation.Candidate.lines]

end Candidates

theorem nodup_guardMethods (c : Component) : (c.synthesize.guards.map (·.method)).Nodup := by
  rw [map_method]
  exact List.nodup_range.map guardMethod_injective

/-- A guard method answers by the condition of its guard. -/
theorem Machine.answer?_method {c : Component} {g : Machine.Guard} (hg : g ∈ c.synthesize.guards)
    {attributes : List (String × Value)} {answer : Bool}
    (hanswer : g.condition.eval (attributes.lookup ·) = .ok (.bool answer)) :
    c.synthesize.answer? attributes g.method = some answer := by
  have hfind : c.synthesize.guards.find? (·.method = g.method) = some g := by
    refine find?_of_unique hg (by simp) fun g' hg' hmethod => ?_
    exact List.inj_on_of_nodup_map (nodup_guardMethods c) hg' hg (by simpa using hmethod)
  rw [answer?, hfind, Option.bind_some, hanswer]

namespace Emitted

/-! ### Lines -/

section Lines

variable (p : Profile)

theorem contents_append (lines lines' : List Line) :
    contents p (lines ++ lines') = contents p lines ++ contents p lines' :=
  List.map_append

theorem contents_indent (lines : List Line) : contents p (Line.indent lines) = contents p lines := by
  simp [contents, Line.indent]

theorem contents_enclose (first last : String) (lines : List Line) :
    contents p (Line.enclose (.code first) lines (.code last)) =
      first :: contents p lines ++ [last] := by
  rw [Line.enclose, contents_append, ← contents_indent p lines]
  rfl

theorem contents_method (head : String) (lines : List Line) :
    contents p (Implementation.method head lines) =
      head :: "\x7b" :: contents p lines ++ ["\x7d", ""] := by
  rw [Implementation.method, Implementation.definition, contents_append, contents_append,
    contents_enclose]
  simp [contents, Line.code, Line.blank, LineContent.text]

theorem body_method {head : String} (hhead : head ≠ "\x7b") (lines : List Line) :
    Code.body (contents p (Implementation.method head lines)) =
      contents p lines ++ ["\x7d", ""] := by
  rw [contents_method, Code.body]
  simp [hhead]

/-- The enumeration lists the constants with their numbers. -/
theorem filterMap_enumerator? {states : List Machine.State}
    (h : ∀ s ∈ states, ' ' ∉ s.constant.toList) :
    (contents p (Line.separated (states.map fun s => s.constant ++ " = " ++
      toString s.value.toNat))).filterMap enumerator? =
      states.map fun s => (s.constant, s.value.toNat) := by
  induction states with
  | nil => rfl
  | cons s states ih =>
    obtain ⟨hs, hstates⟩ := List.forall_mem_cons.1 h
    cases states with
    | nil =>
      have hread := enumerator?_append hs s.value.toNat "" (by simp)
      rw [String.append_empty] at hread
      exact List.filterMap_cons_some hread
    | cons s' states =>
      have hread := enumerator?_append hs s.value.toNat "," (by simp)
      refine (List.filterMap_cons_some hread).trans ?_
      rw [List.map_cons]
      exact congrArg _ (ih hstates)

/-- The switch lists the constants with the names. -/
theorem filterMap_stateCase? {states : List Machine.State}
    (h : ∀ s ∈ states, ':' ∉ s.constant.toList) :
    (contents p (states.map fun s => Line.code ("case " ++ s.constant ++ ": return " ++
      cppString s.name.ident ++ ";"))).filterMap stateCase? =
      states.map fun s => (s.constant, s.name.ident) := by
  induction states with
  | nil => rfl
  | cons s states ih =>
    obtain ⟨hs, hstates⟩ := List.forall_mem_cons.1 h
    refine (List.filterMap_cons_some (stateCase?_append hs s.name.ident)).trans ?_
    rw [List.map_cons]
    exact congrArg _ (ih hstates)

variable (b : Bundle)

theorem enumeration_code (h : ∀ s ∈ b.machine.states, ' ' ∉ s.constant.toList) :
    (b.code p).enumeration.filterMap enumerator? =
      b.machine.states.map fun s => (s.constant, s.value.toNat) := by
  have hfirst : enumerator? "enum StateMachineStates \x7b" = none := by decide +kernel
  have hlast : enumerator? "\x7d;" = none := by decide +kernel
  rw [← filterMap_enumerator? p h, Bundle.code, Header.stateLines, contents_enclose,
    List.cons_append, List.filterMap_cons_none hfirst, List.filterMap_append,
    List.filterMap_cons_none hlast, List.filterMap_nil, List.append_nil]

theorem names_code (h : ∀ s ∈ b.machine.states, ':' ∉ s.constant.toList) :
    (b.code p).names.filterMap stateCase? =
      b.machine.states.map fun s => (s.constant, s.name.ident) := by
  have hhead : stateCase? ("const char* " ++ b.className ++
      "::getStateName(StateMachineStates state)") = none := by
    rw [stateCase?, between?_eq_none (by simp)]
    rfl
  have hbefore : stateCase? "\x7b" = none := by decide +kernel
  have hswitch : stateCase? ("switch (state)" ++ " \x7b") = none := by decide +kernel
  have hafter : (contents p [.code ("default: return " ++ cppString unknownState ++ ";")] ++
      ["\x7d"] ++ ["\x7d", ""]).filterMap stateCase? = [] := by
    cases p <;> decide +kernel
  rw [Bundle.code, Implementation.stateNameLines, contents_method, Line.braced, contents_enclose,
    contents_append, List.cons_append, List.cons_append, List.cons_append, List.cons_append,
    List.filterMap_cons_none hhead, List.filterMap_cons_none hbefore,
    List.filterMap_cons_none hswitch, List.append_assoc, List.append_assoc, List.filterMap_append,
    filterMap_stateCase? p h, ← List.append_assoc, hafter, List.append_nil]

/-- A change of state is reported before it is committed. -/
theorem transition_code : (Code.body (b.code p).transition).map (Statement.read? p) =
    [some (.opens "m_currentState == newState"), some .returns, some .closes,
      some (.logs "getStateName(m_currentState)" "getStateName(newState)"),
      some (.reports "getStateName(newState)"), some (.assigns "newState"), some .closes, none] := by
  have hhead : "void " ++ b.className ++ "::transitionToState(StateMachineStates newState)" ≠
      "\x7b" := by
    simp [← String.toList_inj]
  rw [Bundle.code, Implementation.transitionLines, body_method p hhead]
  cases p <;> decide +kernel

/-- A candidate behind a guard. -/
theorem read?_candidate (method target : String) :
    (contents p (Line.braced ("if (" ++ method ++ "())")
      [.code ("transitionToState(" ++ target ++ ");"), .code "break;"])).map (Statement.read? p) =
      [some (.opens (method ++ "()")), some (.moves target), some .breaks, some .closes] := by
  have hbreaks : Statement.read? p "break;" = some .breaks := by cases p <;> decide +kernel
  have hcloses : Statement.read? p "\x7d" = some .closes := by cases p <;> decide +kernel
  rw [Line.braced, contents_enclose]
  simp [contents, Line.code, LineContent.text, read?_guarded, read?_moves, hbreaks, hcloses]

end Lines

/-- A guarded block runs to its break or is passed over. -/
theorem Code.run_guarded {c : Code} {guard : String → Option Bool} {argument : Option Nat}
    {call : Nat → Store → Option Store} {s s' : Store} {condition target : String} {answer : Bool}
    (hholds : c.holds? guard argument s condition = some answer)
    (hmove : c.perform argument call s (.moves target) = some s')
    (rest : List (Option Statement)) :
    c.run guard argument call 0 0 ([some (Statement.opens condition), some (.moves target),
      some .breaks, some .closes] ++ rest) s =
      if answer then some (.broken, s') else c.run guard argument call 0 0 rest s := by
  cases answer <;> simp [run, hholds, hmove]

/-- What a transition to a state leaves. -/
def Store.moved (s : Store) (m : Machine) (target : Nat) : Store :=
  if s.current = target then s
  else ⟨target, s.calls ++ [SinkCall.log (m.stateName s.current) (m.stateName target),
    .telemetry (m.stateName target)]⟩

section Component

variable {c : Component} (hc : c.Enumerated) {b : Bundle} (hb : b.machine = c.synthesize)
  (p : Profile)

include hc

/-! ### States -/

theorem toNat_value {i : Nat} {s : Machine.State} (hs : c.synthesize.states[i]? = some s) :
    s.value.toNat = i := by
  have hlt := (List.getElem?_eq_some_iff.1 hs).1
  rw [Component.length_machineStates] at hlt
  rw [c.getElem?_machineStates, List.getElem?_eq_getElem hlt] at hs
  cases hs
  exact UInt32.toNat_ofNat_of_lt' (hlt.trans hc.size)

include hb

theorem valueOf?_constant {s : Machine.State} (hs : s ∈ c.synthesize.states) :
    (b.code p).valueOf? s.constant = some s.value.toNat := by
  rw [Code.valueOf?, enumeration_code, hb]
  · exact lookup_of_nodup hc.nodup hs
  · intro s hs
    exact (hc.names s (hb ▸ hs)).notMem rfl

/-- The switch over the states gives their names. -/
theorem nameOf?_state {i : Nat} (hi : i < c.states.length) :
    (b.code p).nameOf? i = some (c.synthesize.stateName i) := by
  obtain ⟨s, hs⟩ : ∃ s, c.synthesize.states[i]? = some s :=
    ⟨_, List.getElem?_eq_getElem (Component.length_machineStates.symm ▸ hi)⟩
  have hname : c.synthesize.stateName i = s.name.ident := by simp [Machine.stateName, hs]
  have hfind : (c.synthesize.states.map fun s => (s.constant, s.name.ident)).find?
      (fun entry => (b.code p).valueOf? entry.1 = some i) = some (s.constant, s.name.ident) := by
    refine find?_of_unique (List.mem_map.2 ⟨s, List.mem_of_getElem? hs, rfl⟩) ?_ ?_
    · simp [valueOf?_constant hc hb p (List.mem_of_getElem? hs), toNat_value hc hs]
    · intro entry hentry hvalue
      obtain ⟨s', hs', rfl⟩ := List.mem_map.1 hentry
      obtain ⟨j, hj⟩ := List.mem_iff_getElem?.1 hs'
      have hji : j = i := by
        simpa [valueOf?_constant hc hb p hs', toNat_value hc hj] using hvalue
      rw [hji, hs] at hj
      cases hj
      rfl
  rw [Code.nameOf?, names_code, hb]
  · simp only [hfind, hname]
  · intro s hs
    exact (hc.names s (hb ▸ hs)).notMem rfl

theorem state?_constantOf {i : Nat} (hi : i < c.states.length) (argument : Option Nat)
    (store : Store) :
    (b.code p).state? argument store (c.synthesize.constantOf i) = some i := by
  obtain ⟨s, hs⟩ : ∃ s, c.synthesize.states[i]? = some s :=
    ⟨_, List.getElem?_eq_getElem (Component.length_machineStates.symm ▸ hi)⟩
  have hconstant : c.synthesize.constantOf i = s.constant := by simp [Machine.constantOf, hs]
  have hcurrent : s.constant ≠ "m_currentState" := by
    simp [Machine.State.constant, ← String.toList_inj]
  have hargument : s.constant ≠ "newState" := by
    simp [Machine.State.constant, ← String.toList_inj]
  rw [hconstant, Code.state?, if_neg hcurrent, if_neg hargument,
    valueOf?_constant hc hb p (List.mem_of_getElem? hs), toNat_value hc hs]

/-! ### Moves -/

theorem transitionTo_state (guard : String → Option Bool) {i j : Nat} (hi : i < c.states.length)
    (hj : j < c.states.length) (calls : List SinkCall) :
    (b.code p).transitionTo guard j ⟨i, calls⟩ = some (Store.moved ⟨i, calls⟩ c.synthesize j) := by
  have hcompare : divide? " == " "m_currentState == newState" =
      some ("m_currentState", "newState") := by decide +kernel
  have hcurrent : between? "getStateName(" ")" "getStateName(m_currentState)" =
      some "m_currentState" := by decide +kernel
  have hargument : between? "getStateName(" ")" "getStateName(newState)" =
      some "newState" := by decide +kernel
  have hprofile : (b.code p).profile = p := rfl
  rw [Code.transitionTo, hprofile, transition_code, Store.moved]
  by_cases heq : i = j
  · simp [Code.run, Code.holds?, hcompare, Code.state?, heq]
  · simp [Code.run, Code.holds?, hcompare, Code.state?, heq, Code.perform, Code.string?, hcurrent,
      hargument, nameOf?_state hc hb p hi, nameOf?_state hc hb p hj]

/-! ### Candidates -/

variable {attributes : List (String × Value)}

omit hc hb in
theorem holds?_guard {g : Machine.Guard} (hg : g ∈ c.synthesize.guards) {answer : Bool}
    (hanswer : g.condition.eval (attributes.lookup ·) = .ok (.bool answer))
    (argument : Option Nat) (store : Store) :
    (b.code p).holds? (c.synthesize.answer? attributes) argument store (g.method ++ "()") =
      some answer := by
  have hname : IsName g.method := by
    obtain ⟨n, -, hn⟩ := List.mem_map.1 (map_method c ▸ List.mem_map.2 ⟨g, hg, rfl⟩)
    exact hn ▸ (isIdentifier_guardMethod n).1
  have hblank : ' ' ∉ g.method.toList := hname.notMem rfl
  have hcompare : divide? " == " (g.method ++ "()") = none :=
    divide?_eq_none rfl (c := ' ') (by simp [hblank])
  have hcall : between? "" "()" (g.method ++ "()") = some g.method := by
    have := between?_append "" "()" g.method
    rwa [String.empty_append] at this
  rw [Code.holds?, hcompare]
  simp only [hcall, Option.bind_some, Machine.answer?_method hg hanswer]

/-- The lines for a list of candidates make the first transition that is permitted. -/
theorem execute_candidates {state : Nat} (hstate : state < c.states.length) {candidates : List Nat}
    (hcandidates : ∀ i ∈ candidates, ∃ t, c.synthesize.transitions[i]? = some t ∧
      t.source = state ∧ t.target < c.states.length)
    (hdecided : c.synthesize.Decided attributes candidates) (calls : List SinkCall) :
    ∃ chosen ending, Execution.choose c.synthesize attributes candidates = .ok chosen ∧
      ending ≠ .returned ∧
      (b.code p).execute (c.synthesize.answer? attributes)
        (contents p (Implementation.candidateLines c.synthesize candidates)) ⟨state, calls⟩ =
        some (ending, chosen.elim ⟨state, calls⟩ fun t =>
          Store.moved ⟨state, calls⟩ c.synthesize t.target) := by
  have hprofile : (b.code p).profile = p := rfl
  induction candidates with
  | nil => exact ⟨none, .through, rfl, by decide, rfl⟩
  | cons i candidates ih =>
    obtain ⟨⟨t, ht, hsource, htarget⟩, hrest⟩ := List.forall_mem_cons.1 hcandidates
    have hmove : (b.code p).perform none ((b.code p).transitionTo (c.synthesize.answer? attributes))
        ⟨state, calls⟩ (.moves (c.synthesize.constantOf t.target)) =
        some (Store.moved ⟨state, calls⟩ c.synthesize t.target) := by
      rw [Code.perform, state?_constantOf hc hb p htarget]
      exact transitionTo_state hc hb p _ hstate htarget calls
    cases hguard : t.guard.bind (c.synthesize.guards[·]?) with
    | none =>
      refine ⟨some t, .through, choose_free ht candidates hguard, by decide, ?_⟩
      rw [candidateLines_free ht candidates hguard, Code.execute, hprofile]
      simp [contents, Line.code, LineContent.text, read?_moves, Code.run, hmove]
    | some g =>
      obtain ⟨answer, hanswer⟩ := hdecided i List.mem_cons_self t ht g hguard
      have hg : g ∈ c.synthesize.guards := by
        obtain ⟨k, -, hk⟩ := Option.bind_eq_some_iff.1 hguard
        exact List.mem_of_getElem? hk
      have hholds := holds?_guard (b := b) p hg hanswer none ⟨state, calls⟩
      rw [choose_guarded ht candidates hguard hanswer, Code.execute, hprofile,
        candidateLines_guarded ht candidates hguard, contents_append, List.map_append,
        read?_candidate, Code.run_guarded hholds hmove]
      cases answer with
      | true => exact ⟨some t, .broken, rfl, by decide, rfl⟩
      | false => exact ih hrest fun j hj => hdecided j (List.mem_cons_of_mem _ hj)

end Component

end Emitted

/-! ### Agreement -/

/-- A machine under way, as the emitted code keeps it. -/
def Execution.store (x : Execution) : Emitted.Store :=
  ⟨x.current.toNat, x.calls⟩

theorem Execution.store_take {c : Component} (hc : c.Enumerated) {x : Execution} {state : Nat}
    (hx : c.At x state) {t : Machine.Transition} (hsource : t.source = state)
    (htarget : t.target < c.states.length) :
    (x.take c.synthesize t).store = x.store.moved c.synthesize t.target := by
  have hcurrent : x.store.current = t.source := by
    rw [store, hx.current, hsource, UInt32.toNat_ofNat_of_lt' (hx.lt.trans hc.size)]
  rw [take_eq, Emitted.Store.moved, hcurrent]
  split
  · rfl
  · simp only [store, moved, c.valueOf_synthesize htarget,
      UInt32.toNat_ofNat_of_lt' (htarget.trans hc.size)]

theorem Component.Realizes.mem_offers {d : Definition.Component} {c : Component} (h : c.Realizes d)
    {state : Nat} {candidates : List Nat} (hoffers : c.synthesize.Offers state candidates) {i : Nat}
    (hi : i ∈ candidates) : ∃ t, c.synthesize.transitions[i]? = some t ∧ t.source = state ∧
      t.target < c.states.length := by
  obtain ⟨trigger, rfl⟩ : ∃ trigger, candidates = c.leaving state trigger := by
    obtain ⟨arm, harm, rfl, rfl⟩ | ⟨command, hcommand, harm⟩ := hoffers
    · obtain ⟨i, s, -, rfl⟩ := mem_arms harm
      exact ⟨none, rfl⟩
    · obtain ⟨k, d, -, rfl⟩ := c.mem_machineCommands.1 hcommand
      unfold machineCommand at harm
      split at harm
      · exact ⟨some k, (mem_commandArms.1 harm).2.1⟩
      · cases harm
  obtain ⟨t, ht, hsource, -⟩ := c.mem_leaving.1 hi
  obtain ⟨t', ht', hsource', htarget', -⟩ := c.getElem?_transitions ht
  exact ⟨t', ht', hsource'.trans hsource, htarget' ▸ h.target_lt ht⟩

theorem ModelStages.enumerated {d : Definition} {m : Model} (S : ModelStages d m) {c : Component}
    (hc : c ∈ m.components) (hsize : c.states.length < 2 ^ 32) : c.Enumerated := by
  obtain ⟨d, -, ⟨R⟩⟩ := exists_of_forall₂ S.componentRuns.flip hc
  refine ⟨hsize, R.nodup_constants, fun s hs => ?_⟩
  have hname : s.constant ∈ c.names := by
    simp only [Component.names, List.mem_append]
    exact .inl (.inl (.inr (List.mem_map_of_mem hs)))
  exact (R.isIdentifier_names _ hname).1

/-- For a state and any candidates that the machine has for it, the emitted lines run to the same
state and through the same effects as the machine. -/
theorem Model.execute_candidateLines {d : Definition} {m : Model} (h : Model.build d = .ok m)
    {c : Component} (hc : c ∈ m.components) (hsize : c.states.length < 2 ^ 32) {b : Bundle}
    (hb : b.machine = c.synthesize) (p : Profile) {state : Nat} (hstate : state < c.states.length)
    {candidates : List Nat} (hoffers : c.synthesize.Offers state candidates) {x : Execution}
    (hx : x.current = c.synthesize.valueOf state)
    (hdecided : c.synthesize.Decided x.attributes candidates) :
    ∃ x' ending, x.fire c.synthesize candidates = (.ok (), x') ∧ ending ≠ .returned ∧
      (b.code p).execute (c.synthesize.answer? x.attributes)
        (Emitted.contents p (Implementation.candidateLines c.synthesize candidates)) x.store =
        some (ending, x'.store) := by
  obtain ⟨S⟩ := exists_modelStages h
  obtain ⟨d, -, hrealizes⟩ := exists_of_forall₂ (Model.realizes_of_build h).flip hc
  have henum := S.enumerated hc hsize
  have hat : c.At x state := ⟨hstate, hx.trans (c.valueOf_synthesize hstate)⟩
  have hstore : x.store = ⟨state, x.calls⟩ := by
    rw [Execution.store, hat.current, UInt32.toNat_ofNat_of_lt' (hstate.trans hsize)]
  obtain ⟨chosen, ending, hchosen, hending, hrun⟩ := Emitted.execute_candidates henum hb p hstate
    (fun i hi => hrealizes.mem_offers hoffers hi) hdecided x.calls
  rw [← hstore] at hrun
  rw [Execution.fire, hchosen]
  cases chosen with
  | none => exact ⟨x, ending, rfl, hending, hrun⟩
  | some t =>
    obtain ⟨i, hi, ht⟩ := Execution.choose_eq_some hchosen
    obtain ⟨t', ht', hsource, htarget⟩ := hrealizes.mem_offers hoffers hi
    cases ht.symm.trans ht'
    refine ⟨x.take c.synthesize t, ending, rfl, hending, ?_⟩
    rw [Execution.store_take henum hat hsource htarget]
    exact hrun

namespace Sample

/-- A shut door with its switch off. -/
def shutDoor : Execution := Execution.new door.synthesize

theorem offers_push : door.synthesize.Offers 0 [0, 1] :=
  .inr ⟨_, door.mem_machineCommands.2 ⟨2, ⟨"PUSH", .trigger "push"⟩, rfl, rfl⟩, by decide⟩

theorem decided_push : door.synthesize.Decided shutDoor.attributes [0, 1] := by
  intro i hi t ht g hg
  simp only [List.mem_cons, List.not_mem_nil, or_false] at hi
  obtain rfl | rfl := hi <;> cases ht
  · cases hg
    exact ⟨false, rfl⟩
  · cases hg

/-- A push opens the door. The guard of the first candidate refuses it, and the second has none. -/
theorem execute_push : ∃ x' ending,
    shutDoor.fire door.synthesize [0, 1] = (.ok (), x') ∧ ending ≠ .returned ∧
      (Bundle.code ⟨door.synthesize, [], [], []⟩ .mock).execute
        (door.synthesize.answer? shutDoor.attributes)
        (Emitted.contents .mock (Implementation.candidateLines door.synthesize [0, 1]))
        shutDoor.store = some (ending, x'.store) :=
  Model.execute_candidateLines build_doorDefinition (by simp) (by decide) rfl .mock (by decide)
    offers_push rfl decided_push

end Sample

end FlightGen
