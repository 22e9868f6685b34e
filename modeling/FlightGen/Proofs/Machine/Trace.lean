import FlightGen.Proofs.Machine.Operation
import FlightGen.Proofs.Machine.Synthesis
import FlightGen.Proofs.Model.Wiring

/-! What a machine shows to its surroundings. Whatever is done to it, it stays in a declared
state, reports each state that it enters, and answers each command that it has carried out. -/

namespace FlightGen

open Execution (Fired moved)

/-! ### The states of a machine -/

namespace Component.Realizes

variable {d : Definition.Component} {c : Component} (h : c.Realizes d)

include h

/-- A machine in state `i` that fires what leaves `i` stays there, or moves to another state. -/
theorem fired_cases {x x' : Execution} {i : Nat} {trigger : Option Nat}
    {result : Except ExecutionError Unit}
    (hfired : Fired c.synthesize (c.leaving i trigger) x result x') :
    (∃ e, result = .error (.run e) ∧ x' = x) ∨ (result = .ok () ∧ x' = x) ∨
      (result = .ok () ∧ ∃ j < c.states.length, j ≠ i ∧ x' = x.moved c.synthesize i j) := by
  cases hfired with
  | failed e => exact .inl ⟨e, rfl, rfl⟩
  | rested => exact .inr (.inl ⟨rfl, rfl⟩)
  | @moved k t hk ht hne =>
    obtain ⟨t', ht', rfl, -⟩ := c.mem_leaving.1 hk
    obtain ⟨_, hsome, hsource, htarget, -⟩ := c.getElem?_transitions ht'
    cases ht.symm.trans hsome
    rw [hsource, htarget] at hne ⊢
    exact .inr (.inr ⟨rfl, _, h.target_lt ht', hne.symm, rfl⟩)

end Component.Realizes

/-! ### What an operation reports -/

/-- The transition that an operation of some kind reports, from state `i` on. -/
inductive Component.Reports (c : Component) (x : Execution) (i : Nat) (x' : Execution) :
    Option CommandKind → List SinkCall → Prop
  | start : c.At x' c.initial →
      c.Reports x i x' (some .start) [.log "INIT" (c.synthesize.stateName c.initial),
        .telemetry (c.synthesize.stateName c.initial)]
  | stop : c.At x' i → c.Reports x i x' (some .stop) [.log "ACTIVE" "STOPPED"]
  | rest {kind : Option CommandKind} : kind ≠ some .start → kind ≠ some .stop → c.At x' i →
      c.Reports x i x' kind []
  | move {kind : Option CommandKind} {j : Nat} : kind ≠ some .start → kind ≠ some .stop →
      x.active = true → j ≠ i → c.At x' j →
      c.Reports x i x' kind [.log (c.synthesize.stateName i) (c.synthesize.stateName j),
        .telemetry (c.synthesize.stateName j)]

/-- How an operation with some result is answered. -/
inductive Machine.Operation.Acknowledges : Operation → Except ExecutionError Unit → List SinkCall → Prop
  | answered (mnemonic : String) (opcode sequence : UInt32) (response : CommandResponse) :
      Acknowledges (.command mnemonic opcode sequence) (.ok ()) [.response opcode sequence response]
  | unknown (op : Operation) (component command : String) :
      Acknowledges op (.error (.unknownCommand component command)) []
  | failed (op : Operation) (e : RunError) : Acknowledges op (.error (.run e)) []
  | done {op : Operation} : (∀ mnemonic opcode sequence, op ≠ .command mnemonic opcode sequence) →
      Acknowledges op (.ok ()) []

/-- Only the state and the activity of the machine matter. -/
theorem Component.Reports.congr {c : Component} {x x' y y' : Execution} {i : Nat}
    {kind : Option CommandKind} {report : List SinkCall} (h : c.Reports x i x' kind report)
    (hactive : y.active = x.active) (hcurrent : y'.current = x'.current) :
    c.Reports y i y' kind report := by
  have hat : ∀ {j}, c.At x' j → c.At y' j := fun hj => ⟨hj.lt, hcurrent.trans hj.current⟩
  cases h with
  | start hj => exact .start (hat hj)
  | stop hj => exact .stop (hat hj)
  | rest hstart hstop hj => exact .rest hstart hstop (hat hj)
  | move hstart hstop hx hne hj => exact .move hstart hstop (hactive.trans hx) hne (hat hj)

namespace Component.Realizes

variable {d : Definition.Component} {c : Component} (h : c.Realizes d) {x : Execution} {i : Nat}

include h

theorem fire_reports (hat : c.At x i) (hactive : x.active = true) (trigger : Option Nat)
    {kind : Option CommandKind} (hstart : kind ≠ some .start) (hstop : kind ≠ some .stop) :
    ∃ report, (x.fire c.synthesize (c.leaving i trigger)).2.calls = x.calls ++ report ∧
      c.Reports x i (x.fire c.synthesize (c.leaving i trigger)).2 kind report ∧
      ((x.fire c.synthesize (c.leaving i trigger)).1 = .ok () ∨
        ∃ e, (x.fire c.synthesize (c.leaving i trigger)).1 = .error (.run e)) := by
  have hrest : c.Reports x i x kind [] := .rest hstart hstop hat
  obtain ⟨e, hresult, hx⟩ | ⟨hresult, hx⟩ | ⟨hresult, j, hj, hne, hx⟩ :=
    h.fired_cases (Execution.fire_cases (c.leaving i trigger))
  · rw [hx, hresult]
    exact ⟨[], by simp, hrest, .inr ⟨e, rfl⟩⟩
  · rw [hx, hresult]
    exact ⟨[], by simp, hrest, .inl rfl⟩
  · rw [hx, hresult]
    exact ⟨_, rfl, .move hstart hstop hactive hne ⟨hj, c.valueOf_synthesize hj⟩, .inl rfl⟩

variable (hsize : c.states.length < 2 ^ 32)

include hsize

theorem tick_reports (hat : c.At x i) (library : Option Library) :
    ∃ report, (x.tick c.synthesize library).2.calls = x.calls ++ report ∧
      c.Reports x i (x.tick c.synthesize library).2 none report ∧
      ((x.tick c.synthesize library).1 = .ok () ∨
        ∃ e, (x.tick c.synthesize library).1 = .error (.run e)) := by
  have hstart : (none : Option CommandKind) ≠ some .start := by simp
  have hstop : (none : Option CommandKind) ≠ some .stop := by simp
  have hrest : c.Reports x i x none [] := .rest hstart hstop hat
  by_cases hactive : x.active = true
  · obtain ⟨activities, htick⟩ := hat.tick c hsize hactive library
    rw [htick]
    obtain ⟨invoked, ⟨e, hfail⟩ | hfire⟩ := @Execution.dispatch_cases c.synthesize library x
      ⟨i, activities, c.leaving i none⟩
    · rw [hfail]
      exact ⟨[], by simp, hrest.congr rfl rfl, .inr ⟨e, rfl⟩⟩
    · rw [hfire]
      have hat' : c.At { x with invoked } i := ⟨hat.lt, hat.current⟩
      obtain ⟨report, hcalls, hreports, hresult⟩ := h.fire_reports hat' hactive none hstart hstop
      exact ⟨report, hcalls, hreports.congr rfl rfl, hresult⟩
  · rw [Execution.tick, if_neg hactive]
    exact ⟨[], by simp, hrest, .inl rfl⟩

omit hsize in
theorem start_reports (x : Execution) (i : Nat) :
    ∃ report, (x.start c.synthesize).calls = x.calls ++ report ∧
      c.Reports x i (x.start c.synthesize) (some .start) report := by
  rw [Execution.start_eq]
  exact ⟨_, rfl, .start ⟨h.initial_lt, c.valueOf_synthesize h.initial_lt⟩⟩

/-- What a command does before it is answered. -/
theorem obey_reports (hat : c.At x i) (k : Nat) (e : Command) :
    ∃ result x' report, x.obey c.synthesize (c.machineCommand k e) = (result, x') ∧
      x'.calls = x.calls ++ report ∧ c.Reports x i x' (some e.kind) report ∧
      ((∃ response, result = .ok response) ∨ ∃ error, result = .error (.run error)) := by
  have hkind := c.kind_machineCommand k e
  cases he : e.kind with
  | start =>
    rw [Execution.obey_start (hkind.trans he)]
    obtain ⟨report, hcalls, hreports⟩ := h.start_reports x i
    exact ⟨_, _, report, rfl, hcalls, hreports, .inl ⟨.ok, rfl⟩⟩
  | stop =>
    rw [Execution.obey_stop (hkind.trans he)]
    exact ⟨_, _, _, rfl, rfl, .stop ⟨hat.lt, hat.current⟩, .inl ⟨.ok, rfl⟩⟩
  | trigger signal =>
    have hstart : some (CommandKind.trigger signal) ≠ some .start := by simp
    have hstop : some (CommandKind.trigger signal) ≠ some .stop := by simp
    cases hactive : x.active with
    | false =>
      rw [Execution.obey_inactive (hkind.trans he) hactive]
      exact ⟨_, _, [], rfl, by simp, .rest hstart hstop hat, .inl ⟨.executionError, rfl⟩⟩
    | true =>
      rw [Execution.obey_active (hkind.trans he) hactive, hat.trigger c hsize he]
      obtain ⟨report, hcalls, hreports, hresult⟩ :=
        h.fire_reports hat hactive (some k) hstart hstop
      refine ⟨_, _, report, rfl, hcalls, hreports, ?_⟩
      obtain hok | ⟨error, herror⟩ := hresult
      · exact .inl ⟨.ok, by rw [hok]; rfl⟩
      · exact .inr ⟨error, by rw [herror]; rfl⟩

theorem command_reports (hat : c.At x i) (mnemonic : String) (opcode sequence : UInt32) :
    ∃ report answer,
      (x.command c.synthesize mnemonic opcode sequence).2.calls = x.calls ++ (report ++ answer) ∧
      c.Reports x i (x.command c.synthesize mnemonic opcode sequence).2
        ((c.synthesize.command? mnemonic).map (·.kind)) report ∧
      Machine.Operation.Acknowledges (.command mnemonic opcode sequence)
        (x.command c.synthesize mnemonic opcode sequence).1 answer := by
  cases hcommand : c.synthesize.command? mnemonic with
  | none =>
    rw [Execution.command_unknown hcommand]
    exact ⟨[], [], by simp, .rest (by simp) (by simp) hat, .unknown _ _ _⟩
  | some command =>
    obtain ⟨k, e, -, -, rfl⟩ := c.command?_eq_some hcommand
    rw [Option.map_some, kind_machineCommand]
    obtain ⟨_, x', report, hobey, hcalls, hreports, ⟨response, rfl⟩ | ⟨error, rfl⟩⟩ :=
      h.obey_reports hsize hat k e
    · rw [Execution.command_ok hcommand hobey]
      refine ⟨report, [.response opcode sequence response], ?_, hreports.congr rfl rfl, .answered _ _ _ _⟩
      simp [Execution.emit, hcalls]
    · rw [Execution.command_error hcommand hobey]
      exact ⟨report, [], by simpa using hcalls, hreports, .failed _ _⟩

/-- What an operation adds to the trace: the report of a transition, then the answer. -/
theorem perform_reports (hat : c.At x i) (library : Option Library) (op : Machine.Operation) :
    ∃ report answer,
      (x.perform c.synthesize library op).2.calls = x.calls ++ (report ++ answer) ∧
      c.Reports x i (x.perform c.synthesize library op).2 (op.kind? c.synthesize) report ∧
      op.Acknowledges (x.perform c.synthesize library op).1 answer := by
  cases op with
  | start =>
    obtain ⟨report, hcalls, hreports⟩ := h.start_reports x i
    exact ⟨report, [], hcalls.trans (by simp), hreports, .done (by simp)⟩
  | stop => exact ⟨_, [], rfl, .stop ⟨hat.lt, hat.current⟩, .done (by simp)⟩
  | command mnemonic opcode sequence => exact h.command_reports hsize hat mnemonic opcode sequence
  | tick =>
    obtain ⟨report, hcalls, hreports, hresult⟩ := h.tick_reports hsize hat library
    refine ⟨report, [], hcalls.trans (by simp), hreports, ?_⟩
    show Machine.Operation.Acknowledges .tick (x.tick c.synthesize library).1 []
    obtain hok | ⟨e, herror⟩ := hresult
    · rw [hok]
      exact .done (by simp)
    · rw [herror]
      exact .failed _ e
  | set ident value =>
    refine ⟨[], [], ?_, ?_, .done (by simp)⟩
    · rw [Execution.perform, Execution.set_eq]
      simp
    · rw [Execution.perform, Execution.set_eq]
      exact .rest (by simp [Machine.Operation.kind?]) (by simp [Machine.Operation.kind?])
        ⟨hat.lt, hat.current⟩

end Component.Realizes

/-! ### The contract of a trace -/

def SinkCall.isResponse : SinkCall → Bool
  | response _ _ _ => true
  | _ => false

/-- The name of the current state. -/
def Execution.stateName (m : Machine) (x : Execution) : String :=
  ((m.stateOf? x.current).map m.stateName).getD unknownState

/-- Each telemetry comes right after a log that leads to its state. -/
def TelemetryLogged (calls : List SinkCall) : Prop :=
  ∀ before state after, calls = before ++ .telemetry state :: after →
    ∃ earlier source, before = earlier ++ [.log source state]

/-- The last telemetry shows this state. -/
def LastTelemetry (calls : List SinkCall) (state : String) : Prop :=
  ∃ before after, calls = before ++ .telemetry state :: after ∧
    ∀ call ∈ after, call.isTelemetry = false

/-- What an operation with some result may add to the trace of an execution. -/
structure Execution.Contract (m : Machine) (x : Execution) (op : Machine.Operation)
    (result : Except ExecutionError Unit) (new : List SinkCall) : Prop where
  reachable : ∀ component value, result ≠ .error (.unreachableState component value)
  log : op.kind? m ≠ some .start → op.kind? m ≠ some .stop → ∀ before source target after,
    new = before ++ .log source target :: after →
      source = x.stateName m ∧ (∃ state ∈ m.states, target = state.name.ident) ∧ target ≠ source ∧
        ∃ rest, after = .telemetry target :: rest
  stop : op.kind? m = some .stop → ∃ answer, new = .log "ACTIVE" "STOPPED" :: answer ∧
    ∀ call ∈ answer, call.isResponse = true
  idle : x.active = false → op.kind? m ≠ some .start → op.kind? m ≠ some .stop →
    ∀ call ∈ new, call.isResponse = true
  answered : ∀ mnemonic opcode sequence, op = .command mnemonic opcode sequence → result = .ok () →
    ∃ before response, new = before ++ [.response opcode sequence response] ∧
      ∀ call ∈ before, call.isResponse = false
  silent : (∀ mnemonic opcode sequence, op ≠ .command mnemonic opcode sequence) ∨ result ≠ .ok () →
    ∀ call ∈ new, call.isResponse = false

/-- What holds of an execution after some operations, whatever comes next. -/
structure Execution.Faithful (m : Machine) (library : Option Library)
    (history : List Machine.Operation) (x : Execution) : Prop where
  declared : ∃ i, m.stateOf? x.current = some i
  logged : TelemetryLogged x.calls
  last : (∃ op ∈ history, op.kind? m = some .start) → LastTelemetry x.calls (x.stateName m)
  next : ∀ op, ∃ new, (x.perform m library op).2.calls = x.calls ++ new ∧
    x.Contract m op (x.perform m library op).1 new

theorem TelemetryLogged.append {xs ys : List SinkCall} (hx : TelemetryLogged xs)
    (hy : TelemetryLogged ys) : TelemetryLogged (xs ++ ys) := by
  intro before state after h
  obtain ⟨middle, rfl, hys⟩ | ⟨middle, rfl, hxs⟩ := List.append_eq_append_iff.1 h
  · obtain ⟨earlier, source, rfl⟩ := hy middle state after hys
    exact ⟨xs ++ earlier, source, by simp⟩
  · cases middle with
    | nil =>
      obtain ⟨earlier, source, hnil⟩ := hy [] state after hxs.symm
      simp at hnil
    | cons call rest =>
      obtain ⟨rfl, -⟩ := List.cons.inj hxs
      exact hx before state rest rfl

theorem telemetryLogged_of_none {calls : List SinkCall}
    (h : ∀ call ∈ calls, call.isTelemetry = false) : TelemetryLogged calls := by
  rintro before state after rfl
  simpa [SinkCall.isTelemetry] using h (.telemetry state) (by simp)

theorem telemetryLogged_pair (source target : String) :
    TelemetryLogged [.log source target, .telemetry target] := by
  rintro (_ | ⟨first, _ | ⟨second, before⟩⟩) state after h
  · simp at h
  · obtain ⟨rfl, rfl, -⟩ : SinkCall.log source target = first ∧ target = state ∧ [] = after := by
      simpa using h
    exact ⟨[], source, rfl⟩
  · simp at h

theorem LastTelemetry.append {calls more : List SinkCall} {state : String}
    (h : LastTelemetry calls state) (hmore : ∀ call ∈ more, call.isTelemetry = false) :
    LastTelemetry (calls ++ more) state := by
  obtain ⟨before, after, rfl, hafter⟩ := h
  exact ⟨before, after ++ more, by simp, List.forall_mem_append.2 ⟨hafter, hmore⟩⟩

theorem Machine.Operation.Acknowledges.isResponse {op : Operation} {result : Except ExecutionError Unit}
    {answer : List SinkCall} (h : op.Acknowledges result answer) :
    ∀ call ∈ answer, call.isResponse = true := by
  cases h <;> simp [SinkCall.isResponse]

theorem not_isTelemetry_of_isResponse {call : SinkCall} (h : call.isResponse = true) :
    call.isTelemetry = false := by
  cases call <;> first | rfl | cases h

theorem Component.Reports.not_isResponse {c : Component} {x x' : Execution} {i : Nat}
    {kind : Option CommandKind} {report : List SinkCall} (h : c.Reports x i x' kind report) :
    ∀ call ∈ report, call.isResponse = false := by
  cases h <;> simp [SinkCall.isResponse]

theorem Component.Reports.telemetryLogged {c : Component} {x x' : Execution} {i : Nat}
    {kind : Option CommandKind} {report : List SinkCall} (h : c.Reports x i x' kind report) :
    TelemetryLogged report := by
  cases h with
  | start _ => exact telemetryLogged_pair _ _
  | stop _ => exact telemetryLogged_of_none (by simp [SinkCall.isTelemetry])
  | rest _ _ _ => exact telemetryLogged_of_none (by simp)
  | move _ _ _ _ _ => exact telemetryLogged_pair _ _

/-- A report ends with the telemetry of the state that the machine is in, or the machine
stays in its state. -/
theorem Component.Reports.lastTelemetry {c : Component} {x x' : Execution} {i : Nat}
    {kind : Option CommandKind} {report : List SinkCall} (h : c.Reports x i x' kind report) :
    ∃ j, c.At x' j ∧ (LastTelemetry report (c.synthesize.stateName j) ∨
      kind ≠ some .start ∧ j = i ∧ ∀ call ∈ report, call.isTelemetry = false) := by
  cases h with
  | start hat => exact ⟨_, hat, .inl ⟨[_], [], rfl, by simp⟩⟩
  | stop hat => exact ⟨_, hat, .inr ⟨by simp, rfl, by simp [SinkCall.isTelemetry]⟩⟩
  | rest hstart _ hat => exact ⟨_, hat, .inr ⟨hstart, rfl, by simp⟩⟩
  | move _ _ _ _ hat => exact ⟨_, hat, .inl ⟨[_], [], rfl, by simp⟩⟩

theorem Component.At.stateName_eq {c : Component} {x : Execution} {i : Nat} (h : c.At x i)
    (hsize : c.states.length < 2 ^ 32) : x.stateName c.synthesize = c.synthesize.stateName i := by
  rw [Execution.stateName, h.stateOf? c hsize]
  rfl

namespace Component.Realizes

variable {d : Definition.Component} {c : Component} (h : c.Realizes d) {x x' : Execution} {i : Nat}

include h

theorem stateName_ne {j : Nat} (hi : i < c.states.length) (hj : j < c.states.length) (hne : j ≠ i) :
    c.synthesize.stateName j ≠ c.synthesize.stateName i := by
  intro heq
  rw [c.stateName_synthesize (List.getElem?_eq_getElem hj),
    c.stateName_synthesize (List.getElem?_eq_getElem hi)] at heq
  refine hne ((List.getElem?_inj (by simpa using hj) h.stateIdents).1 ?_)
  rw [List.getElem?_map, List.getElem?_map, List.getElem?_eq_getElem hj,
    List.getElem?_eq_getElem hi, Option.map_some, Option.map_some, heq]

/-- A log other than those of start and stop is the one of a move, as answers hold none. -/
theorem log_of_reports (hsize : c.states.length < 2 ^ 32) (hat : c.At x i) {kind : Option CommandKind}
    {report answer : List SinkCall} (hreports : c.Reports x i x' kind report)
    (hanswer : ∀ call ∈ answer, call.isResponse = true) (hstart : kind ≠ some .start)
    (hstop : kind ≠ some .stop) {before after : List SinkCall} {source target : String}
    (heq : report ++ answer = before ++ .log source target :: after) :
    source = x.stateName c.synthesize ∧
      (∃ state ∈ c.synthesize.states, target = state.name.ident) ∧ target ≠ source ∧
      ∃ rest, after = .telemetry target :: rest := by
  have hnone : SinkCall.log source target ∉ answer := by
    intro hmem
    simpa [SinkCall.isResponse] using hanswer _ hmem
  cases hreports with
  | start _ => exact absurd rfl hstart
  | stop _ => exact absurd rfl hstop
  | rest _ _ _ =>
    rw [List.nil_append] at heq
    exact absurd (heq ▸ List.mem_append_cons_self) hnone
  | @move _ j _ _ _ hne hat' =>
    rcases before with _ | ⟨first, _ | ⟨second, before⟩⟩
    · obtain ⟨⟨rfl, rfl⟩, rfl⟩ : (c.synthesize.stateName i = source ∧ c.synthesize.stateName j = target) ∧
          .telemetry (c.synthesize.stateName j) :: answer = after := by
        simpa using heq
      exact ⟨(hat.stateName_eq hsize).symm, c.stateName_mem hat'.lt, h.stateName_ne hat.lt hat'.lt hne,
        answer, rfl⟩
    · simp at heq
    · obtain ⟨-, -, rfl⟩ : _ ∧ _ ∧ answer = before ++ .log source target :: after := by simpa using heq
      exact absurd List.mem_append_cons_self hnone

/-- A report and an answer keep the contract. -/
theorem contract (hsize : c.states.length < 2 ^ 32) (hat : c.At x i) {op : Machine.Operation}
    {result : Except ExecutionError Unit} {report answer : List SinkCall}
    (hreports : c.Reports x i x' (op.kind? c.synthesize) report)
    (hacknowledges : op.Acknowledges result answer) :
    x.Contract c.synthesize op result (report ++ answer) where
  reachable component value := by
    cases hacknowledges <;> simp
  log hstart hstop _ _ _ _ := h.log_of_reports hsize hat hreports hacknowledges.isResponse hstart hstop
  stop hstop := by
    generalize op.kind? c.synthesize = kind at hreports hstop
    subst hstop
    cases hreports with
    | stop _ => exact ⟨answer, rfl, hacknowledges.isResponse⟩
    | rest _ hne _ => exact absurd rfl hne
    | move _ hne _ _ _ => exact absurd rfl hne
  idle hactive hstart hstop := by
    generalize op.kind? c.synthesize = kind at hreports hstart hstop
    cases hreports with
    | start _ => exact absurd rfl hstart
    | stop _ => exact absurd rfl hstop
    | rest _ _ _ => exact hacknowledges.isResponse
    | move _ _ hmoved _ _ => simp [hactive] at hmoved
  answered mnemonic opcode sequence hop hresult := by
    subst hop hresult
    cases hacknowledges with
    | answered _ _ _ response => exact ⟨report, response, rfl, hreports.not_isResponse⟩
    | done hne => exact absurd rfl (hne mnemonic opcode sequence)
  silent hsilent := by
    cases hacknowledges with
    | answered mnemonic opcode sequence response =>
      obtain hne | hne := hsilent
      · exact absurd rfl (hne mnemonic opcode sequence)
      · exact absurd rfl hne
    | unknown _ _ _ => simpa using hreports.not_isResponse
    | failed _ _ => simpa using hreports.not_isResponse
    | done _ => simpa using hreports.not_isResponse

/-- The trace so far, with the state that the machine has come to. -/
theorem performAll_reports (hsize : c.states.length < 2 ^ 32) (library : Option Library)
    (history : List Machine.Operation) :
    ∃ i, c.At ((Execution.new c.synthesize).performAll c.synthesize library history).2 i ∧
      TelemetryLogged ((Execution.new c.synthesize).performAll c.synthesize library history).2.calls ∧
      ((∃ op ∈ history, op.kind? c.synthesize = some .start) →
        LastTelemetry ((Execution.new c.synthesize).performAll c.synthesize library history).2.calls
          (c.synthesize.stateName i)) := by
  refine Execution.performAll_invariant
    (P := fun history x => ∃ i, c.At x i ∧ TelemetryLogged x.calls ∧
      ((∃ op ∈ history, op.kind? c.synthesize = some .start) →
        LastTelemetry x.calls (c.synthesize.stateName i))) ?_ ?_ history
  · exact ⟨c.initial, ⟨h.initial_lt, c.valueOf_synthesize h.initial_lt⟩,
      telemetryLogged_of_none (by simp [Execution.new]), by simp⟩
  · rintro history x op ⟨i, hat, hlogged, hlast⟩
    obtain ⟨report, answer, hcalls, hreports, hacknowledges⟩ := h.perform_reports hsize hat library op
    have hquiet : ∀ call ∈ answer, call.isTelemetry = false := fun call hcall =>
      not_isTelemetry_of_isResponse (hacknowledges.isResponse call hcall)
    obtain ⟨j, hat', hreport⟩ := hreports.lastTelemetry
    refine ⟨j, hat', ?_, fun hstarted => ?_⟩
    · rw [hcalls]
      exact hlogged.append (hreports.telemetryLogged.append (telemetryLogged_of_none hquiet))
    · rw [hcalls]
      obtain ⟨before, after, rfl, hafter⟩ | ⟨hstart, rfl, hreport⟩ := hreport
      · exact ⟨x.calls ++ before, after ++ answer, by simp, List.forall_mem_append.2 ⟨hafter, hquiet⟩⟩
      · refine (hlast ?_).append (List.forall_mem_append.2 ⟨hreport, hquiet⟩)
        obtain ⟨op', hmem, hkind⟩ := hstarted
        obtain hmem | hmem := List.mem_append.1 hmem
        · exact ⟨op', hmem, hkind⟩
        · exact absurd hkind (List.mem_singleton.1 hmem ▸ hstart)

end Component.Realizes

/-- Whatever is done to the machine of a built component, it stays in a declared state, and its
trace keeps the contract. -/
theorem performAll_faithful {definition : Definition} {model : Model}
    (hbuild : Model.build definition = .ok model) {c : Component} (hc : c ∈ model.components)
    (hsize : c.states.length < 2 ^ 32) (library : Option Library)
    (history : List Machine.Operation) :
    Execution.Faithful c.synthesize library history
      ((Execution.new c.synthesize).performAll c.synthesize library history).2 := by
  obtain ⟨d, -, h⟩ := exists_of_forall₂ (Model.realizes_of_build hbuild).flip hc
  obtain ⟨i, hat, hlogged, hlast⟩ := Component.Realizes.performAll_reports h hsize library history
  refine ⟨⟨i, hat.stateOf? c hsize⟩, hlogged, fun hstarted => ?_, fun op => ?_⟩
  · rw [hat.stateName_eq hsize]
    exact hlast hstarted
  · obtain ⟨report, answer, hcalls, hreports, hacknowledges⟩ :=
      Component.Realizes.perform_reports h hsize hat library op
    exact ⟨_, hcalls, Component.Realizes.contract h hsize hat hreports hacknowledges⟩

namespace Sample

def doorHistory : List Machine.Operation :=
  [.start, .command "PUSH" 7 1, .command "PUSH" 7 2, .tick, .set "switch_" (.bool true),
    .command "PUSH" 7 3, .stop, .tick, .command "PUSH" 7 4]

theorem performAll_faithful_door :
    ((Execution.new door.synthesize).performAll door.synthesize none doorHistory).2.calls =
      [.log "INIT" "Shut", .telemetry "Shut", .log "Shut" "Wide_open", .telemetry "Wide_open",
        .response 7 1 .ok, .response 7 2 .ok, .log "Wide_open" "Shut", .telemetry "Shut",
        .response 7 3 .ok, .log "ACTIVE" "STOPPED", .response 7 4 .executionError] ∧
    Execution.Faithful door.synthesize none doorHistory
      ((Execution.new door.synthesize).performAll door.synthesize none doorHistory).2 :=
  ⟨by decide +kernel,
    performAll_faithful build_doorDefinition (by decide) (by decide) none doorHistory⟩

end Sample

end FlightGen
