import Mathlib.Logic.Relation
import FlightGen.Proofs.Compilation
import FlightGen.Proofs.Flow.Interface

/-! The outcome of a request. Whether an activity compiles, and to which routine, is a
matter of the model alone: no calls lead back to where they came from, and every activity
that can be reached is lowered by itself, given the interfaces of those it calls. What was
requested before makes no difference. -/

namespace FlightGen

open Relation (ReflTransGen TransGen)

/-! ### Calls -/

/-- An activity has a node that calls another one. -/
def Component.Calls (c : Component) (i j : Nat) : Prop :=
  ∃ a, c.activities[i]? = some a ∧ CallsAmong a.nodes j

/-- No body of an activity declares a language. -/
def Activity.Supported (a : Activity) : Prop :=
  ∀ n ∈ a.nodes, n.action.language? = none

theorem checkLanguages_eq_ok {path : String} {nodes : List Node} :
    checkLanguages path nodes = .ok () ↔ ∀ n ∈ nodes, n.action.language? = none := by
  induction nodes with
  | nil => simp [checkLanguages]
  | cons n nodes ih =>
    rw [checkLanguages, List.forall_mem_cons]
    cases hn : n.action.language? with
    | none => simp [ih]
    | some language => simp

/-! ### Lowering by interfaces -/

namespace Model

variable {m : Model} {c : Component} {i : Nat} {a : Activity}

/-- An activity with routines behind its calls. -/
def flow (m : Model) (c : Component) (i : Nat) (a : Activity) (callees : List (Nat × Routine)) :
    Flow :=
  ⟨m.recordTypes, c, a, c.activityPath i, callees⟩

/-- What is known of the routine that an action calls. -/
def interface? (m : Model) (c : Component) : Action → Option Routine
  | .call target _ => c.activities[target]?.map fun a => (m.flow c target a []).interface
  | _ => none

def interfaces (m : Model) (c : Component) (a : Activity) : List (Nat × Routine) :=
  (List.range a.nodes.length).filterMap fun n => (m.interface? c (a.action n)).map (n, ·)

/-- Lowers an activity by itself, given the interfaces of the activities it calls. -/
def lower (m : Model) (c : Component) (i : Nat) (a : Activity) : Except ModelError Routine :=
  (m.flow c i a (m.interfaces c a)).lower

/-- No calls from an activity lead into a cycle, and every activity that they lead to can
be lowered. -/
structure Compilable (m : Model) (c : Component) (i : Nat) : Prop where
  acyclic : ∀ j, ReflTransGen c.Calls i j → ¬ TransGen c.Calls j j
  lowers : ∀ j, ReflTransGen c.Calls i j →
    ∃ a, c.activities[j]? = some a ∧ a.Supported ∧ ∃ r, m.lower c j a = .ok r

/-- An activity compiles if the activities it calls do and it can be lowered. -/
theorem compilable_iff (ha : c.activities[i]? = some a) :
    m.Compilable c i ↔
      a.Supported ∧ (∀ j, CallsAmong a.nodes j → m.Compilable c j) ∧ ∃ r, m.lower c i a = .ok r := by
  constructor
  · intro h
    obtain ⟨a', ha', hsupported, hlower⟩ := h.lowers i .refl
    cases ha.symm.trans ha'
    refine ⟨hsupported, fun j hj => ?_, hlower⟩
    have hcall : c.Calls i j := ⟨a, ha, hj⟩
    exact ⟨fun k hk => h.acyclic k (.head hcall hk), fun k hk => h.lowers k (.head hcall hk)⟩
  · rintro ⟨hsupported, hcalls, hlower⟩
    have hcallee {j : Nat} (hj : c.Calls i j) : m.Compilable c j := by
      obtain ⟨a', ha', hj⟩ := hj
      cases ha.symm.trans ha'
      exact hcalls j hj
    constructor
    · intro k hk hcycle
      obtain rfl | ⟨j, hj, hk⟩ := ReflTransGen.cases_head hk
      -- A cycle through the activity itself runs through one that it calls.
      · obtain ⟨j, hj, hback⟩ := TransGen.head'_iff.1 hcycle
        exact (hcallee hj).acyclic i hback hcycle
      · exact (hcallee hj).acyclic k hk hcycle
    · intro k hk
      obtain rfl | ⟨j, hj, hk⟩ := ReflTransGen.cases_head hk
      · exact ⟨a, ha, hsupported, hlower⟩
      · exact (hcallee hj).lowers k hk

/-- An activity compiles to a routine. -/
def CompilesTo (m : Model) (c : Component) (i : Nat) (r : Routine) : Prop :=
  m.Compilable c i ∧ ∃ a, c.activities[i]? = some a ∧ m.lower c i a = .ok r

/-- A result is the right one for an activity: its routine, or an error if it has none. -/
def Outcome (m : Model) (c : Component) (i : Nat) (x : Except CompileError Routine) : Prop :=
  ∀ r, x = .ok r ↔ m.CompilesTo c i r

theorem Compilable.exists_routine (h : m.Compilable c i) : ∃ r, m.CompilesTo c i r := by
  obtain ⟨a, ha, -, r, hr⟩ := h.lowers i .refl
  exact ⟨r, h, a, ha, hr⟩

theorem outcome_error (h : ¬ m.Compilable c i) (e : CompileError) : m.Outcome c i (.error e) :=
  fun _ => ⟨nofun, fun hr => absurd hr.1 h⟩

theorem Outcome.not_compilable {e : CompileError} (h : m.Outcome c i (.error e)) :
    ¬ m.Compilable c i := by
  intro hc
  obtain ⟨r, hr⟩ := hc.exists_routine
  cases (h r).2 hr

theorem Outcome.exists_ok_iff {x : Except CompileError Routine} (h : m.Outcome c i x) :
    (∃ r, x = .ok r) ↔ m.Compilable c i := by
  constructor
  · rintro ⟨r, hr⟩
    exact ((h r).1 hr).1
  · intro hc
    obtain ⟨r, hr⟩ := hc.exists_routine
    exact ⟨r, (h r).2 hr⟩

end Model

/-! ### Interfaces of called activities -/

theorem lookup_filterMap {β : Type} (g : Nat → Option β) (xs : List Nat) (n : Nat) :
    (xs.filterMap fun i => (g i).map (i, ·)).lookup n = if n ∈ xs then g n else none := by
  induction xs with
  | nil => rfl
  | cons i xs ih =>
    rw [List.filterMap_cons]
    cases hi : g i with
    | none =>
      rw [Option.map_none, ih]
      by_cases hn : n = i
      · simp [hn, hi]
      · simp [hn]
    | some b =>
      rw [Option.map_some, List.lookup_cons, ih]
      by_cases hn : n = i
      · simp [hn, hi]
      · simp [hn, beq_eq_false_iff_ne.2 hn]

section

variable {m : Model} {c : Component} {i : Nat} {a : Activity}

theorem Model.lookup_interfaces {n target : Nat} {arguments : List Argument} {callee : Activity}
    (hn : a.action n = .call target arguments) (hcallee : c.activities[target]? = some callee) :
    (m.interfaces c a).lookup n = some (m.flow c target callee []).interface := by
  have hlt : n < a.nodes.length := by
    by_contra hn'
    simp [Activity.action, List.getElem?_eq_none (not_lt.1 hn')] at hn
  rw [Model.interfaces, lookup_filterMap, if_pos (List.mem_range.2 hlt), hn, interface?, hcallee]
  rfl

/-- A routine looks like the interface of its activity. -/
theorem Model.CompilesTo.interface {r : Routine} (h : m.CompilesTo c i r)
    (ha : c.activities[i]? = some a) : r.interface = (m.flow c i a []).interface := by
  obtain ⟨-, a', ha', hr⟩ := h
  cases ha.symm.trans ha'
  exact (Flow.interface_of_lower hr :)

/-- With their routines behind its calls, an activity is lowered as it is by itself. -/
theorem lower_of_callees {callees : List (Nat × Routine)}
    (h : ∀ n target arguments, a.action n = .call target arguments →
      ∃ r, callees.lookup n = some r ∧ m.CompilesTo c target r) :
    (m.flow c i a callees).lower = m.lower c i a := by
  have halike : (m.flow c i a callees).Alike (m.interfaces c a) := by
    intro n target arguments (hn : a.action n = .call target arguments)
    obtain ⟨r, hlookup, hr⟩ := h n target arguments hn
    obtain ⟨callee, hcallee, -⟩ := hr.2
    have hflow : (m.flow c i a callees).callees.lookup n = some r := hlookup
    rw [Model.lookup_interfaces hn hcallee, hflow, Option.map_some, Option.map_some,
      hr.interface hcallee]
    rfl
  exact (Flow.lower_withCallees halike).symm

end

/-! ### Requests -/

/-- Every result is the right one for its activity. -/
def Results.Correct (m : Model) (results : Results) : Prop :=
  ∀ c ∈ m.components, ∀ i < c.activities.length, ∀ x, (c.qualified i, x) ∈ results →
    m.Outcome c i x

theorem Results.Correct.snoc {m : Model} {results : Results} (hm : m.Resolved)
    (h : Results.Correct m results) {c : Component} (hc : c ∈ m.components) {i : Nat}
    (hi : i < c.activities.length) {x : Except CompileError Routine} (hx : m.Outcome c i x) :
    Results.Correct m (results ++ [(c.qualified i, x)]) := by
  intro c' hc' i' hi' x' hmem
  obtain hmem | hmem := List.mem_append.1 hmem
  · exact h c' hc' i' hi' x' hmem
  · obtain ⟨hname, rfl⟩ := Prod.mk.inj (List.mem_singleton.1 hmem)
    obtain ⟨rfl, rfl⟩ := hm.qualified_injective hc' hc hi' hi hname
    exact hx

/-- All activities in progress wait for activity `i`. -/
def Waiting (c : Component) (s : Compilation) (i : Nat) : Prop :=
  ∀ name ∈ s.stack, ∃ j < c.activities.length, name = c.qualified j ∧ TransGen c.Calls j i

/-- A request is answered with the right result, and leaves only such results. -/
def Settles (m : Model) (c : Component) : Judgment := fun s i x s' =>
  Results.Correct m s.results → Waiting c s i → i < c.activities.length →
    Results.Correct m s'.results ∧ m.Outcome c i x

section

variable {m : Model} {c : Component} {s s' : Compilation} {i : Nat} {a : Activity}
  {x : Except CompileError Routine}

theorem Waiting.enter (h : Waiting c s i) (ha : c.activities[i]? = some a) {j : Nat}
    (hj : CallsAmong a.nodes j) (hs' : s'.stack = c.qualified i :: s.stack) : Waiting c s' j := by
  have hcall : c.Calls i j := ⟨a, ha, hj⟩
  intro name hname
  rw [hs'] at hname
  obtain rfl | hname := List.mem_cons.1 hname
  · exact ⟨i, (List.getElem?_eq_some_iff.1 ha).1, rfl, .single hcall⟩
  · obtain ⟨k, hk, rfl, hpath⟩ := h name hname
    exact ⟨k, hk, rfl, hpath.tail hcall⟩

/-- Called activities are activities of the component. -/
theorem lt_of_callsAmong (hm : m.Resolved) (hc : c ∈ m.components)
    (ha : c.activities[i]? = some a) {j : Nat} (hj : CallsAmong a.nodes j) :
    j < c.activities.length := by
  obtain ⟨n, hn, arguments, haction⟩ := hj
  exact (hm.components c hc).calls a (List.mem_of_getElem? ha) n hn j arguments haction

/-- The requests for the called activities are answered with the right results. -/
theorem settle_callees (hm : m.Resolved) (hc : c ∈ m.components) (hp : Pending c s i a)
    (hs : Results.Correct m s.results) (hw : Waiting c s i) {path : String}
    {y : Except CompileError (List (Nat × Routine))}
    (h : Callees (fun s i x s' => s.Grows s' ∧ Settles m c s i x s') c path
      (s.enter (c.qualified i)) a.nodes.zipIdx y s') :
    Callees (fun s i x s' => s.Grows s' ∧ CallsAmong a.nodes i ∧ m.Outcome c i x) c path
        (s.enter (c.qualified i)) a.nodes.zipIdx y s' ∧ Results.Correct m s'.results := by
  obtain ⟨h, hs', -⟩ := h.mono (I := fun s₁ => Results.Correct m s₁.results ∧
      s₁.stack = c.qualified i :: s.stack)
    (Q := fun s i x s' => s.Grows s' ∧ CallsAmong a.nodes i ∧ m.Outcome c i x) ⟨hs, rfl⟩
    fun s₁ j z s₂ hj hs₁ hz => by
      rw [List.zipIdx_map_fst] at hj
      obtain ⟨hs₂, houtcome⟩ := hz.2 hs₁.1 (hw.enter hp.activity hj hs₁.2)
        (lt_of_callsAmong hm hc hp.activity hj)
      exact ⟨⟨hz.1, hj, houtcome⟩, hs₂, hz.1.stack.trans hs₁.2⟩
  exact ⟨h, hs'⟩

/-- Where the called activities compile, lowering decides. -/
theorem outcome_of_callees (ha : c.activities[i]? = some a) (hsupported : a.Supported)
    {callees : List (Nat × Routine)}
    (h : Callees (fun s i x s' => s.Grows s' ∧ CallsAmong a.nodes i ∧ m.Outcome c i x) c
      (c.activityPath i) s a.nodes.zipIdx (.ok callees) s') :
    m.Outcome c i (lowerFlow (m.flow c i a callees)) := by
  have hcallees (n target : Nat) (arguments : List Argument)
      (hn : a.action n = .call target arguments) :
      ∃ r, callees.lookup n = some r ∧ m.CompilesTo c target r := by
    obtain ⟨r, _, _, hlookup, ⟨-, -, houtcome⟩, -⟩ :=
      h.routine_of_action (fun _ _ _ _ h => h.1) hn
    exact ⟨r, hlookup, (houtcome r).1 rfl⟩
  intro r
  rw [lowerFlow, mapError_eq_ok, lower_of_callees hcallees]
  constructor
  · intro hr
    refine ⟨(Model.compilable_iff ha).2 ⟨hsupported, fun j hj => ?_, r, hr⟩, a, ha, hr⟩
    obtain ⟨n, arguments, hn⟩ := callsAmong_iff.1 hj
    obtain ⟨_, -, hcompiles⟩ := hcallees n j arguments hn
    exact hcompiles.1
  · rintro ⟨-, a', ha', hr⟩
    cases ha.symm.trans ha'
    exact hr

theorem settles_of_rule (hm : m.Resolved) (hc : c ∈ m.components)
    (h : Rule (fun s i x s' => s.Grows s' ∧ Settles m c s i x s') m c s i x s') :
    Settles m c s i x s' := by
  intro hs hw hi
  cases h with
  | cached h => exact ⟨hs, hs c hc i hi x (mem_of_lookup h)⟩
  | unknown _ ha =>
    rw [List.getElem?_eq_getElem hi] at ha
    cases ha
  | recursive _ _ hstack =>
    obtain ⟨j, hj, hname, hcycle⟩ := hw _ hstack
    obtain ⟨-, rfl⟩ := hm.qualified_injective hc hc hi hj hname
    exact ⟨hs, Model.outcome_error (fun h => h.acyclic i .refl hcycle) _⟩
  | @unsupported _ _ a e hp he =>
    have houtcome : m.Outcome c i (.error e) := by
      refine Model.outcome_error (fun h => ?_) e
      have hsupported := ((Model.compilable_iff hp.activity).1 h).1
      rw [checkLanguages_eq_ok.2 hsupported] at he
      cases he
    exact ⟨hs.snoc hm hc hi houtcome, houtcome⟩
  | @blocked _ _ _ a e hp _ hcalls =>
    obtain ⟨hcalls, hs'⟩ := settle_callees hm hc hp hs hw hcalls
    obtain ⟨j, e', _, _, -, -, -, hj, hfailed⟩ := hcalls.exists_failed
    have houtcome : m.Outcome c i (.error e) := by
      refine Model.outcome_error (fun h => hfailed.not_compilable ?_) e
      exact ((Model.compilable_iff hp.activity).1 h).2.1 j hj
    exact ⟨hs'.snoc hm hc hi houtcome, houtcome⟩
  | @lowered _ _ _ a callees _ hp hl hcalls hx =>
    obtain ⟨hcalls, hs'⟩ := settle_callees hm hc hp hs hw hcalls
    have houtcome : m.Outcome c i x :=
      hx ▸ outcome_of_callees hp.activity (checkLanguages_eq_ok.1 hl) hcalls
    exact ⟨hs'.snoc hm hc hi houtcome, houtcome⟩

end

namespace Compilation.Of

variable {m : Model} {c : Component} {s : Compilation} {i : Nat}

theorem waiting (h : s.Of m) (c : Component) (i : Nat) : Waiting c s i := by
  rw [Waiting, h.stack]
  exact nofun

theorem correct (h : s.Of m) (hm : m.Resolved) : Results.Correct m s.results := by
  refine h.induction (P := fun s => Results.Correct m s.results) nofun
    fun s c i h hc hi hs => ?_
  exact (compile_induction (fun _ _ _ _ => settles_of_rule hm hc) h.stack i hs (h.waiting c i) hi).1

theorem outcome (h : s.Of m) (hm : m.Resolved) (hc : c ∈ m.components)
    (hi : i < c.activities.length) : m.Outcome c i ((compile m c i).run.run s).1 :=
  (compile_induction (fun _ _ _ _ => settles_of_rule hm hc) h.stack i (h.correct hm)
    (h.waiting c i) hi).2

end Compilation.Of

/-- A computation asks for an activity, by its position or by its name. -/
inductive Asks (m : Model) (c : Component) (i : Nat) : Compiling Routine → Prop
  | position (hc : c ∈ m.components) (hi : i < c.activities.length) : Asks m c i (compile m c i)
  | name {component activity : String} (hc : m.component? component = some c)
      (hi : c.activities.findIdx? (·.name.raw = activity) = some i) :
      Asks m c i (compileNamed m component activity)

theorem Asks.eq_compile {m : Model} {c : Component} {i : Nat} {x : Compiling Routine}
    (h : Asks m c i x) :
    c ∈ m.components ∧ i < c.activities.length ∧ x = compile m c i := by
  cases h with
  | position hc hi => exact ⟨hc, hi, rfl⟩
  | name hc hi =>
    refine ⟨List.mem_of_find?_eq_some hc, lt_of_findIdx? hi, ?_⟩
    rw [compileNamed, hc]
    dsimp only
    rw [hi]

/-- The outcome of a request does not depend on the requests before it. It is a routine just
if no cycle of calls can be reached and all activities that can be reached are lowered, and
the bound on the depth of calls has no part in it. -/
theorem compile_outcome {d : Definition} {m : Model} (hm : Model.build d = .ok m)
    {s s' : Compilation} (hs : s.Of m) (hs' : s'.Of m) {c : Component} {i : Nat}
    {x x' : Compiling Routine} (hx : Asks m c i x) (hx' : Asks m c i x') :
    (∀ r, (x.run.run s).1 = .ok r ↔ (x'.run.run s').1 = .ok r) ∧
      ((∃ r, (x.run.run s).1 = .ok r) ↔ m.Compilable c i) ∧
      ∀ depth > c.activities.length, (compileWithin m c depth i).run.run s = x.run.run s := by
  have hresolved := Model.resolved_of_build hm
  obtain ⟨hc, hi, rfl⟩ := hx.eq_compile
  obtain ⟨-, -, rfl⟩ := hx'.eq_compile
  have houtcome := hs.outcome hresolved hc hi
  refine ⟨fun r => (houtcome r).trans (hs'.outcome hresolved hc hi r).symm,
    houtcome.exists_ok_iff, fun depth hdepth => ?_⟩
  exact compileWithin_eq (.start hs.stack (Nat.lt_succ_self _)) (.start hs.stack hdepth)

/-! ### A sample with mutual calls

`Ping` and `Pong` call each other, `Both` calls `Solo` and then `Ping`, and `Twice` calls
`Solo` twice. -/

namespace Sample

def relayDefinition : Definition where
  recordTypes := []
  components := [{
    name := "Relay"
    attributes := []
    machine := ⟨"Cycle", "Idle", [⟨"Idle", []⟩], []⟩
    activities := [
      ⟨"Ping", [⟨"c", none, .call "Pong" []⟩], []⟩,
      ⟨"Pong", [⟨"c", none, .call "Ping" []⟩], []⟩,
      ⟨"Both", [⟨"c", none, .call "Solo" []⟩, ⟨"d", none, .call "Ping" []⟩], []⟩,
      ⟨"Twice", [⟨"c", none, .call "Solo" []⟩, ⟨"d", none, .call "Solo" []⟩], []⟩,
      ⟨"Solo", [⟨"t", none, .literal (.bool true)⟩], []⟩] }]

def relay : Component :=
  { component with
    name := ⟨"Relay", "Relay"⟩
    activities := [
      ⟨⟨"Ping", "Ping"⟩, [⟨"c", "c", .call 1 []⟩], []⟩,
      ⟨⟨"Pong", "Pong"⟩, [⟨"c", "c", .call 0 []⟩], []⟩,
      ⟨⟨"Both", "Both"⟩, [⟨"c", "c", .call 4 []⟩, ⟨"d", "d", .call 0 []⟩], []⟩,
      ⟨⟨"Twice", "Twice"⟩, [⟨"c", "c", .call 4 []⟩, ⟨"d", "d", .call 4 []⟩], []⟩,
      ⟨⟨"Solo", "Solo"⟩, [⟨"t", "t", .literal (.bool true)⟩], []⟩] }

def relayModel : Model := ⟨[], [relay]⟩

theorem build_relayDefinition : Model.build relayDefinition = .ok relayModel := by
  decide +kernel

/-- What a request for `Both` leaves behind. -/
def relayed : Compilation :=
  ((compileNamed relayModel "Relay" "Both").run.run {}).2

theorem relayed_of : relayed.Of relayModel :=
  .named .start _ _

theorem relay_cycle : TransGen relay.Calls 0 0 := by
  have hping : relay.Calls 0 1 := ⟨_, rfl, _, List.mem_cons_self, _, rfl⟩
  have hpong : relay.Calls 1 0 := ⟨_, rfl, _, List.mem_cons_self, _, rfl⟩
  exact .tail (.single hping) hpong

end Sample

/-- After the failure of `Both`, `Twice` compiles as it does at the start, and `Ping` fails. -/
theorem compile_outcome_relay :
    (∀ r, ((compile Sample.relayModel Sample.relay 3).run.run {}).1 = .ok r ↔
      ((compileNamed Sample.relayModel "Relay" "Twice").run.run Sample.relayed).1 = .ok r) ∧
    ¬ ∃ r, ((compileNamed Sample.relayModel "Relay" "Ping").run.run Sample.relayed).1 = .ok r := by
  have hping : Asks Sample.relayModel Sample.relay 0
    (compileNamed Sample.relayModel "Relay" "Ping") := .name rfl rfl
  refine ⟨(compile_outcome Sample.build_relayDefinition .start Sample.relayed_of
    (.position List.mem_cons_self (by decide)) (.name rfl rfl)).1, fun h => ?_⟩
  have hcompilable := (compile_outcome Sample.build_relayDefinition Sample.relayed_of
    Sample.relayed_of hping hping).2.1.1 h
  exact hcompilable.acyclic 0 .refl Sample.relay_cycle

end FlightGen
