import FlightGen.Generation
import FlightGen.Proofs.Flow.Footprint
import FlightGen.Proofs.Machine.Synthesis
import FlightGen.Proofs.Model.Linked

/-! Positions stay in range. Since the positions of a built model are links, so are those that
later stages derive from them: the tables of its machines lead into each other, lowering looks
up nodes, variables, outputs, record types and activities that exist, and a routine finds its
inputs and outputs. -/

namespace FlightGen

/-! ### Machines -/

/-- The positions in the tables of a machine lead into its tables. -/
structure Machine.Closed (m : Machine) : Prop where
  initial : m.initial < m.states.length
  /-- There is an arm for each state. -/
  dispatch : m.arms.length = m.states.length
  arms : ∀ arm ∈ m.arms, arm.state < m.states.length ∧
    ∀ i ∈ arm.transitions, i < m.transitions.length
  commands : ∀ command ∈ m.commands, ∀ arm ∈ command.arms,
    arm.1 < m.states.length ∧ ∀ i ∈ arm.2, i < m.transitions.length
  ends : ∀ t ∈ m.transitions, t.source < m.states.length ∧ t.target < m.states.length
  guards : ∀ t ∈ m.transitions, ∀ i ∈ t.guard, i < m.guards.length
  triggers : ∀ t ∈ m.transitions, ∀ i ∈ t.trigger, i < m.commands.length

/-- A machine is closed, and the activities that it runs are those of the component, also where
they are asked for by their positions. -/
structure Component.Closed (c : Component) : Prop where
  machine : c.synthesize.Closed
  requests : ∀ i ∈ c.stateActivities, i < c.activities.length
  activities : ∀ arm ∈ c.synthesize.arms, ∀ reference ∈ arm.activities, ∃ a ∈ c.activities,
    reference = ⟨c.name.ident ++ "::" ++ a.name.ident, a.name.ident⟩

theorem Component.HasState.lt {c : Component} {name : String} {index : Nat}
    (h : c.HasState name index) : index < c.states.length := by
  obtain ⟨s, hs, -⟩ := h
  exact (List.getElem?_eq_some_iff.1 hs).1

theorem Command.Resolves.lt {commands : List Command} {signal : Option String} {index : Option Nat}
    (h : Resolves commands signal index) : ∀ i ∈ index, i < commands.length := by
  cases h with
  | absent => simp
  | present hc => simpa using (List.getElem?_eq_some_iff.1 hc).1

namespace Component

variable {c : Component}

theorem Linked.closed {records : List RecordType} {d : Definition.Component}
    (h : c.Linked records d) : c.Closed := by
  have hends : ∀ t' ∈ c.synthesize.transitions, ∃ t ∈ c.transitions, t'.source = t.source ∧
      t'.target = t.target ∧ t'.trigger = t.trigger ∧
      ∀ i ∈ t'.guard, i < c.synthesize.guards.length := by
    intro t' ht'
    simpa [synthesize, machineGuards] using mem_numberGuards ht'
  have hlinked : ∀ t ∈ c.transitions, ∃ d, Transition.Linked c d t := by
    intro t ht
    obtain ⟨d, -, hd⟩ := exists_of_forall₂ h.transitions.flip ht
    exact ⟨d, hd⟩
  have hactivities : ∀ s ∈ c.states, ∀ i ∈ s.activities, ∃ a, c.activities[i]? = some a := by
    intro s hs i hi
    obtain ⟨ds, -, hstate⟩ := exists_of_forall₂ h.states.flip hs
    obtain ⟨name, -, a, ha, -⟩ := exists_of_forall₂ hstate.activities.flip hi
    exact ⟨a, ha⟩
  refine ⟨⟨?_, ?_, ?_, ?_, ?_, ?_, ?_⟩, ?_, ?_⟩
  · exact length_machineStates ▸ h.initial.lt
  · simp [synthesize, machineArms, machineStates]
  · intro arm harm
    obtain ⟨i, s, hs, rfl⟩ := mem_arms harm
    exact ⟨length_machineStates ▸ (List.getElem?_eq_some_iff.1 hs).1, fun j => lt_of_mem_leaving⟩
  · intro command hcommand arm harm
    obtain ⟨k, d, -, rfl⟩ := c.mem_machineCommands.1 hcommand
    unfold machineCommand at harm
    split at harm
    · obtain ⟨hlt, heq, -⟩ := mem_commandArms.1 harm
      exact ⟨length_machineStates ▸ hlt, fun j hj => lt_of_mem_leaving (heq ▸ hj)⟩
    · cases harm
  · intro t' ht'
    obtain ⟨t, ht, hsource, htarget, -⟩ := hends t' ht'
    obtain ⟨d, hd⟩ := hlinked t ht
    rw [length_machineStates, hsource, htarget]
    exact ⟨hd.source.lt, hd.target.lt⟩
  · intro t' ht'
    obtain ⟨t, -, -, -, -, hguard⟩ := hends t' ht'
    exact hguard
  · intro t' ht'
    obtain ⟨t, ht, -, -, htrigger, -⟩ := hends t' ht'
    obtain ⟨d, hd⟩ := hlinked t ht
    rw [htrigger]
    simpa [synthesize] using hd.trigger.lt
  · intro i hi
    obtain ⟨s, hs, hi⟩ := List.mem_flatMap.1 (List.mem_eraseDups.1 hi)
    obtain ⟨a, ha⟩ := hactivities s hs i hi
    exact (List.getElem?_eq_some_iff.1 ha).1
  · intro arm harm reference href
    obtain ⟨i, s, hs, rfl⟩ := mem_arms harm
    obtain ⟨index, hindex, rfl⟩ := List.mem_map.1 href
    obtain ⟨a, ha⟩ := hactivities s (List.mem_of_getElem? hs) index hindex
    exact ⟨a, List.mem_of_getElem? ha, by simp [activityRef, qualified, activityIdent, ha]⟩

end Component

/-! ### Activities -/

/-- The record type that an action mentions. -/
def Action.record? : Action → Option Nat
  | .create record => some record
  | .parameter _ _ (.record record) _ => some record
  | _ => none

namespace Flow

/-- An outlet exists: its node does, and an output is selected exactly if the node has outputs,
of which it is one. -/
structure Provides (f : Flow) (o : Outlet) : Prop where
  node : o.node < f.size
  pin : o.pin.isSome = (f.action o.node).outputs?.isSome
  output : ∀ i ∈ o.pin, ∀ outputs ∈ (f.action o.node).outputs?, i < outputs.length

/-- What lowering looks up by a position is there. -/
structure Closed (f : Flow) : Prop where
  outlets : ∀ n, ∀ o ∈ (f.action n).consumed, f.Provides o
  roots : ∀ o r, o.node < f.size → f.root o = .ok r → r < f.size
  /-- Edges join nodes of the activity, those that the model states and those from writes to uses. -/
  stated : ∀ e ∈ f.statedEdges, e.1 < f.size ∧ e.2 < f.size
  writes : ∀ ws, f.writes = .ok ws → ∀ w ∈ ws, w.node < f.size
  uses : ∀ us, f.uses = .ok us → ∀ u ∈ us, u.node < f.size
  graph : ∀ g, f.graph = .ok g → g.size = f.size ∧ ∀ a b, g.Edge a b → a < g.size ∧ b < g.size
  /-- Nodes are placed, or those that cannot be placed are reported. -/
  placed : ∀ g nodes, f.graph = .ok g → g.order = .ok nodes ∨ g.order = .error nodes →
    ∀ n ∈ nodes, n < f.size
  vars : ∀ written vars, f.nodeVars written = .ok vars → vars.length = f.size ∧
    ∀ n outputs, (f.action n).outputs? = some outputs → (outputVars vars n).length = outputs.length
  calls : ∀ n target arguments, f.action n = .call target arguments →
    ∃ callee, f.component.activities[target]? = some callee ∧
      ∀ a ∈ arguments, a.parameter ∈ callee.parameters .input
  /-- Types are looked up for parameters of the activity itself and of those that it calls. -/
  records : ∀ a ∈ f.component.activities, ∀ n, ∀ i ∈ (a.action n).record?, i < f.records.length
  slots : ∀ direction n name type source, f.action n = .parameter direction name type source →
    ∃ i < (f.slots direction).length, (f.slots direction).findIdx? (·.ident = f.ident n) = some i

end Flow

theorem Action.Offers.isSome_eq {action : Action} {selection : Option String} {pin : Option Nat}
    (h : action.Offers selection pin) : pin.isSome = action.outputs?.isSome := by
  cases h with
  | named houtputs => simp [houtputs]
  | only houtputs => simp [houtputs]
  | value houtputs => simp [houtputs]

theorem Action.Offers.lt {action : Action} {selection : Option String} {pin : Option Nat}
    (h : action.Offers selection pin) :
    ∀ i ∈ pin, ∀ outputs ∈ action.outputs?, i < outputs.length := by
  cases h with
  | named houtputs hpin => simpa [houtputs] using (List.getElem?_eq_some_iff.1 hpin).1
  | only houtputs => simp [houtputs]
  | value => simp

theorem Action.Linked.denotes {records : List RecordType} {activities : List Activity} {a : Activity}
    {d : Definition.Action} {action : Action} (h : action.Linked records activities a d) {o : Outlet}
    (ho : o ∈ action.consumed) : ∃ ref, a.Denotes ref o := by
  cases h with
  | opaqueAction hpins =>
    obtain ⟨pin, hpin, hsource⟩ := List.mem_filterMap.1 ho
    obtain ⟨d, -, hlinked⟩ := exists_of_forall₂ hpins.flip hpin
    obtain ⟨ref, o', -, ho', hdenotes⟩ := hlinked.source
    cases ho'.symm.trans hsource
    exact ⟨ref, hdenotes⟩
  | call _ _ hargs =>
    obtain ⟨argument, hargument, rfl⟩ := List.mem_map.1 ho
    obtain ⟨d, -, hlinked⟩ := exists_of_forall₂ hargs.flip hargument
    exact ⟨_, hlinked.source⟩
  | read hobject =>
    cases List.mem_singleton.1 ho
    exact ⟨_, hobject⟩
  | write hobject hvalue =>
    obtain rfl | ho := List.mem_cons.1 ho
    · exact ⟨_, hobject⟩
    · cases List.mem_singleton.1 ho
      exact ⟨_, hvalue⟩
  | output _ hsource =>
    cases hsource with
    | none => cases ho
    | some hdenotes =>
      cases List.mem_singleton.1 ho
      exact ⟨_, hdenotes⟩
  | fork | join | create | input | literal => cases ho

theorem Activity.HasInput.mem_parameters {a : Activity} {name : String} {index : Nat}
    (h : a.HasInput name index) : index ∈ a.parameters .input := by
  obtain ⟨n, parameter, type, source, hn, haction, -⟩ := h
  exact Flow.mem_parameters.2 ⟨parameter, type, source, by simp [Activity.action, hn, haction]⟩

theorem Activity.Resolved.record_lt {a : Activity} {k n : Nat} (h : a.Resolved k) :
    ∀ i ∈ (a.action n).record?, i < k := by
  intro i hi
  by_cases hn : n < a.nodes.length
  · have hwithin := (h.nodes _ (List.getElem_mem hn)).within
    rw [Activity.action, List.getElem?_eq_getElem hn, Option.map_some, Option.getD_some] at hi
    generalize a.nodes[n].action = action at hi hwithin
    cases action with
    | create record =>
      cases hi
      exact hwithin
    | parameter direction name type source =>
      cases type with
      | record record =>
        cases hi
        exact hwithin.1 i rfl
      | scalar => cases hi
    | _ => cases hi
  · simp [Activity.action, List.getElem?_eq_none (not_lt.1 hn), Action.record?] at hi

namespace Flow

variable {f : Flow} {m : Model} {d : Definition}

theorem RootOf.lt_size {k n r : Nat} (hf : f.activity.Resolved k) (h : f.RootOf n r)
    (hn : n < f.size) : r < f.size := by
  induction h with
  | self => exact hn
  | @write n r object value feature haction _ ih =>
    have hobject : object ∈ (f.action n).consumed := by
      rw [haction]
      exact List.mem_cons_self
    exact ih (f.consumed_lt hf hobject)

theorem provides_of_denotes {ref : Definition.ValueRef} {o : Outlet} (h : f.activity.Denotes ref o) :
    f.Provides o := by
  obtain ⟨n, hn, -, hoffers⟩ := h
  have haction : f.action o.node = n.action := by simp [action, Activity.action, hn]
  refine ⟨(List.getElem?_eq_some_iff.1 hn).1, ?_, ?_⟩
  · rw [haction]
    exact hoffers.isSome_eq
  · rw [haction]
    exact hoffers.lt

/-- All that an activity does is linked. -/
theorem Of.action_linked (hf : f.Of m) (hm : m.Linked d) {n : Nat} (hn : n < f.size) :
    ∃ d, (f.action n).Linked f.records f.component.activities f.activity d := by
  obtain ⟨dc, -, hcomponent⟩ := exists_of_forall₂ hm.components.flip hf.component
  obtain ⟨da, -, hactivity⟩ := exists_of_forall₂ hcomponent.activities.flip hf.activity
  obtain ⟨node, hnode, -, haction⟩ := f.exists_node hn
  obtain ⟨dn, -, hlinked⟩ := exists_of_forall₂ hactivity.nodes.flip hnode
  rw [hf.records, ← haction]
  exact ⟨dn.action, hlinked.action⟩

theorem length_vars {written : List Nat} {vars : List NodeVars} (h : f.nodeVars written = .ok vars) :
    vars.length = f.size := by
  obtain ⟨t, t', -, hnames⟩ := nodeVars_eq_ok h
  simpa [size] using (Naming.forall₂_mapM hnames).length_eq.symm

theorem length_outputVars_of_outputs {written : List Nat} {vars : List NodeVars}
    (h : f.nodeVars written = .ok vars) {n : Nat} {outputs : List Pin}
    (houtputs : (f.action n).outputs? = some outputs) :
    (outputVars vars n).length = outputs.length := by
  have hn : n < f.size := f.lt_size fun hn => by simp [hn, Action.outputs?] at houtputs
  obtain ⟨node, -, hnode, haction⟩ := f.exists_node hn
  cases hnodeAction : f.action n with
  | opaqueAction body language inputs outs =>
    rw [hnodeAction] at houtputs
    cases houtputs
    exact (length_outputVars h hnode).1 _ _ _ _ (haction.trans hnodeAction)
  | _ =>
    rw [hnodeAction] at houtputs
    cases houtputs

theorem Of.closed (hf : f.Of m) (hm : m.Linked d) (hresolved : m.Resolved) : f.Closed := by
  have ha := hf.resolved hresolved
  constructor
  · intro n o ho
    have hn : n < f.size := f.lt_size fun hn => by
      rw [hn] at ho
      cases ho
    obtain ⟨d, hlinked⟩ := hf.action_linked hm hn
    obtain ⟨ref, hdenotes⟩ := hlinked.denotes ho
    exact provides_of_denotes hdenotes
  · exact fun o r ho hr => (rootOf_of_root hr).lt_size ha ho
  · exact fun e he => (mem_statedEdges.1 he).lt ha
  · exact fun ws hws w hw => ((mem_writes hws).1 hw).lt_size
  · exact fun us hus u => node_lt_of_mem_uses hus
  · exact fun g hg => ⟨(f.dependencies ha hg).size, fun a b => Graph.Edge.lt⟩
  · intro g nodes hg hnodes n hn
    rw [← (f.dependencies ha hg).size]
    obtain hnodes | hnodes := hnodes
    · exact (Graph.mem_order hnodes).1 hn
    · exact Graph.lt_of_order_eq_error hnodes hn
  · intro written vars hvars
    exact ⟨length_vars hvars, fun n outputs => length_outputVars_of_outputs hvars⟩
  · intro n target arguments hcall
    obtain ⟨d, hlinked⟩ := hf.action_linked hm (f.lt_size (n := n) (by simp [hcall]))
    rw [hcall] at hlinked
    cases hlinked with
    | @call _ _ callee _ _ hcallee _ hargs =>
      refine ⟨callee, hcallee, forall_of_forall₂ hargs fun _ _ harg => ?_⟩
      exact harg.parameter.mem_parameters
  · intro a hmem n
    rw [hf.records]
    exact ((hresolved.components _ hf.component).activities a hmem).record_lt
  · intro direction n name type source hparameter
    obtain ⟨i, hfind, -, hslot⟩ := exists_slot ha hparameter
    exact ⟨i, (List.getElem?_eq_some_iff.1 hslot).1, hfind⟩

end Flow

/-! ### Routines -/

/-- A routine finds each input among its arguments, and each output has its slot at all times. -/
structure Routine.Closed (r : Routine) : Prop where
  inputs : ∀ s ∈ r.steps, ∀ parameter var type copy,
    s.operation = .receive parameter var type copy → ∀ arguments : List Datum,
      arguments.length = r.inputs.length → ∃ d ∈ arguments, receive r arguments parameter = .ok d
  outputs : ∀ s ∈ r.steps, ∀ i ∈ s.operation.slot?, i < r.outputs.length
  progress : ∀ call arguments steps p, steps <+: r.steps →
    steps.foldlM (Step.execute call r arguments) ⟨[], r.outputs.map fun _ => none⟩ = .ok p →
    p.outputs.length = r.outputs.length

theorem Step.length_outputs {call : Callee} {r : Routine} {arguments : List Datum} {p p' : Progress}
    {s : Step} (h : s.execute call r arguments p = .ok p') :
    p'.outputs.length = p.outputs.length := by
  rw [Step.execute_eq] at h
  obtain ⟨e, -, rfl⟩ := map_eq_ok.1 h
  unfold Change.apply
  split <;> simp

/-- Carrying out steps neither adds nor removes outputs. -/
theorem length_outputs_foldlM {call : Callee} {r : Routine} {arguments : List Datum}
    {steps : List Step} {p p' : Progress}
    (h : steps.foldlM (Step.execute call r arguments) p = .ok p') :
    p'.outputs.length = p.outputs.length := by
  induction steps generalizing p with
  | nil =>
    cases h
    rfl
  | cons s steps ih =>
    rw [List.foldlM_cons] at h
    obtain ⟨p₁, hs, h⟩ := bind_eq_ok.1 h
    exact (ih h).trans (Step.length_outputs hs)

theorem Flow.Lowering.closed {f : Flow} {r : Routine} (L : f.Lowering r) {k : Nat}
    (hf : f.activity.Resolved k) : r.Closed := by
  have hstands : ∀ s ∈ r.steps, ∃ n, L.Stands n s := by
    intro s hs
    obtain ⟨n, -, hn⟩ := exists_of_forall₂ (L.stands hf).flip hs
    exact ⟨n, hn⟩
  refine ⟨?_, ?_, ?_⟩
  · intro s hs parameter var type copy hop arguments hlength
    obtain ⟨n, -, -, hperforms⟩ := hstands s hs
    rw [hop] at hperforms
    cases hperforms with
    | receive haction =>
      obtain ⟨i, hfind, -, hslot⟩ := exists_slot hf haction
      have hi : i < arguments.length := by
        rw [hlength, L.inputs_eq]
        exact (List.getElem?_eq_some_iff.1 hslot).1
      refine ⟨arguments[i], List.getElem_mem hi, ?_⟩
      rw [receive, L.inputs_eq, hfind, Option.bind_some, List.getElem?_eq_getElem hi]
  · intro s hs i hi
    obtain ⟨n, hn⟩ := hstands s hs
    have hslot := (List.getElem?_eq_some_iff.1 (hn.slot hf hi)).1
    rw [L.outputs_eq, ← (slots_forall₂ hf .output).length_eq]
    exact hslot
  · intro call arguments steps p _ h
    simpa using length_outputs_foldlM h

/-! ### Models -/

/-- No stage looks beyond an end: not the synthesis of a machine, what runs it or what emits it,
nor the lowering of an activity or what runs a routine. -/
structure Model.Closed (m : Model) : Prop where
  components : ∀ c ∈ m.components, c.Closed
  flows : ∀ f : Flow, f.Of m → f.Closed
  routines : ∀ (f : Flow) (r : Routine), f.Of m → f.lower = .ok r → r.Closed

theorem Model.Linked.closed {d : Definition} {m : Model} (h : m.Linked d) (hresolved : m.Resolved) :
    m.Closed := by
  refine ⟨?_, fun f hf => hf.closed h hresolved, ?_⟩
  · exact forall_of_forall₂ h.components fun _ _ hc => hc.closed
  · intro f r hf hr
    obtain ⟨L⟩ := f.exists_lowering hr
    exact L.closed (hf.resolved hresolved)

/-! ### A sample with all kinds of references

The pump fills up while it runs. `Fill` passes its arguments to `Mix` in another order than that
of the parameters, and it writes the second output of its body. -/

namespace Sample

def pumpDefinition : Definition where
  recordTypes := [⟨"Dose", [⟨"full", .bool⟩]⟩]
  components := [{
    name := "Pump"
    attributes := []
    machine := {
      name := "Cycle"
      initial := "Idle"
      states := [⟨"Run", ["Fill"]⟩, ⟨"Idle", []⟩]
      transitions := [⟨"Idle", "Run", none, some "go"⟩, ⟨"Run", "Idle", none, some "halt"⟩,
        ⟨"Run", "Run", none, some "go"⟩] }
    activities := [
      ⟨"Fill", [
        ⟨"d", none, .create "Dose"⟩,
        ⟨"o", none, .opaqueAction "on = d" none [⟨"d", .bool, some ⟨"m", none⟩⟩]
          [⟨"off", .bool, none⟩, ⟨"on", .bool, none⟩]⟩,
        ⟨"m", none, .call "Mix" [⟨"level", ⟨"l", none⟩⟩, ⟨"dose", ⟨"d", none⟩⟩]⟩,
        ⟨"l", none, .literal (.bool true)⟩,
        ⟨"w", none, .write ⟨"d", none⟩ "full" ⟨"o", some "on"⟩⟩,
        ⟨"f", none, .fork ["m", "w"]⟩], [⟨"l", "f"⟩]⟩,
      ⟨"Mix", [
        ⟨"b", none, .parameter .output "mixed" "bool" (some ⟨"a", none⟩)⟩,
        ⟨"p", none, .parameter .input "dose" "Dose" none⟩,
        ⟨"a", none, .parameter .input "level" "bool" none⟩], []⟩] }]

def fill : Activity where
  name := ⟨"Fill", "Fill"⟩
  nodes := [
    ⟨"d", "d_2", .create 0⟩,
    ⟨"o", "o", .opaqueAction "on = d" none [⟨⟨"d", "d"⟩, .bool, some ⟨2, none⟩⟩]
      [⟨⟨"off", "off"⟩, .bool, none⟩, ⟨⟨"on", "on"⟩, .bool, none⟩]⟩,
    ⟨"m", "m", .call 1 [⟨2, ⟨3, none⟩⟩, ⟨1, ⟨0, none⟩⟩]⟩,
    ⟨"l", "l", .literal (.bool true)⟩,
    ⟨"w", "w", .write ⟨0, none⟩ "full" ⟨1, some 1⟩⟩,
    ⟨"f", "f", .fork [2, 4]⟩]
  edges := [(3, 5)]

def mix : Activity where
  name := ⟨"Mix", "Mix"⟩
  nodes := [
    ⟨"b", "mixed", .parameter .output ⟨"mixed", "mixed"⟩ (.scalar .bool) (some ⟨2, none⟩)⟩,
    ⟨"p", "dose", .parameter .input ⟨"dose", "dose"⟩ (.record 0) none⟩,
    ⟨"a", "level", .parameter .input ⟨"level", "level"⟩ (.scalar .bool) none⟩]
  edges := []

def pump : Component where
  name := ⟨"Pump", "Pump"⟩
  machine := ⟨"Cycle", "Cycle"⟩
  states := [⟨⟨"Run", "Run"⟩, [0]⟩, ⟨⟨"Idle", "Idle"⟩, []⟩]
  initial := 1
  transitions := [⟨1, 0, none, some 2⟩, ⟨0, 1, none, some 3⟩, ⟨0, 0, none, some 2⟩]
  activities := [fill, mix]
  attributes := []
  commands := [⟨"START_STATE_MACHINE", .start⟩, ⟨"STOP_STATE_MACHINE", .stop⟩,
    ⟨"GO", .trigger "go"⟩, ⟨"HALT", .trigger "halt"⟩]

def pumpModel : Model := ⟨[⟨⟨"Dose", "Dose"⟩, [⟨⟨"full", "full"⟩, .bool⟩]⟩], [pump]⟩

theorem build_pumpDefinition : Model.build pumpDefinition = .ok pumpModel := by
  decide +kernel

end Sample

/-- A model that could be built refers throughout to what its definition names, and nothing that
follows looks up a position which does not exist. -/
theorem Model.linked_of_build {d : Definition} {m : Model} (h : Model.build d = .ok m) :
    m.Linked d ∧ m.Closed := by
  have hresolved := Model.resolved_of_build h
  obtain ⟨S⟩ := exists_modelStages h
  exact ⟨S.linked, S.linked.closed hresolved⟩

theorem Sample.linked_pump : Model.build pumpDefinition = .ok pumpModel ∧
    pumpModel.Linked pumpDefinition ∧ pumpModel.Closed :=
  ⟨build_pumpDefinition, Model.linked_of_build build_pumpDefinition⟩

end FlightGen
