import FlightGen.Proofs.Machine.Synthesis
import FlightGen.Proofs.Model.Distinct

/-! The tables of a machine hold all that the component declares, and each thing once: one arm
for each state, each transition in the one place from which it can be taken, and the guards
numbered in the order of their transitions. -/

namespace FlightGen

/-! ### Where transitions stand -/

/-- The transitions that ticks can take, arm by arm. -/
def Machine.ticked (m : Machine) : List Nat :=
  m.arms.flatMap (·.transitions)

/-- The transitions that commands can take, command by command and state by state. -/
def Machine.commanded (m : Machine) : List Nat :=
  m.commands.flatMap fun command => command.arms.flatMap (·.2)

namespace Component

variable (c : Component)

theorem pairwise_leaving (state : Nat) (trigger : Option Nat) :
    (c.leaving state trigger).Pairwise (· < ·) := by
  have hsublist : (c.leaving state trigger).Sublist (c.transitions.zipIdx.map (·.2)) :=
    List.filter_sublist.map _
  rw [List.zipIdx_map_snd] at hsublist
  exact (List.pairwise_lt_range' 1).sublist hsublist

theorem nodup_leaving (state : Nat) (trigger : Option Nat) : (c.leaving state trigger).Nodup :=
  (c.pairwise_leaving state trigger).imp Nat.ne_of_lt

/-- A transition leaves one state, by one trigger. -/
theorem disjoint_leaving {state state' : Nat} {trigger trigger' : Option Nat}
    (hne : state ≠ state' ∨ trigger ≠ trigger') :
    List.Disjoint (c.leaving state trigger) (c.leaving state' trigger') := by
  intro j hj hj'
  obtain ⟨t, ht, rfl, rfl⟩ := c.mem_leaving.1 hj
  obtain ⟨t', ht', rfl, rfl⟩ := c.mem_leaving.1 hj'
  cases ht.symm.trans ht'
  simp at hne

/-- The transitions that have a trigger, or none, state by state. -/
def leavingAny (trigger : Option Nat) : List Nat :=
  (List.range c.states.length).flatMap fun state => c.leaving state trigger

theorem nodup_leavingAny (trigger : Option Nat) : (c.leavingAny trigger).Nodup :=
  List.nodup_flatMap.2 ⟨fun state _ => c.nodup_leaving state trigger,
    List.nodup_range.imp fun hne => c.disjoint_leaving (.inl hne)⟩

theorem mem_leavingAny {trigger : Option Nat} {j : Nat} : j ∈ c.leavingAny trigger ↔
    ∃ t, c.transitions[j]? = some t ∧ t.source < c.states.length ∧ t.trigger = trigger := by
  simp only [leavingAny, List.mem_flatMap, List.mem_range, mem_leaving]
  constructor
  · rintro ⟨_, hlt, t, ht, rfl, htrigger⟩
    exact ⟨t, ht, hlt, htrigger⟩
  · rintro ⟨t, ht, hlt, htrigger⟩
    exact ⟨t.source, hlt, t, ht, rfl, htrigger⟩

theorem ticked_synthesize : c.synthesize.ticked = c.leavingAny none := by
  have hmap : c.synthesize.arms.map (·.transitions) =
      (List.range c.states.length).map fun state => c.leaving state none := by
    refine List.ext_getElem? fun i => ?_
    rw [List.getElem?_map, c.getElem?_arms, List.getElem?_map]
    by_cases h : i < c.states.length <;> simp [h]
  rw [Machine.ticked, List.flatMap_def, hmap, leavingAny, List.flatMap_def]

/-! ### Commands -/

theorem getElem?_machineCommands (k : Nat) :
    c.synthesize.commands[k]? = c.commands[k]?.map (c.machineCommand k) := by
  cases h : c.commands[k]? <;> simp [synthesize, List.getElem?_zipIdx, h]

theorem exists_leaving_of_mem_arms {command : Machine.Command} {arm : Nat × List Nat}
    (h : command ∈ c.synthesize.commands) (harm : arm ∈ command.arms) :
    ∃ k, arm.2 = c.leaving arm.1 (some k) ∧ arm.2 ≠ [] := by
  obtain ⟨k, d, -, rfl⟩ := c.mem_machineCommands.1 h
  obtain ⟨-, harms⟩ | ⟨-, harms⟩ := arms_cases k d
  · rw [harms] at harm
    exact ⟨k, (mem_commandArms.1 harm).2⟩
  · simp [harms] at harm

theorem nodup_states_arms {command : Machine.Command} (h : command ∈ c.synthesize.commands) :
    (command.arms.map (·.1)).Nodup := by
  obtain ⟨k, d, -, rfl⟩ := c.mem_machineCommands.1 h
  obtain ⟨-, harms⟩ | ⟨-, harms⟩ := arms_cases k d
  · have hsublist : ((c.commandArms k).map (·.1)).Sublist
        (((List.range c.states.length).map fun state => (state, c.leaving state (some k))).map (·.1)) :=
      List.filter_sublist.map _
    rw [List.map_map, Function.comp_def, List.map_id'] at hsublist
    rw [harms]
    exact List.nodup_range.sublist hsublist
  · simp [harms]

/-- Leaving empty arms out loses no transition. -/
theorem flatMap_commandArms (k : Nat) : (c.commandArms k).flatMap (·.2) = c.leavingAny (some k) := by
  rw [commandArms, leavingAny]
  induction List.range c.states.length with
  | nil => rfl
  | cons state states ih =>
    cases hleaving : c.leaving state (some k) <;> simp [hleaving, ih]

theorem mem_flatMap_arms {k j : Nat} {d : Command} : j ∈ (c.machineCommand k d).arms.flatMap (·.2) ↔
    (∃ signal, d.kind = .trigger signal) ∧ j ∈ c.leavingAny (some k) := by
  obtain ⟨hkind, harms⟩ | ⟨hkind, harms⟩ := arms_cases k d
  · rw [harms, flatMap_commandArms, and_iff_right hkind]
  · rw [harms]
    simp [hkind]

theorem mem_commanded {j : Nat} : j ∈ c.synthesize.commanded ↔
    ∃ k d signal, c.commands[k]? = some d ∧ d.kind = .trigger signal ∧ j ∈ c.leavingAny (some k) := by
  simp only [Machine.commanded, List.mem_flatMap (l := c.synthesize.commands), mem_machineCommands]
  constructor
  · rintro ⟨_, ⟨k, d, hd, rfl⟩, hj⟩
    obtain ⟨⟨signal, hkind⟩, hj⟩ := c.mem_flatMap_arms.1 hj
    exact ⟨k, d, signal, hd, hkind, hj⟩
  · rintro ⟨k, d, signal, hd, hkind, hj⟩
    exact ⟨_, ⟨k, d, hd, rfl⟩, c.mem_flatMap_arms.2 ⟨⟨signal, hkind⟩, hj⟩⟩

theorem nodup_commanded : c.synthesize.commanded.Nodup := by
  refine List.nodup_flatMap.2 ⟨fun command hcommand => ?_, List.pairwise_iff_getElem.2 ?_⟩
  · obtain ⟨k, d, -, rfl⟩ := c.mem_machineCommands.1 hcommand
    obtain ⟨-, harms⟩ | ⟨-, harms⟩ := arms_cases k d
    · rw [harms, flatMap_commandArms]
      exact c.nodup_leavingAny (some k)
    · simp [harms]
  · intro k k' hk hk' hlt j hj hj'
    obtain ⟨d, -, hd⟩ := Option.map_eq_some_iff.1
      ((c.getElem?_machineCommands k).symm.trans (List.getElem?_eq_getElem hk))
    obtain ⟨d', -, hd'⟩ := Option.map_eq_some_iff.1
      ((c.getElem?_machineCommands k').symm.trans (List.getElem?_eq_getElem hk'))
    rw [← hd] at hj
    rw [← hd'] at hj'
    -- A transition has one trigger, so that it stands with one command.
    obtain ⟨t, ht, -, htrigger⟩ := c.mem_leavingAny.1 (c.mem_flatMap_arms.1 hj).2
    obtain ⟨t', ht', -, htrigger'⟩ := c.mem_leavingAny.1 (c.mem_flatMap_arms.1 hj').2
    cases ht.symm.trans ht'
    have := Option.some.inj (htrigger.symm.trans htrigger')
    omega

/-! ### Guards -/

/-- The number of guards that are declared before a transition. -/
def guardsBefore (transition : Nat) : Nat :=
  (c.transitions.take transition).countP (·.guard.isSome)

theorem getElem?_numberGuards_eq {ts : List Transition} {i : Nat} {t : Transition}
    (h : ts[i]? = some t) (next : Nat) : (numberGuards next ts)[i]? =
      some ⟨t.source, t.target,
        t.guard.map fun _ => next + (ts.take i).countP (·.guard.isSome), t.trigger⟩ := by
  induction ts generalizing next i with
  | nil => simp at h
  | cons first ts ih =>
    cases hguard : first.guard with
    | none =>
      rw [numberGuards, hguard]
      cases i with
      | zero =>
        cases h
        simp [hguard]
      | succ i => simpa [hguard] using ih h next
    | some g =>
      rw [numberGuards, hguard]
      cases i with
      | zero =>
        cases h
        simp [hguard]
      | succ i => simpa [hguard, Nat.add_assoc, Nat.add_comm 1] using ih h (next + 1)

/-- A guard stands among all guards behind those that are declared before it. -/
theorem getElem?_filterMap_guard {ts : List Transition} {i : Nat} {t : Transition} {g : Guard}
    (h : ts[i]? = some t) (hg : t.guard = some g) :
    (ts.filterMap (·.guard))[(ts.take i).countP (·.guard.isSome)]? = some g := by
  induction ts generalizing i with
  | nil => simp at h
  | cons first ts ih =>
    cases i with
    | zero =>
      cases h
      simp [hg]
    | succ i => cases hguard : first.guard <;> simpa [hguard] using ih h

theorem getElem?_guards (k : Nat) : c.synthesize.guards[k]? =
    (c.transitions.filterMap (·.guard))[k]?.map fun g => ⟨guardMethod k, g.source, g.condition⟩ := by
  cases h : (c.transitions.filterMap (·.guard))[k]? <;>
    simp [synthesize, machineGuards, List.getElem?_zipIdx, h]

end Component

/-! ### Whole tables -/

/-- The tables of a machine hold what a component declares: all of it, each thing once, and in
the order of declaration. -/
structure Machine.Tabulates (m : Machine) (d : Definition.Component) (c : Component) : Prop where
  states : m.states.length = c.states.length
  arms : m.arms.length = c.states.length
  state : ∀ (i : Nat) s, c.states[i]? = some s → ∃ s' arm, m.states[i]? = some s' ∧ m.arms[i]? = some arm ∧
    s'.name = s.name ∧ s'.value.toNat = i ∧ arm.state = i ∧
    s'.activities = s.activities.map c.activityRef ∧ arm.activities = s.activities.map c.activityRef
  transitions : m.transitions.length = c.transitions.length
  transition : ∀ (j : Nat) t, c.transitions[j]? = some t → m.transitions[j]? =
    some ⟨t.source, t.target, t.guard.map fun _ => c.guardsBefore j, t.trigger⟩
  declared : ∀ j ∈ m.ticked ++ m.commanded, j < c.transitions.length
  untriggered : ∀ (j : Nat) t, c.transitions[j]? = some t → t.trigger = none →
    m.ticked.count j = 1 ∧ j ∉ m.commanded ∧
      ∃ arm, m.arms[t.source]? = some arm ∧ j ∈ arm.transitions
  triggered : ∀ (j : Nat) t k, c.transitions[j]? = some t → t.trigger = some k →
    m.commanded.count j = 1 ∧ j ∉ m.ticked ∧ ∃ command candidates, m.commands[k]? = some command ∧
      (t.source, candidates) ∈ command.arms ∧ j ∈ candidates
  signal : ∀ (j : Nat) t, c.transitions[j]? = some t → ∃ dt, d.machine.transitions[j]? = some dt ∧
    (dt.trigger = none ∧ t.trigger = none ∨ ∃ signal k command, dt.trigger = some signal ∧
      t.trigger = some k ∧ m.commands[k]? = some command ∧ command.kind = .trigger signal)
  armsOrdered : ∀ arm ∈ m.arms, arm.transitions.Pairwise (· < ·)
  commandsOrdered : ∀ command ∈ m.commands, ∀ arm ∈ command.arms, arm.2.Pairwise (· < ·)
  commandStates : ∀ command ∈ m.commands, (command.arms.map (·.1)).Nodup
  commandArms : ∀ command ∈ m.commands, ∀ arm ∈ command.arms, arm.2 ≠ []
  guard : ∀ k : Nat, m.guards[k]? = (c.transitions.filterMap (·.guard))[k]?.map fun g =>
    ⟨guardMethod k, g.source, g.condition⟩
  ownGuard : ∀ (j : Nat) t g, c.transitions[j]? = some t → t.guard = some g →
    m.guards[c.guardsBefore j]? = some ⟨guardMethod (c.guardsBefore j), g.source, g.condition⟩
  guards : m.guards.length = c.guardCount
  guardCount : c.guardCount = d.machine.transitions.countP (·.guard.isSome)

namespace Component.Realizes

variable {d : Definition.Component} {c : Component} (h : c.Realizes d)

include h

theorem source_lt {j : Nat} {t : Transition} (ht : c.transitions[j]? = some t) :
    t.source < c.states.length := by
  obtain ⟨_, -, hrealizes⟩ := exists_of_forall₂ h.transitions.flip (List.mem_of_getElem? ht)
  exact h.length_states ▸ hrealizes.source.lt

theorem trigger_resolves {j : Nat} {t : Transition} (ht : c.transitions[j]? = some t) :
    ∃ dt, d.machine.transitions[j]? = some dt ∧
      Command.Resolves c.commands dt.trigger t.trigger := by
  obtain ⟨dt, hdt, hrealizes⟩ := getElem?_of_forall₂ h.transitions.flip ht
  exact ⟨dt, hdt, hrealizes.trigger⟩

/-- The command of a trigger is one that a signal gives. -/
theorem exists_command {j k : Nat} {t : Transition} (ht : c.transitions[j]? = some t)
    (hk : t.trigger = some k) : ∃ e signal, c.commands[k]? = some e ∧ e.kind = .trigger signal := by
  obtain ⟨dt, -, hresolves⟩ := h.trigger_resolves ht
  rw [hk] at hresolves
  generalize dt.trigger = trigger at hresolves
  cases hresolves with
  | present he hkind => exact ⟨_, _, he, hkind⟩

theorem untriggered {j : Nat} {t : Transition} (ht : c.transitions[j]? = some t)
    (htrigger : t.trigger = none) :
    c.synthesize.ticked.count j = 1 ∧ j ∉ c.synthesize.commanded ∧
      ∃ arm, c.synthesize.arms[t.source]? = some arm ∧ j ∈ arm.transitions := by
  have hlt := h.source_lt ht
  refine ⟨?_, fun hmem => ?_, ?_⟩
  · rw [ticked_synthesize]
    exact List.count_eq_one_of_mem (c.nodup_leavingAny none)
      (c.mem_leavingAny.2 ⟨t, ht, hlt, htrigger⟩)
  · obtain ⟨k, _, _, -, -, hj⟩ := c.mem_commanded.1 hmem
    obtain ⟨t', ht', -, htrigger'⟩ := c.mem_leavingAny.1 hj
    cases ht.symm.trans ht'
    cases htrigger.symm.trans htrigger'
  · rw [c.getElem?_arms, List.getElem?_eq_getElem hlt]
    exact ⟨_, rfl, c.mem_leaving.2 ⟨t, ht, rfl, htrigger⟩⟩

theorem triggered {j k : Nat} {t : Transition} (ht : c.transitions[j]? = some t)
    (hk : t.trigger = some k) :
    c.synthesize.commanded.count j = 1 ∧ j ∉ c.synthesize.ticked ∧
      ∃ command candidates, c.synthesize.commands[k]? = some command ∧
        (t.source, candidates) ∈ command.arms ∧ j ∈ candidates := by
  have hlt := h.source_lt ht
  obtain ⟨e, signal, he, hkind⟩ := h.exists_command ht hk
  refine ⟨?_, fun hmem => ?_, c.machineCommand k e, c.leaving t.source (some k), ?_, ?_, ?_⟩
  · exact List.count_eq_one_of_mem c.nodup_commanded
      (c.mem_commanded.2 ⟨k, e, signal, he, hkind, c.mem_leavingAny.2 ⟨t, ht, hlt, hk⟩⟩)
  · rw [ticked_synthesize] at hmem
    obtain ⟨t', ht', -, htrigger⟩ := c.mem_leavingAny.1 hmem
    cases ht.symm.trans ht'
    cases hk.symm.trans htrigger
  · rw [c.getElem?_machineCommands, he, Option.map_some]
  · rw [c.arms_machineCommand hkind]
    exact mem_commandArms.2 ⟨hlt, rfl, List.ne_nil_of_mem (c.mem_leaving.2 ⟨t, ht, rfl, hk⟩)⟩
  · exact c.mem_leaving.2 ⟨t, ht, rfl, hk⟩

theorem tabulates (hsize : c.states.length < 2 ^ 32)
    (hguards : c.guardCount = d.machine.transitions.countP (·.guard.isSome)) :
    c.synthesize.Tabulates d c := by
  constructor
  case states => exact length_machineStates
  case arms => simp [synthesize, machineArms]
  case state =>
    intro i s hs
    obtain ⟨hlt, -⟩ := List.getElem?_eq_some_iff.1 hs
    rw [c.getElem?_machineStates, c.getElem?_arms, hs]
    exact ⟨_, _, rfl, rfl, rfl, UInt32.toNat_ofNat_of_lt' (hlt.trans hsize), rfl, rfl, rfl⟩
  case transitions => exact length_numberGuards 0 c.transitions
  case transition =>
    intro j t ht
    have heq := getElem?_numberGuards_eq ht 0
    rwa [Nat.zero_add] at heq
  case declared =>
    intro j hj
    have hleaving : ∃ trigger, j ∈ c.leavingAny trigger := by
      obtain hj | hj := List.mem_append.1 hj
      · exact ⟨none, c.ticked_synthesize ▸ hj⟩
      · obtain ⟨k, _, _, -, -, hj⟩ := c.mem_commanded.1 hj
        exact ⟨some k, hj⟩
    obtain ⟨_, hj⟩ := hleaving
    obtain ⟨t, ht, -⟩ := c.mem_leavingAny.1 hj
    exact (List.getElem?_eq_some_iff.1 ht).1
  case untriggered => exact fun j t ht => h.untriggered ht
  case triggered => exact fun j t k ht => h.triggered ht
  case signal =>
    intro j t ht
    obtain ⟨dt, hdt, hresolves⟩ := h.trigger_resolves ht
    refine ⟨dt, hdt, ?_⟩
    generalize dt.trigger = trigger, t.trigger = trigger' at hresolves
    cases hresolves with
    | absent => exact .inl ⟨rfl, rfl⟩
    | @present signal k e he hkind =>
      refine .inr ⟨signal, k, c.machineCommand k e, rfl, rfl, ?_, ?_⟩
      · rw [c.getElem?_machineCommands, he, Option.map_some]
      · rw [kind_machineCommand, hkind]
  case armsOrdered =>
    intro arm harm
    obtain ⟨i, s, -, rfl⟩ := mem_arms harm
    exact c.pairwise_leaving i none
  case commandsOrdered =>
    intro command hcommand arm harm
    obtain ⟨k, heq, -⟩ := c.exists_leaving_of_mem_arms hcommand harm
    rw [heq]
    exact c.pairwise_leaving arm.1 (some k)
  case commandStates => exact fun command hcommand => c.nodup_states_arms hcommand
  case commandArms =>
    intro command hcommand arm harm
    obtain ⟨k, -, hne⟩ := c.exists_leaving_of_mem_arms hcommand harm
    exact hne
  case guard => exact c.getElem?_guards
  case ownGuard =>
    intro j t g ht hg
    rw [c.getElem?_guards, guardsBefore, getElem?_filterMap_guard ht hg, Option.map_some]
  case guards => simpa using congrArg List.length (map_method c)
  case guardCount => exact hguards

end Component.Realizes

/-- The tables of a built component hold all that it declares, each thing once. -/
theorem Model.synthesize_tabulates {d : Definition} {m : Model} (h : Model.build d = .ok m) {i : Nat}
    {dc : Definition.Component} {c : Component} (hdc : d.components[i]? = some dc)
    (hc : m.components[i]? = some c) (hsize : c.states.length < 2 ^ 32) :
    c.synthesize.Tabulates dc c := by
  obtain ⟨S⟩ := exists_modelStages h
  obtain ⟨_, hc', ⟨R⟩⟩ := getElem?_of_forall₂ S.componentRuns hdc
  cases hc.symm.trans hc'
  exact R.realizes.tabulates hsize R.stages.transitionRun.countP_guard

theorem Sample.synthesize_tabulates_door : ∃ dc, doorDefinition.components[0]? = some dc ∧
    door.synthesize.ticked = [2] ∧ door.synthesize.commanded = [0, 1] ∧
    door.synthesize.Tabulates dc door :=
  ⟨_, rfl, by decide +kernel, by decide +kernel,
    Model.synthesize_tabulates build_doorDefinition (i := 0) rfl rfl (by decide)⟩

end FlightGen
