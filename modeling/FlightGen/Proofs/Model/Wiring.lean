import FlightGen.Proofs.Model.Built

/-! The state machine of a built component is wired as its definition says: states and
attributes stand in the order of their declaration, every transition joins the states it
names, its guard reads the attributes it names, and its trigger is the command of its signal.
Commands are told apart by their mnemonics. -/

namespace FlightGen

/-! ### Transitions -/

/-- A guard text, and the guard over identifiers that it stands for. -/
inductive Guard.Resolves (attributes : List Field) : Option String → Option Guard → Prop
  | absent : Resolves attributes none none
  | present {source : String} {e : Expr} : Expr.parse source = .ok e →
      (∀ v ∈ e.occurrences, ∃ f, attribute? attributes v = some f) →
      Resolves attributes (some source) (some ⟨source, e.rename (attributeIdent attributes)⟩)

/-- A signal, and the position of its command. -/
inductive Command.Resolves (commands : List Command) : Option String → Option Nat → Prop
  | absent : Resolves commands none none
  | present {signal : String} {index : Nat} {c : Command} : commands[index]? = some c →
      c.kind = .trigger signal → Resolves commands (some signal) (some index)

structure Transition.Realizes (m : Definition.Machine) (attributes : List Field)
    (commands : List Command) (d : Definition.Transition) (t : Transition) : Prop where
  source : m.Locates d.source t.source
  target : m.Locates d.target t.target
  guard : Guard.Resolves attributes d.guard t.guard
  trigger : Command.Resolves commands d.trigger t.trigger

theorem mem_vars {e : Expr} {v : String} : v ∈ e.vars ↔ v ∈ e.occurrences := by
  rw [Expr.vars, List.mem_mergeSort, List.mem_eraseDups]

theorem checkVariables_eq_ok {path : String} {attributes : List Field} {names : List String} :
    checkVariables path attributes names = .ok () ↔
      ∀ v ∈ names, ∃ f, attribute? attributes v = some f := by
  induction names with
  | nil => simp [checkVariables]
  | cons name names ih =>
    rw [checkVariables, List.forall_mem_cons, ← ih]
    cases attribute? attributes name <;> simp

/-- A guard reads attributes only, and decides. -/
theorem resolveGuard_eq_ok {path source : String} {attributes : List Field} {guard : Guard} :
    resolveGuard path attributes source = .ok guard ↔ ∃ e, Expr.parse source = .ok e ∧
      (∀ v ∈ e.occurrences, ∃ f, attribute? attributes v = some f) ∧
      isCondition attributes e = true ∧ guard = ⟨source, e.rename (attributeIdent attributes)⟩ := by
  unfold resolveGuard
  constructor
  · intro h
    split at h
    · cases h
    · rename_i e he
      obtain ⟨_, hcheck, h⟩ := bind_eq_ok.1 h
      split at h
      · rename_i hcondition
        cases h
        exact ⟨e, he, fun v hv => checkVariables_eq_ok.1 hcheck v (mem_vars.2 hv), hcondition, rfl⟩
      · cases h
  · rintro ⟨e, he, hvars, hcondition, rfl⟩
    rw [he]
    refine bind_eq_ok.2 ⟨(), checkVariables_eq_ok.2 fun v hv => hvars v (mem_vars.1 hv), ?_⟩
    rw [if_pos hcondition]
    rfl

theorem resolveGuard?_eq_ok {path : String} {attributes : List Field} {source : Option String}
    {guard : Option Guard} (h : resolveGuard? path attributes source = .ok guard) :
    Guard.Resolves attributes source guard := by
  cases source with
  | none =>
    cases h
    exact .absent
  | some source =>
    obtain ⟨g, hg, rfl⟩ := map_eq_ok.1 h
    obtain ⟨e, he, hvars, -, rfl⟩ := resolveGuard_eq_ok.1 hg
    exact .present he hvars

/-! ### Commands -/

/-- The commands found so far: one for each kind, and each signal has its mnemonic from the
table. -/
structure Command.Named (t : NameTable) (scope : String) (commands : List Command) : Prop where
  kinds : (commands.map (·.kind)).Nodup
  named : ∀ c ∈ commands, c ∈ lifecycleCommands ∨ ∃ signal ident,
    t.lookup scope .command signal = some ident ∧ c = ⟨ident.toUpper, .trigger signal⟩

theorem Command.Named.mnemonics {t : NameTable} {scope : String} {commands : List Command}
    (h : Named t scope commands) (ht : t.Valid)
    (hfree : t.Reserves scope .command (lifecycleCommands.map (·.mnemonic))) :
    (commands.map (·.mnemonic)).Nodup := by
  refine h.kinds.of_map.map_on fun c hc c' hc' heq => ?_
  obtain hlife | ⟨signal, ident, hident, rfl⟩ := h.named c hc <;>
    obtain hlife' | ⟨signal', ident', hident', rfl⟩ := h.named c' hc'
  · exact List.inj_on_of_nodup_map (by decide : (lifecycleCommands.map (·.mnemonic)).Nodup)
      hlife hlife' heq
  · exact absurd (List.mem_map.2 ⟨c, hlife, heq⟩) (hfree.free signal' ident' hident')
  · exact absurd (List.mem_map.2 ⟨c', hlife', heq.symm⟩) (hfree.free signal ident hident)
  · have hsignal := (ht scope .command).injective _ _ _ _ hident hident' heq
    subst hsignal
    exact congrArg (Command.mk · _) heq

theorem Command.Named.grows {t t' : NameTable} {scope : String} {commands : List Command}
    (h : Named t scope commands) (ht : t.Grows t') : Named t' scope commands := by
  refine ⟨h.kinds, fun c hc => (h.named c hc).imp_right ?_⟩
  rintro ⟨signal, ident, hident, rfl⟩
  exact ⟨signal, ident, ht.lookup _ _ _ _ (by simp) hident, rfl⟩

theorem Command.Resolves.mono {commands commands' : List Command} (h : commands <+: commands')
    {signal : Option String} {index : Option Nat} (hr : Resolves commands signal index) :
    Resolves commands' signal index := by
  cases hr with
  | absent => exact .absent
  | present hc hkind =>
    obtain ⟨more, rfl⟩ := h
    obtain ⟨hlt, -⟩ := List.getElem?_eq_some_iff.1 hc
    exact .present ((List.getElem?_append_left hlt).trans hc) hkind

/-- The command of a signal stands behind all commands before it. -/
theorem commandFor_eq {t : NameTable} {scope signal ident : String} {commands : List Command}
    (h : Command.Named t scope commands) (hident : t.lookup scope .command signal = some ident) :
    Command.Named t scope (commandFor commands ident.toUpper signal).2 ∧
      commands <+: (commandFor commands ident.toUpper signal).2 ∧
      Command.Resolves (commandFor commands ident.toUpper signal).2 (some signal)
        (some (commandFor commands ident.toUpper signal).1) := by
  unfold commandFor
  split
  · rename_i index hindex
    obtain ⟨hlt, hkind, -⟩ := List.findIdx?_eq_some_iff_getElem.1 hindex
    exact ⟨h, List.prefix_refl _, .present (List.getElem?_eq_getElem hlt) (by simpa using hkind)⟩
  · rename_i hnone
    have hnew : CommandKind.trigger signal ∉ commands.map (·.kind) := by
      intro hmem
      obtain ⟨c, hc, hkind⟩ := List.mem_map.1 hmem
      simpa [hkind] using List.findIdx?_eq_none_iff.1 hnone c hc
    refine ⟨⟨?_, fun c hc => ?_⟩, List.prefix_append _ _,
      .present (c := ⟨ident.toUpper, .trigger signal⟩) ?_ rfl⟩
    · simpa [List.nodup_append] using ⟨h.kinds, by simpa using hnew⟩
    · obtain hc | hc := List.mem_append.1 hc
      · exact h.named c hc
      · exact .inr ⟨signal, ident, hident, List.mem_singleton.1 hc⟩
    · simp

theorem buildTrigger_eq_ok {scope : String} {commands commands' : List Command}
    {signal : Option String} {trigger : Option Nat} {t t' : NameTable}
    (h : buildTrigger scope commands signal t = .ok ((trigger, commands'), t'))
    (hnamed : Command.Named t scope commands) :
    Command.Named t' scope commands' ∧ commands <+: commands' ∧
      Command.Resolves commands' signal trigger := by
  cases signal with
  | none =>
    obtain ⟨heq, rfl⟩ := Naming.pure_eq_ok.1 h
    cases heq
    exact ⟨hnamed, List.prefix_refl _, .absent⟩
  | some signal =>
    obtain ⟨ident, t₁, hident, h⟩ := Naming.bind_eq_ok.1 h
    obtain ⟨heq, rfl⟩ := Naming.pure_eq_ok.1 h
    cases heq
    exact commandFor_eq (hnamed.grows (NameTable.grows_assign hident)) (NameTable.lookup_assign hident)

/-- Commands are only appended, so the position of each one survives the rest. -/
theorem TransitionRun.realizes {d : Definition.Component} {attributes : List Field} {path : String}
    {commands commands' : List Command} {ds : List Definition.Transition} {ts : List Transition}
    {t t' : NameTable} (h : TransitionRun d attributes path commands t ds ts commands' t')
    (hnamed : Command.Named t d.name commands) :
    Command.Named t' d.name commands' ∧ commands <+: commands' ∧
      List.Forall₂ (Transition.Realizes d.machine attributes commands') ds ts := by
  induction h with
  | nil => exact ⟨hnamed, List.prefix_refl _, .nil⟩
  | cons hsource htarget hguard htrigger _ ih =>
    obtain ⟨hnamed₁, hprefix₁, hresolves⟩ := buildTrigger_eq_ok htrigger hnamed
    obtain ⟨hnamed₂, hprefix₂, hrealizes⟩ := ih hnamed₁
    refine ⟨hnamed₂, hprefix₁.trans hprefix₂, .cons ⟨hsource, htarget, ?_, ?_⟩ hrealizes⟩
    · exact resolveGuard?_eq_ok hguard
    · exact hresolves.mono hprefix₂

/-! ### Components -/

/-- How the state machine of a component follows its definition. -/
structure Component.Realizes (d : Definition.Component) (c : Component) : Prop where
  states : c.states.map (·.name.raw) = d.machine.states.map (·.name)
  stateNames : (d.machine.states.map (·.name)).Nodup
  stateIdents : (c.states.map (·.name.ident)).Nodup
  initial : d.machine.Locates d.machine.initial c.initial
  transitions : List.Forall₂ (Transition.Realizes d.machine c.attributes c.commands)
    d.machine.transitions c.transitions
  attributes : List.Forall₂ (fun f f' => f'.name.raw = f.name ∧ f'.scalar = f.scalar)
    d.attributes c.attributes
  attributeNames : (d.attributes.map (·.name)).Nodup
  attributeIdents : (c.attributes.map (·.name.ident)).Nodup
  kinds : (c.commands.map (·.kind)).Nodup
  mnemonics : (c.commands.map (·.mnemonic)).Nodup

namespace Component.Realizes

variable {d : Definition.Component} {c : Component} (h : c.Realizes d)

include h

theorem length_states : c.states.length = d.machine.states.length := by
  simpa using congrArg List.length h.states

theorem initial_lt : c.initial < c.states.length :=
  h.length_states ▸ h.initial.lt

theorem target_lt {i : Nat} {t : Transition} (ht : c.transitions[i]? = some t) :
    t.target < c.states.length := by
  obtain ⟨t', -, hrealizes⟩ := exists_of_forall₂ h.transitions.flip (List.mem_of_getElem? ht)
  exact h.length_states ▸ hrealizes.target.lt

theorem attributeRaws : (c.attributes.map (·.name.raw)).Nodup := by
  have hraws := map_raw_eq Field.name h.attributes fun _ _ hf => hf.1
  rw [List.map_map] at hraws
  exact hraws ▸ h.attributeNames

end Component.Realizes

theorem buildState_eq_ok {d : Definition.Component} {activities : List Activity} {path : String}
    {s : Definition.State} {state : State} {t t' : NameTable}
    (h : buildState d activities path s t = .ok (state, t')) :
    state.name.raw = s.name ∧ t'.Holds path .state state.name := by
  obtain ⟨indices, _, hlift, h⟩ := Naming.bind_eq_ok.1 h
  obtain ⟨-, rfl⟩ := Naming.lift_eq_ok.1 hlift
  obtain ⟨ident, t₁, hident, h⟩ := Naming.bind_eq_ok.1 h
  obtain ⟨rfl, rfl⟩ := Naming.pure_eq_ok.1 h
  exact ⟨rfl, NameTable.lookup_assign hident⟩

theorem ComponentStages.states {records : List RecordType} {d : Definition.Component} {c : Component}
    {t t' : NameTable} (S : ComponentStages records d t c t') :
    t'.Lists (d.name ++ "::" ++ d.machine.name) .state (d.machine.states.map (·.name))
      (c.states.map (·.name)) := by
  refine NameTable.Lists.reaches ?_ (by simp) S.afterStates_reaches
  exact Naming.lists_of_mapM State.name (by simp) (within_buildState (P := fun _ _ => True) trivial _ _)
    (fun _ _ _ _ => buildState_eq_ok) S.states_eq

namespace ComponentRun

variable {records : List RecordType} {d : Definition.Component} {c : Component} {t' : NameTable}
  (R : ComponentRun records t' d c)

include R

theorem valid_after : R.after.Valid :=
  R.stages.reaches.grows.valid R.valid

/-- The lifecycle commands are reserved before any signal has a name. -/
theorem reserves_lifecycle :
    R.after.Reserves d.name .command (lifecycleCommands.map (·.mnemonic)) := by
  have hempty := R.stages.names_afterStates.trans R.commands
  have hkeys : (lifecycleCommands.map (·.mnemonic)).map (NameKind.key .command) =
      lifecycleCommands.map (·.mnemonic) := by decide +kernel
  have hreserves := Naming.reserves_reserveAll hempty R.stages.lifecycle_eq
  rw [hkeys] at hreserves
  exact R.stages.afterLifecycle_reaches.reserves hreserves

theorem commands_named : Command.Named R.after d.name c.commands ∧ lifecycleCommands <+: c.commands ∧
    List.Forall₂ (Transition.Realizes d.machine c.attributes c.commands)
      d.machine.transitions c.transitions := by
  obtain ⟨hnamed, hprefix, hrealizes⟩ :=
    R.stages.transitionRun.realizes ⟨by decide, fun c hc => .inl hc⟩
  exact ⟨hnamed.grows R.stages.afterTransitions_reaches.grows, hprefix, hrealizes⟩

theorem realizes : c.Realizes d := by
  obtain ⟨hnamed, -, hrealizes⟩ := R.commands_named
  obtain ⟨hattributeNames, hfields⟩ := buildFields_eq_ok R.stages.attributes_eq
  have hstates := R.stages.states.raws
  have hstateIdents := R.stages.states.nodup_idents R.valid_after R.stages.stateNames
  have hattributeIdents := R.stages.attributes.nodup_idents R.valid_after hattributeNames
  rw [List.map_map] at hstates hstateIdents hattributeIdents
  exact ⟨hstates, R.stages.stateNames, hstateIdents, R.stages.initial_eq, hrealizes, hfields,
    hattributeNames, hattributeIdents, hnamed.kinds, hnamed.mnemonics R.valid_after R.reserves_lifecycle⟩

end ComponentRun

theorem Model.realizes_of_build {d : Definition} {m : Model} (h : Model.build d = .ok m) :
    List.Forall₂ Component.Realizes d.components m.components := by
  obtain ⟨S⟩ := exists_modelStages h
  exact S.componentRuns.imp fun _ _ ⟨R⟩ => R.realizes

/-! ### A sample machine

A door that opens when it is pushed, unless a switch is on, and shuts by itself. -/

namespace Sample

def doorDefinition : Definition where
  recordTypes := []
  components := [{
    name := "Door"
    attributes := [⟨"switch", .bool⟩]
    machine := {
      name := "Cycle"
      initial := "Shut"
      states := [⟨"Shut", []⟩, ⟨"Wide open", []⟩]
      transitions := [
        ⟨"Shut", "Shut", some "switch", some "push"⟩,
        ⟨"Shut", "Wide open", none, some "push"⟩,
        ⟨"Wide open", "Shut", some "switch == false", none⟩] }
    activities := [] }]

def door : Component where
  name := ⟨"Door", "Door"⟩
  machine := ⟨"Cycle", "Cycle"⟩
  states := [⟨⟨"Shut", "Shut"⟩, []⟩, ⟨⟨"Wide open", "Wide_open"⟩, []⟩]
  initial := 0
  transitions := [
    ⟨0, 0, some ⟨"switch", .var "switch_"⟩, some 2⟩,
    ⟨0, 1, none, some 2⟩,
    ⟨1, 0, some ⟨"switch == false", .binary .equal (.var "switch_") (.literal (.bool false))⟩, none⟩]
  activities := []
  attributes := [⟨⟨"switch", "switch_"⟩, .bool⟩]
  commands := [⟨"START_STATE_MACHINE", .start⟩, ⟨"STOP_STATE_MACHINE", .stop⟩,
    ⟨"PUSH", .trigger "push"⟩]

theorem build_doorDefinition : Model.build doorDefinition = .ok ⟨[], [door]⟩ := by
  decide +kernel

end Sample

end FlightGen
