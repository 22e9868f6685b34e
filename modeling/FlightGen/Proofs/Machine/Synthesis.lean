import Mathlib.Data.List.Nodup
import Mathlib.Tactic.Ring
import FlightGen.Machine.Synthesis
import FlightGen.Machine.Execution

/-! The tables of a machine, read back: numbers stand for the states of the component, a
transition keeps its ends and its condition, and the arms hold the transitions that leave
their state. -/

namespace FlightGen.Component

variable (c : Component)

/-! ### States -/

theorem getElem?_machineStates (i : Nat) : c.synthesize.states[i]? =
    c.states[i]?.map fun s => ⟨s.name, UInt32.ofNat i, s.activities.map c.activityRef⟩ := by
  cases h : c.states[i]? <;> simp [synthesize, machineStates, List.getElem?_zipIdx, h]

theorem stateName_synthesize {i : Nat} {s : State} (h : c.states[i]? = some s) :
    c.synthesize.stateName i = s.name.ident := by
  simp [Machine.stateName, getElem?_machineStates, h]

theorem stateName_mem {i : Nat} (h : i < c.states.length) :
    ∃ s ∈ c.synthesize.states, c.synthesize.stateName i = s.name.ident := by
  have hstate := c.getElem?_machineStates i
  rw [List.getElem?_eq_getElem h, Option.map_some] at hstate
  exact ⟨_, List.mem_of_getElem? hstate, c.stateName_synthesize (List.getElem?_eq_getElem h)⟩

theorem valueOf_synthesize {i : Nat} (h : i < c.states.length) :
    c.synthesize.valueOf i = UInt32.ofNat i := by
  simp [Machine.valueOf, getElem?_machineStates, List.getElem?_eq_getElem h]

theorem ofNat_injective {i j : Nat} (hi : i < 2 ^ 32) (hj : j < 2 ^ 32)
    (h : UInt32.ofNat i = UInt32.ofNat j) : i = j := by
  have hnat := congrArg UInt32.toNat h
  rwa [UInt32.toNat_ofNat_of_lt' hi, UInt32.toNat_ofNat_of_lt' hj] at hnat

/-- With less than `2 ^ 32` states, each has a number of its own. -/
theorem stateOf?_synthesize (hsize : c.states.length < 2 ^ 32) {i : Nat} (h : i < c.states.length) :
    c.synthesize.stateOf? (UInt32.ofNat i) = some i := by
  have hlength : c.synthesize.states.length = c.states.length := by simp [synthesize, machineStates]
  have hvalue : ∀ j (hj : j < c.synthesize.states.length),
      c.synthesize.states[j].value = UInt32.ofNat j := by
    intro j hj
    have hget := c.getElem?_machineStates j
    rw [List.getElem?_eq_getElem hj, List.getElem?_eq_getElem (hlength ▸ hj)] at hget
    rw [Option.some.inj hget]
  -- The search finds the first state with the number, and none before has it.
  refine List.findIdx?_eq_some_iff_getElem.2 ⟨hlength ▸ h, ?_, fun j hj => ?_⟩
  · simp [hvalue]
  · rw [hvalue j (by omega)]
    intro heq
    have := ofNat_injective (by omega) (by omega) (of_decide_eq_true heq)
    omega

theorem getElem?_arms (i : Nat) : c.synthesize.arms[i]? =
    c.states[i]?.map fun s => ⟨i, s.activities.map c.activityRef, c.leaving i none⟩ := by
  cases h : c.states[i]? <;> simp [synthesize, machineArms, List.getElem?_zipIdx, h]

/-! ### Transitions -/

/-- Numbering gives each guard its position behind those before. -/
theorem getElem?_numberGuards {ts : List Transition} {i : Nat} {t : Transition}
    (h : ts[i]? = some t) (before : List Guard) :
    ∃ t', (numberGuards before.length ts)[i]? = some t' ∧ t'.source = t.source ∧
      t'.target = t.target ∧ t'.trigger = t.trigger ∧
      t'.guard.bind ((before ++ ts.filterMap (·.guard))[·]?) = t.guard := by
  -- The guards before are general, since each step moves one of them there.
  induction ts generalizing before i with
  | nil => simp at h
  | cons first ts ih =>
    cases hguard : first.guard with
    | none =>
      rw [numberGuards, hguard, List.filterMap_cons_none hguard]
      cases i with
      | zero =>
        cases h
        exact ⟨_, rfl, rfl, rfl, rfl, by rw [hguard]; rfl⟩
      | succ i => exact ih h before
    | some g =>
      rw [numberGuards, hguard, List.filterMap_cons_some hguard]
      cases i with
      | zero =>
        cases h
        exact ⟨_, rfl, rfl, rfl, rfl, by simp [hguard]⟩
      | succ i =>
        have hrest := ih h (before ++ [g])
        rwa [List.length_append, List.length_singleton, List.append_assoc] at hrest

theorem length_numberGuards (next : Nat) (ts : List Transition) :
    (numberGuards next ts).length = ts.length := by
  induction ts generalizing next with
  | nil => rfl
  | cons t ts ih =>
    rw [numberGuards]
    split <;> simp [ih]

/-- Numbers go no further than there are guards. -/
theorem mem_numberGuards {next : Nat} {ts : List Transition} {t' : Machine.Transition}
    (h : t' ∈ numberGuards next ts) :
    ∃ t ∈ ts, t'.source = t.source ∧ t'.target = t.target ∧ t'.trigger = t.trigger ∧
      ∀ i ∈ t'.guard, i < next + (ts.filterMap (·.guard)).length := by
  induction ts generalizing next with
  | nil => cases h
  | cons first ts ih =>
    cases hguard : first.guard with
    | none =>
      rw [numberGuards, hguard] at h
      rw [List.filterMap_cons_none hguard]
      obtain rfl | h := List.mem_cons.1 h
      · exact ⟨first, List.mem_cons_self, rfl, rfl, rfl, by simp⟩
      · obtain ⟨t, ht, hrest⟩ := ih h
        exact ⟨t, List.mem_cons_of_mem _ ht, hrest⟩
    | some g =>
      rw [numberGuards, hguard] at h
      have hcount : ((first :: ts).filterMap (·.guard)).length =
          (ts.filterMap (·.guard)).length + 1 := by
        simp [hguard]
      rw [hcount]
      obtain rfl | h := List.mem_cons.1 h
      · refine ⟨first, List.mem_cons_self, rfl, rfl, rfl, ?_⟩
        simp only [Option.mem_def, Option.some.injEq, forall_eq']
        omega
      · obtain ⟨t, ht, hsource, htarget, htrigger, hlt⟩ := ih h
        refine ⟨t, List.mem_cons_of_mem _ ht, hsource, htarget, htrigger, fun i hi => ?_⟩
        have := hlt i hi
        omega

/-- A transition of the machine has the ends, the trigger and the guard of that of the component. -/
theorem exists_transition {i : Nat} {t : Transition} (h : c.transitions[i]? = some t) :
    ∃ t', c.synthesize.transitions[i]? = some t' ∧ t'.source = t.source ∧ t'.target = t.target ∧
      t'.trigger = t.trigger ∧ (t'.guard.bind (c.synthesize.guards[·]?)).map
        (fun g => Guard.mk g.source g.condition) = t.guard := by
  obtain ⟨t', ht', hsource, htarget, htrigger, hguard⟩ := getElem?_numberGuards h []
  refine ⟨t', ht', hsource, htarget, htrigger, ?_⟩
  rw [← hguard]
  cases t'.guard with
  | none => rfl
  | some k => cases hk : (c.transitions.filterMap (·.guard))[k]? <;>
      simp [synthesize, machineGuards, List.getElem?_zipIdx, hk]

theorem getElem?_transitions {i : Nat} {t : Transition} (h : c.transitions[i]? = some t) :
    ∃ t', c.synthesize.transitions[i]? = some t' ∧ t'.source = t.source ∧ t'.target = t.target ∧
      (t'.guard.bind (c.synthesize.guards[·]?)).map (·.condition) = t.guard.map (·.condition) := by
  obtain ⟨t', ht', hsource, htarget, -, hguard⟩ := c.exists_transition h
  refine ⟨t', ht', hsource, htarget, ?_⟩
  rw [← hguard, Option.map_map]
  rfl

theorem mem_leaving {state i : Nat} {trigger : Option Nat} :
    i ∈ c.leaving state trigger ↔
      ∃ t, c.transitions[i]? = some t ∧ t.source = state ∧ t.trigger = trigger := by
  simp only [leaving, List.mem_map, List.mem_filter, Prod.exists, exists_eq_right,
    List.mk_mem_zipIdx_iff_getElem?, Bool.and_eq_true, decide_eq_true_eq]

/-! ### Commands -/

/-- Empty arms need not be kept. -/
theorem lookup_nonempty (f : Nat → List Nat) (keys : List Nat) (key : Nat) :
    (((keys.map fun k => (k, f k)).filter (!·.2.isEmpty)).lookup key).getD [] =
      if key ∈ keys then f key else [] := by
  induction keys with
  | nil => rfl
  | cons k keys ih =>
    by_cases hkey : key = k
    · subst hkey
      cases hf : f key with
      | nil => simp [hf, ih]
      | cons i rest => simp [hf]
    · have hne : (key == k) = false := beq_eq_false_iff_ne.2 hkey
      rw [List.map_cons, List.filter_cons]
      split <;> simp [List.lookup_cons, hne, hkey, ih]

theorem lookup_commandArms {k state : Nat} (h : state < c.states.length) :
    ((c.commandArms k).lookup state).getD [] = c.leaving state (some k) := by
  rw [commandArms, lookup_nonempty fun state => c.leaving state (some k), if_pos (List.mem_range.2 h)]

@[simp] theorem mnemonic_machineCommand (k : Nat) (d : Command) :
    (c.machineCommand k d).mnemonic = d.mnemonic := by
  unfold machineCommand
  split <;> rfl

@[simp] theorem kind_machineCommand (k : Nat) (d : Command) :
    (c.machineCommand k d).kind = d.kind := by
  unfold machineCommand
  split <;> rfl

theorem arms_machineCommand {k : Nat} {d : Command} {signal : String} (h : d.kind = .trigger signal) :
    (c.machineCommand k d).arms = c.commandArms k := by
  simp [machineCommand, h]

theorem mem_machineCommands {m : Machine.Command} :
    m ∈ c.synthesize.commands ↔ ∃ k d, c.commands[k]? = some d ∧ m = c.machineCommand k d := by
  simp only [synthesize, List.mem_map, Prod.exists, List.mk_mem_zipIdx_iff_getElem?, eq_comm]
  exact exists_comm

theorem command?_eq_some {mnemonic : String} {m : Machine.Command}
    (h : c.synthesize.command? mnemonic = some m) :
    ∃ k d, c.commands[k]? = some d ∧ d.mnemonic = mnemonic ∧ m = c.machineCommand k d := by
  obtain ⟨k, d, hd, rfl⟩ := c.mem_machineCommands.1 (List.mem_of_find?_eq_some h)
  exact ⟨k, d, hd, by simpa using List.find?_some h, rfl⟩

/-- A mnemonic leads to its command. -/
theorem command?_of_getElem? (hmnemonics : (c.commands.map (·.mnemonic)).Nodup) {k : Nat}
    {d : Command} (h : c.commands[k]? = some d) :
    c.synthesize.command? d.mnemonic = some (c.machineCommand k d) := by
  have hnodup : (c.synthesize.commands.map (·.mnemonic)).Nodup := by
    have heq : c.synthesize.commands.map (·.mnemonic) = c.commands.map (·.mnemonic) := by
      refine List.ext_getElem? fun i => ?_
      cases hi : c.commands[i]? <;> simp [synthesize, List.getElem?_zipIdx, hi]
    rwa [heq]
  have hmem : c.machineCommand k d ∈ c.synthesize.commands := c.mem_machineCommands.2 ⟨k, d, h, rfl⟩
  cases hfind : c.synthesize.command? d.mnemonic with
  | none =>
    have := List.find?_eq_none.1 hfind _ hmem
    simp at this
  | some m =>
    refine congrArg some (List.inj_on_of_nodup_map hnodup (List.mem_of_find?_eq_some hfind) hmem ?_)
    simpa using List.find?_some hfind

/-! ### Positions in the tables -/

section

variable {c}

theorem length_machineStates : c.synthesize.states.length = c.states.length := by
  simp [synthesize, machineStates]

theorem lt_of_mem_leaving {state i : Nat} {trigger : Option Nat} (h : i ∈ c.leaving state trigger) :
    i < c.synthesize.transitions.length := by
  obtain ⟨t, ht, -⟩ := c.mem_leaving.1 h
  simpa [synthesize, length_numberGuards] using (List.getElem?_eq_some_iff.1 ht).1

theorem mem_arms {arm : Machine.Arm} (h : arm ∈ c.synthesize.arms) :
    ∃ i s, c.states[i]? = some s ∧ arm = ⟨i, s.activities.map c.activityRef, c.leaving i none⟩ := by
  obtain ⟨i, hi⟩ := List.mem_iff_getElem?.1 h
  rw [c.getElem?_arms] at hi
  obtain ⟨s, hs, harm⟩ := Option.map_eq_some_iff.1 hi
  exact ⟨i, s, hs, harm.symm⟩

theorem mem_commandArms {k : Nat} {arm : Nat × List Nat} : arm ∈ c.commandArms k ↔
    arm.1 < c.states.length ∧ arm.2 = c.leaving arm.1 (some k) ∧ arm.2 ≠ [] := by
  simp only [commandArms, List.mem_filter, List.mem_map, List.mem_range]
  constructor
  · rintro ⟨⟨state, hlt, rfl⟩, hne⟩
    exact ⟨hlt, rfl, by simpa using hne⟩
  · rintro ⟨hlt, heq, hne⟩
    exact ⟨⟨arm.1, hlt, by rw [← heq]⟩, by simpa using hne⟩

/-- Only the command of a signal has arms. -/
theorem arms_cases (k : Nat) (d : Command) :
    (∃ signal, d.kind = .trigger signal) ∧ (c.machineCommand k d).arms = c.commandArms k ∨
      (∀ signal, d.kind ≠ .trigger signal) ∧ (c.machineCommand k d).arms = [] := by
  unfold machineCommand
  split
  · rename_i signal hkind
    exact .inl ⟨⟨signal, hkind⟩, rfl⟩
  · rename_i hkind
    exact .inr ⟨hkind, rfl⟩

end

/-! ### A machine under way -/

/-- The machine is in state `i` of the component. -/
structure At (x : Execution) (i : Nat) : Prop where
  lt : i < c.states.length
  current : x.current = UInt32.ofNat i

variable {x : Execution} {i : Nat}

theorem At.stateOf? (h : c.At x i) (hsize : c.states.length < 2 ^ 32) :
    c.synthesize.stateOf? x.current = some i := by
  rw [h.current, c.stateOf?_synthesize hsize h.lt]

/-- A tick dispatches to the arm of the state. -/
theorem At.tick (h : c.At x i) (hsize : c.states.length < 2 ^ 32) (hactive : x.active = true)
    (library : Option Library) : ∃ activities, x.tick c.synthesize library =
      x.dispatch c.synthesize library ⟨i, activities, c.leaving i none⟩ := by
  have hlt := h.lt
  refine ⟨c.states[i].activities.map c.activityRef, ?_⟩
  rw [Execution.tick, if_pos hactive, h.stateOf? c hsize, Option.bind_some, c.getElem?_arms,
    List.getElem?_eq_getElem hlt, Option.map_some]

/-- A signal fires what leaves the state by its command. -/
theorem At.trigger (h : c.At x i) (hsize : c.states.length < 2 ^ 32) {k : Nat} {d : Command}
    {signal : String} (hd : d.kind = .trigger signal) :
    x.trigger c.synthesize (c.machineCommand k d) = x.fire c.synthesize (c.leaving i (some k)) := by
  rw [Execution.trigger, h.stateOf? c hsize]
  simp only [c.arms_machineCommand hd, c.lookup_commandArms h.lt]

end FlightGen.Component
