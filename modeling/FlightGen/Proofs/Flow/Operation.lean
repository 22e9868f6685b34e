import FlightGen.Proofs.Flow.Lowering

/-! What the nodes of a lowered activity do: the operation of each node, with the
variables it uses and the types that were found for them. -/

namespace FlightGen.Flow

variable {f : Flow} {r : Routine}

/-! ### Checks -/

theorem expectType_eq_ok {n : Nat} {o : Outlet} {expected : DataType} :
    f.expectType n o expected = .ok () ↔ f.typeOf o = .ok expected := by
  unfold expectType
  rw [bind_eq_ok]
  constructor
  · rintro ⟨found, hfound, h⟩
    split at h
    · rename_i heq
      rw [hfound, heq]
    · cases h
  · intro h
    refine ⟨expected, h, ?_⟩
    rw [if_pos rfl]
    rfl

theorem feature_eq_ok {n : Nat} {object : Outlet} {name : String} {field : Field}
    (h : f.feature n object name = .ok field) :
    ∃ ident record, f.typeOf object = .ok (.record ident) ∧
      f.records.find? (·.name.ident = ident) = some record ∧ record.field? name = some field := by
  obtain ⟨type, htype, h⟩ := bind_eq_ok.1 h
  unfold featureOf at h
  split at h
  · cases h
  · rename_i record hrecord
    split at h
    · cases h
    · rename_i field' hfield
      cases h
      cases type with
      | scalar => cases hrecord
      | record ident => exact ⟨ident, record, htype, hrecord, hfield⟩

theorem argumentFor_eq_ok {n parameter : Nat} {arguments : List Argument} {name : String}
    {a : Argument} :
    f.argumentFor n arguments parameter name = .ok a ↔
      arguments.find? (·.parameter = parameter) = some a := by
  unfold argumentFor
  split
  · rename_i h
    rw [h, Except.ok.injEq, Option.some.injEq]
  · rename_i h
    rw [h]
    exact ⟨nofun, nofun⟩

/-! ### Operations -/

/-- The identifier of a node. -/
def ident (f : Flow) (n : Nat) : String :=
  (f.activity.nodes[n]?.map (·.ident)).getD ""

/-- The operation of a node, with all that was found out about what it uses. -/
inductive Performs (f : Flow) (vars : List NodeVars) (written : List Nat) (n : Nat) :
    Operation → Prop
  | receive {name : Name} {type : ParameterType} {source : Option Outlet}
      (h : f.action n = .parameter .input name type source) :
      Performs f vars written n (.receive (f.ident n) (valueVar vars n) (f.dataType type)
        (decide (n ∈ written)))
  | output {name : Name} {type : ParameterType} {source : Outlet} {x : String}
      (h : f.action n = .parameter .output name type (some source))
      (hx : f.outletVar vars source = .ok x) (ht : f.typeOf source = .ok (f.dataType type)) :
      Performs f vars written n
        (.output (((f.slots .output).findIdx? (·.ident = f.ident n)).getD 0) x)
  | create {index : Nat} {record : RecordType} (h : f.action n = .create index)
      (hr : f.records[index]?.getD ⟨⟨"", ""⟩, []⟩ = record) :
      Performs f vars written n (.create (valueVar vars n) record.name.ident
        (record.fields.map fun field => (field.name.ident, field.scalar)))
  | literal {value : Value} (h : f.action n = .literal value) :
      Performs f vars written n (.literal (valueVar vars n) value)
  | read {object : Outlet} {name x : String} {field : Field} (h : f.action n = .read object name)
      (hf : f.feature n object name = .ok field) (hx : f.outletVar vars object = .ok x) :
      Performs f vars written n (.read (valueVar vars n) x field.name.ident field.scalar)
  | write {object value : Outlet} {name x v : String} {field : Field}
      (h : f.action n = .write object name value) (hf : f.feature n object name = .ok field)
      (hx : f.outletVar vars object = .ok x) (hv : f.outletVar vars value = .ok v)
      (ht : f.typeOf value = .ok (.scalar field.scalar)) :
      Performs f vars written n (.write x field.name.ident v)
  | block {body : String} {language : Option String} {inputs outputs : List Pin}
      {locals : List BlockLocal} (h : f.action n = .opaqueAction body language inputs outputs)
      (hl : inputs.mapM (f.inputLocal vars) = .ok locals)
      (ht : ∀ pin ∈ inputs, ∀ o ∈ pin.source, f.typeOf o = .ok (.scalar pin.scalar)) :
      Performs f vars written n (.block (outputs.foldl addOutputLocal locals)
        (Text.trimmedLines body) (blockExports (outputVars vars n) outputs))
  | call {target : Nat} {arguments : List Argument} {routine : Routine} {names : List String}
      (h : f.action n = .call target arguments) (hc : f.callees.lookup n = some routine)
      (hnames : List.Forall₂ (fun parameter x => ∃ a ∈ arguments,
        f.outletVar vars a.source = .ok x ∧ ∀ direction name type source,
          (f.callee target).action parameter = .parameter direction name type source →
          f.typeOf a.source = .ok (f.dataType type)) ((f.callee target).parameters .input) names) :
      Performs f vars written n (.call
        (routine.outputs.head?.map fun slot => (valueVar vars n, slot.type)) routine.qualified
        routine.ident names)
  | fork {branches : List Nat} (h : f.action n = .fork branches) :
      Performs f vars written n (.fork (branches.map f.activity.nodeId))
  | join {inputs : List Nat} (h : f.action n = .join inputs) :
      Performs f vars written n (.join (inputs.map f.activity.nodeId))

theorem performs_of_operation {vars : List NodeVars} {written : List Nat} {n : Nat} {node : Node}
    {op : Operation} (hnode : f.activity.nodes[n]? = some node)
    (hcheck : f.checkNode n = .ok ()) (h : f.operation vars written n node = .ok op) :
    f.Performs vars written n op := by
  have haction : f.action n = node.action := by simp [action, Activity.action, hnode]
  have hident : f.ident n = node.ident := by simp [ident, hnode]
  unfold operation at h
  unfold checkNode at hcheck
  cases hn : node.action with
  | opaqueAction body language inputs outputs =>
    rw [haction, hn] at hcheck
    rw [hn] at h
    obtain ⟨locals, hl, h⟩ := bind_eq_ok.1 h
    cases h
    refine .block (haction.trans hn) hl fun pin hpin o ho => ?_
    have hp := forM_eq_ok.1 hcheck pin hpin
    unfold checkPin at hp
    rw [ho] at hp
    exact expectType_eq_ok.1 hp
  | call target arguments =>
    rw [haction, hn] at hcheck
    rw [hn] at h
    dsimp only at h
    split at h
    · cases h
    · rename_i routine hroutine
      obtain ⟨names, hnames, h⟩ := bind_eq_ok.1 h
      cases h
      refine .call (haction.trans hn) hroutine ?_
      have hboth := (List.forall₂_and_left _ _).2 ⟨forM_eq_ok.1 hcheck, mapM_eq_ok.1 hnames⟩
      refine hboth.imp fun parameter x h => ?_
      obtain ⟨hc, hx⟩ := h
      obtain ⟨a, ha, hx⟩ := bind_eq_ok.1 hx
      have hfind := argumentFor_eq_ok.1 ha
      refine ⟨a, List.mem_of_find?_eq_some hfind, hx, fun _ _ _ _ hparameter => ?_⟩
      unfold checkArgument at hc
      rw [hparameter] at hc
      obtain ⟨a', ha', ht⟩ := bind_eq_ok.1 hc
      cases hfind.symm.trans (argumentFor_eq_ok.1 ha')
      exact expectType_eq_ok.1 ht
  | read object feature =>
    rw [hn] at h
    obtain ⟨field, hf, h⟩ := bind_eq_ok.1 h
    obtain ⟨x, hx, h⟩ := bind_eq_ok.1 h
    cases h
    exact .read (haction.trans hn) hf hx
  | write object feature value =>
    rw [haction, hn] at hcheck
    rw [hn] at h
    obtain ⟨field, hf, h⟩ := bind_eq_ok.1 h
    obtain ⟨x, hx, h⟩ := bind_eq_ok.1 h
    obtain ⟨v, hv, h⟩ := bind_eq_ok.1 h
    cases h
    obtain ⟨field', hf', ht⟩ := bind_eq_ok.1 hcheck
    cases hf.symm.trans hf'
    exact .write (haction.trans hn) hf hx hv (expectType_eq_ok.1 ht)
  | fork branches =>
    rw [hn] at h
    cases h
    exact .fork (haction.trans hn)
  | join inputs =>
    rw [hn] at h
    cases h
    exact .join (haction.trans hn)
  | create record =>
    rw [hn] at h
    cases h
    exact .create (haction.trans hn) rfl
  | parameter direction name type source =>
    rw [haction, hn] at hcheck
    rw [hn] at h
    cases direction with
    | input =>
      cases h
      rw [← hident]
      exact .receive (haction.trans hn)
    | output =>
      cases source with
      | none => cases h
      | some source =>
        obtain ⟨x, hx, h⟩ := bind_eq_ok.1 h
        cases h
        rw [← hident]
        exact .output (haction.trans hn) hx (expectType_eq_ok.1 hcheck)
  | literal value =>
    rw [hn] at h
    cases h
    exact .literal (haction.trans hn)

/-! ### Slots -/

theorem ident_inj {k : Nat} (hf : f.activity.Resolved k) {a b : Nat} (ha : a < f.size)
    (hb : b < f.size) (h : f.ident a = f.ident b) : a = b := by
  have hidents := hf.idents
  rw [ident, ident, ← List.getElem?_map, ← List.getElem?_map,
    List.getElem?_eq_getElem (by simpa [size] using ha),
    List.getElem?_eq_getElem (by simpa [size] using hb)] at h
  exact (List.Nodup.getElem_inj_iff hidents).1 h

theorem mem_parameters {a : Activity} {direction : Direction} {n : Nat} :
    n ∈ a.parameters direction ↔
      ∃ name type source, a.action n = .parameter direction name type source := by
  rw [Activity.parameters, List.mem_filter, List.mem_range]
  constructor
  · rintro ⟨-, h⟩
    unfold Activity.isParameter at h
    split at h
    · rename_i haction
      cases of_decide_eq_true h
      exact ⟨_, _, _, haction⟩
    · cases h
  · rintro ⟨name, type, source, h⟩
    refine ⟨?_, by simp [Activity.isParameter, h]⟩
    by_contra hn
    simp [Activity.action, List.getElem?_eq_none (not_lt.1 hn)] at h

theorem slot?_eq {k : Nat} (hf : f.activity.Resolved k) {direction : Direction} {n : Nat}
    {name : Name} {type : ParameterType} {source : Option Outlet}
    (h : f.action n = .parameter direction name type source) :
    f.slot? n = some ⟨name.raw, f.ident n, f.dataType type⟩ := by
  obtain ⟨node, hmem, hnode, haction⟩ := f.exists_node (n := n) (f.lt_size (by simp [h]))
  have hname : name.ident = f.ident n := by
    simp [ident, hnode, (hf.nodes node hmem).parameter _ _ _ _ (haction.trans h)]
  unfold slot?
  rw [h]
  simp [hname]

theorem forall₂_filterMap {α β : Type} {g : α → Option β} {xs : List α}
    (h : ∀ x ∈ xs, ∃ y, g x = some y) :
    List.Forall₂ (fun x y => g x = some y) xs (xs.filterMap g) := by
  induction xs with
  | nil => exact .nil
  | cons x xs ih =>
    obtain ⟨⟨y, hy⟩, hxs⟩ := List.forall_mem_cons.1 h
    rw [List.filterMap_cons, hy]
    exact .cons hy (ih hxs)

/-- The slots are those of the parameters, in their order. -/
theorem slots_forall₂ {k : Nat} (hf : f.activity.Resolved k) (direction : Direction) :
    List.Forall₂ (fun n slot => f.slot? n = some slot) (f.activity.parameters direction)
      (f.slots direction) := by
  refine forall₂_filterMap fun n hn => ?_
  obtain ⟨name, type, source, h⟩ := mem_parameters.1 hn
  exact ⟨_, slot?_eq hf h⟩

/-- A parameter finds its own slot by its identifier. -/
theorem exists_slot {k : Nat} (hf : f.activity.Resolved k) {direction : Direction} {n : Nat}
    {name : Name} {type : ParameterType} {source : Option Outlet}
    (h : f.action n = .parameter direction name type source) :
    ∃ i, (f.slots direction).findIdx? (·.ident = f.ident n) = some i ∧
      (f.activity.parameters direction)[i]? = some n ∧
      (f.slots direction)[i]? = some ⟨name.raw, f.ident n, f.dataType type⟩ := by
  have hmem : n ∈ f.activity.parameters direction := mem_parameters.2 ⟨_, _, _, h⟩
  have hslots := slots_forall₂ hf direction
  have hidents : (f.slots direction).map (·.ident) = (f.activity.parameters direction).map f.ident := by
    have hboth := (List.forall₂_and_left _ _).2 ⟨fun n hn => mem_parameters.1 hn, hslots⟩
    refine map_eq_of_forall₂ hboth ?_
    rintro n slot ⟨⟨_, _, _, hn⟩, hslot⟩
    cases (slot?_eq hf hn).symm.trans hslot
    rfl
  have hfind := findIdx?_key f.ident hmem fun n' hn' heq => by
    obtain ⟨_, _, _, h'⟩ := mem_parameters.1 hn'
    have hlt : n' < f.size := f.lt_size (by simp [action, h'])
    exact ident_inj hf hlt (f.lt_size (by simp [h])) heq
  refine ⟨(f.activity.parameters direction).idxOf n, ?_, ?_, ?_⟩
  · have hcongr := congrArg (·.findIdx? (· = f.ident n)) hidents
    simp only [List.findIdx?_map, Function.comp_def] at hcongr
    rw [hcongr, hfind]
  · exact List.getElem?_idxOf hmem
  · obtain ⟨slot, hslot, heq⟩ := getElem?_of_forall₂ hslots (List.getElem?_idxOf hmem)
    rw [hslot, ← heq, slot?_eq hf h]

/-- The slots take what the input parameters of an activity take. -/
def Takes (f : Flow) (a : Activity) (slots : List Slot) : Prop :=
  List.Forall₂ (fun parameter slot => ∃ direction name type source,
    a.action parameter = .parameter direction name type source ∧ slot.type = f.dataType type)
    (a.parameters .input) slots

theorem takes_slots {k : Nat} (hf : f.activity.Resolved k) : f.Takes f.activity (f.slots .input) := by
  have hboth := (List.forall₂_and_left _ _).2
    ⟨fun n hn => mem_parameters.1 hn, slots_forall₂ hf .input⟩
  refine hboth.imp fun parameter slot h => ?_
  obtain ⟨⟨name, type, source, hparameter⟩, hslot⟩ := h
  cases (slot?_eq hf hparameter).symm.trans hslot
  exact ⟨_, name, type, source, hparameter, rfl⟩

/-! ### Steps -/

namespace Lowering

variable (L : f.Lowering r) {k : Nat} (hf : f.activity.Resolved k)

/-- The roots that writes go to. -/
abbrev written : List Nat := L.writes.map (·.root)

/-- A step with the node it stands for. -/
structure Stands (n : Nat) (s : Step) : Prop where
  lt : n < f.size
  node : s.node = f.activity.nodeId n
  performs : f.Performs L.vars L.written n s.operation

theorem stands_of_step {n : Nat} (hn : n < f.size) {s : Step}
    (h : f.step L.vars L.written n = .ok s) : L.Stands n s := by
  obtain ⟨node, -, hnode, -⟩ := f.exists_node hn
  refine ⟨hn, step_node h, ?_⟩
  unfold step at h
  rw [hnode] at h
  obtain ⟨operation, ho, h⟩ := bind_eq_ok.1 h
  cases h
  exact performs_of_operation hnode (L.types n hn) ho

include hf in
/-- The steps stand for the nodes in their order. -/
theorem stands : List.Forall₂ L.Stands L.nodes r.steps := by
  have hlt : ∀ n ∈ L.nodes, n < f.size := fun n hn => (L.mem_nodes hf).1 hn
  have hboth := (List.forall₂_and_left _ _).2 ⟨hlt, mapM_eq_ok.1 L.steps_eq⟩
  exact hboth.imp fun n s ⟨hn, hs⟩ => L.stands_of_step hn hs

end Lowering

end FlightGen.Flow
