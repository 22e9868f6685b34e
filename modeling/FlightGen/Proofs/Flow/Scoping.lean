import Mathlib.Data.List.Pairwise
import FlightGen.Proofs.Flow.Constraints

/-! Scoping of lowered activities. Every variable is declared once, before its first use, and
under a name that neither the bodies of opaque actions nor the class use for anything
else. -/

namespace FlightGen

namespace Operation

/-- The variables that an operation introduces. -/
def declares : Operation → List String
  | .receive _ var _ _ | .create var _ _ | .literal var _ | .read var _ _ _ => [var]
  | .block _ _ exports => exports.map (·.outer)
  | .call result _ _ _ => (result.map (·.1)).toList
  | _ => []

/-- The variables inside a block. -/
def locals : Operation → List BlockLocal
  | .block locals _ _ => locals
  | _ => []

/-- An operation introduces a variable whose object belongs to the routine alone. -/
inductive Owns : Operation → String → Prop
  | create {x record : String} {fields : List (String × Scalar)} : Owns (.create x record fields) x
  | call {x target method : String} {type : DataType} {arguments : List String} :
      Owns (.call (some (x, type)) target method arguments) x
  | copy {parameter x : String} {type : DataType} : Owns (.receive parameter x type true) x

theorem slot?_eq_some {op : Operation} {i : Nat} : op.slot? = some i ↔ ∃ x, op = .output i x := by
  cases op <;> simp [slot?]

theorem Owns.mem_declares {op : Operation} {x : String} (h : op.Owns x) : x ∈ op.declares := by
  cases h <;> exact List.mem_singleton_self _

end Operation

/-- The variables of a routine. -/
def Routine.declares (r : Routine) : List String :=
  r.steps.flatMap (·.operation.declares)

/-- Where all variables are different, each has one step that declares it. -/
theorem Routine.eq_of_declares {r : Routine} (h : r.declares.Nodup) {s s' : Step} {x : String}
    (hs : s ∈ r.steps) (hs' : s' ∈ r.steps) (hx : x ∈ s.operation.declares)
    (hx' : x ∈ s'.operation.declares) : s = s' := by
  by_contra hne
  have hsymm : Std.Symm (Function.onFun List.Disjoint fun s : Step => s.operation.declares) :=
    ⟨fun _ _ h => h.symm⟩
  have hdisjoint := (List.nodup_flatMap.1 h).2.forall hs hs' hne
  exact hdisjoint hx hx'

/-- The variables of a routine are in order, where `names` belong to the class. -/
structure Routine.WellScoped (names : List String) (r : Routine) : Prop where
  distinct : r.declares.Nodup
  declared : ∀ before s after, r.steps = before ++ s :: after →
    ∀ x ∈ s.operation.uses, ∃ s' ∈ before, x ∈ s'.operation.declares
  locals : ∀ x ∈ r.declares, ∀ s ∈ r.steps, ∀ l ∈ s.operation.locals, x ≠ l.name
  names : ∀ x ∈ r.declares, x ∉ names
  /-- Writes go to objects of the routine, and to no parameter that it shares. -/
  writes : ∀ before s after object feature value, r.steps = before ++ s :: after →
    s.operation = .write object feature value →
    (∃ s' ∈ before, s'.operation.Owns object) ∧
      ∀ s' ∈ r.steps, ∀ parameter type, s'.operation ≠ .receive parameter object type false
  /-- A routine with one output ends with it. -/
  output : r.outputs.length = 1 → ∃ before node x, r.steps = before ++ [⟨node, .output 0 x⟩] ∧
    ∀ s ∈ before, s.operation.slot? = none

namespace Flow

variable {f : Flow} {r : Routine}

namespace Lowering

variable {L : f.Lowering r} {k : Nat} {n : Nat} {s : Step} {x : String}

/-! ### Declarations -/

theorem map_outer_blockExports {outer : List String} {outputs : List Pin}
    (h : outer.length = outputs.length) : (blockExports outer outputs).map (·.outer) = outer := by
  rw [blockExports, List.map_map]
  exact List.map_fst_zip h.le

/-- A step declares variables of its own node. -/
theorem Stands.declares_sublist (h : L.Stands n s) :
    s.operation.declares.Sublist (allVars L.vars n) := by
  obtain ⟨-, -, hp⟩ := h
  generalize s.operation = operation at hp ⊢
  cases hp with
  | receive | create | literal | read => exact List.singleton_sublist.2 (valueVar_mem _ _)
  | block h =>
    rw [Operation.declares, map_outer_blockExports (L.length_outputVars_opaqueAction h)]
    exact List.sublist_cons_self _ _
  | @call target arguments routine =>
    cases hhead : routine.outputs.head? with
    | none => simp [Operation.declares]
    | some => exact List.singleton_sublist.2 (valueVar_mem _ _)
  | write | output | fork | join => exact List.nil_sublist _

theorem exists_result {target : Nat} {arguments : List Argument} {routine : Routine}
    {type : DataType} (h : f.action n = .call target arguments)
    (hc : f.callees.lookup n = some routine) (ht : f.typeOf ⟨n, none⟩ = .ok type) :
    ∃ slot, routine.outputs.head? = some slot := by
  have hown := (typeOf_own h (by simp) (by simp)).1 ht
  simp only [ownType, hc, Option.bind_some] at hown
  obtain ⟨slot, hslot, -⟩ := Option.map_eq_some_iff.1 hown
  exact ⟨slot, hslot⟩

/-- The variable of a value that a node has of its own is declared by the step of the node. -/
theorem Stored.declared {o : Outlet} {type : DataType} (h : L.Stored o x type)
    (hr : f.RootOf o.node o.node) (hs : L.Stands o.node s) : x ∈ s.operation.declares := by
  cases h with
  | output h _ hx =>
    obtain ⟨-, -, hp⟩ := hs
    generalize s.operation = operation at hp ⊢
    cases hp with
    | block h' =>
      rw [Operation.declares, map_outer_blockExports (L.length_outputVars_opaqueAction h')]
      exact List.mem_of_getElem? hx
    | receive h' | output h' | create h' | literal h' | read h' | write h' | call h' | fork h'
    | join h' => cases h.symm.trans h'
  | value hr' ht =>
    cases hr.unique hr'
    obtain ⟨-, -, hp⟩ := hs
    generalize s.operation = operation at hp ⊢
    cases hp with
    | receive | create | literal | read => exact List.mem_singleton_self _
    | call h hc =>
      obtain ⟨slot, hslot⟩ := exists_result h hc ht
      rw [hslot]
      exact List.mem_singleton_self _
    | write h => exact absurd h (hr.not_write _ _ _)
    | output h | block h | fork h | join h =>
      exact absurd ht (typeOf_ne_ok h (by simp) (by simp) rfl type)

theorem Stands.action_of_write (h : L.Stands n s) {object feature value : String}
    (hs : s.operation = .write object feature value) :
    ∃ object name value, f.action n = .write object name value := by
  obtain ⟨-, -, hp⟩ := h
  rw [hs] at hp
  cases hp with
  | write h => exact ⟨_, _, _, h⟩

/-- A step that stands for the root of a write introduces an object of the routine. -/
theorem Stands.owns (h : L.Stands n s) {type : DataType} (hproduces : (f.action n).Produces)
    (ht : f.typeOf ⟨n, none⟩ = .ok type) (hw : n ∈ L.written) :
    s.operation.Owns (valueVar L.vars n) := by
  obtain ⟨-, -, hp⟩ := h
  generalize s.operation = operation at hp ⊢
  cases hp with
  | receive =>
    rw [decide_eq_true hw]
    exact .copy
  | create => exact .create
  | call h hc =>
    obtain ⟨slot, hslot⟩ := exists_result h hc ht
    rw [hslot]
    exact .call
  | output h | literal h | read h | write h | block h | fork h | join h =>
    rw [h] at hproduces
    cases hproduces

/-! ### Names -/

theorem name_inputLocal {vars : List NodeVars} {pin : Pin} {l : BlockLocal}
    (h : f.inputLocal vars pin = .ok l) : l.name = pin.name.ident := by
  unfold inputLocal at h
  split at h
  · obtain ⟨_, -, h⟩ := bind_eq_ok.1 h
    cases h
    rfl
  · cases h
    rfl

theorem mem_pinIdents {a : Action} {pin : Pin} (h : pin ∈ a.pins) :
    pin.name.ident ∈ pinIdents a := by
  cases a with
  | opaqueAction => exact List.mem_map.2 ⟨pin, h, rfl⟩
  | _ => cases h

/-- The variables of a block are named by the pins of its node. -/
theorem Stands.locals (h : L.Stands n s) {l : BlockLocal} (hl : l ∈ s.operation.locals) :
    ∃ pin ∈ (f.action n).pins, l.name = pin.name.ident := by
  obtain ⟨-, -, hp⟩ := h
  generalize s.operation = operation at hp hl
  cases hp with
  | @block body language inputs outputs locals h hlocals ht =>
    rw [h]
    obtain hl | ⟨pin, hpin, rfl⟩ := exists_pin_of_local hl
    · obtain ⟨pin, hpin, hlocal⟩ := (mem_of_mapM hlocals).1 hl
      exact ⟨pin, List.mem_append_left _ hpin, name_inputLocal hlocal⟩
    · exact ⟨pin, List.mem_append_right _ hpin, rfl⟩
  | _ => cases hl

/-- Variables have names of their own: none is a name of the class or that of a pin. -/
theorem var_apart (hf : f.activity.Resolved k)
    (hapart : f.activity.Apart (f.component.classNames f.records)) (hn : n < f.size)
    (hx : x ∈ allVars L.vars n) :
    x ∉ f.component.classNames f.records ∧
      ∀ m < f.size, ∀ pin ∈ (f.action m).pins, x ≠ pin.name.ident := by
  obtain ⟨v, -, -, hv, -⟩ := getElem?_vars L.vars_eq (List.getElem?_eq_getElem hn)
  rw [allVars_eq hv] at hx
  have hmem : x ∈ L.vars.flatMap NodeVars.all :=
    List.mem_flatMap.2 ⟨v, List.mem_of_getElem? hv, hx⟩
  obtain hident | hfree := (vars_unique hf.idents L.vars_eq).2 x hmem
  · obtain ⟨node, hnode, rfl⟩ := List.mem_map.1 hident
    refine ⟨hapart.names node hnode, fun m hm pin hpin => ?_⟩
    obtain ⟨node', hnode', -, haction⟩ := f.exists_node hm
    exact hapart.pins node hnode node' hnode' pin (haction ▸ hpin)
  · refine ⟨fun h => hfree (List.mem_append_left _ h), fun m hm pin hpin heq => ?_⟩
    obtain ⟨node, hnode, -, haction⟩ := f.exists_node hm
    refine hfree (List.mem_append_right _ (List.mem_flatMap.2 ⟨node, hnode, ?_⟩))
    exact List.mem_cons_of_mem _ (heq ▸ mem_pinIdents (haction ▸ hpin))

/-! ### Steps -/

section

variable (L) (hf : f.activity.Resolved k)
include L hf

/-- A step with its node, and with steps before it for all nodes that come first. -/
theorem exists_stands {before after : List Step} (h : r.steps = before ++ s :: after) :
    ∃ n, L.Stands n s ∧ ∀ m, Relation.TransGen f.Stated m n → ∃ s' ∈ before, L.Stands m s' := by
  have hstands := L.stands hf
  rw [h] at hstands
  have hbefore := List.forall₂_take_append _ _ _ hstands
  have hrest := List.forall₂_drop_append _ _ _ hstands
  have hnodes := L.nodes.take_append_drop before.length
  generalize L.nodes.drop before.length = rest at hrest hnodes
  cases hrest with
  | @cons n _ rest _ hs _ =>
    refine ⟨n, hs, fun m hm => exists_of_forall₂ hbefore ?_⟩
    have hnodup := L.nodup_nodes
    have hfirst := L.before_of_path (L.path_of_stated hf hm)
    rw [← hnodes] at hnodup hfirst
    exact (before_append_cons_iff hnodup).1 hfirst

theorem nodup_declares : r.declares.Nodup := by
  refine List.nodup_flatMap.2 ⟨fun s hs => ?_, ?_⟩
  · obtain ⟨n, -, h⟩ := exists_of_forall₂ (L.stands hf).flip hs
    exact h.declares_sublist.nodup (allVars_unique hf.idents L.vars_eq h.lt h.lt).1
  · refine pairwise_of_forall₂ (L.stands hf) L.nodup_nodes fun n n' s s' h h' hne x hx hx' => hne ?_
    exact allVars_inj hf h.lt h'.lt (h.declares_sublist.subset hx) (h'.declares_sublist.subset hx')

/-- What a step uses was declared before. -/
theorem declared_of_uses {before after : List Step} (h : r.steps = before ++ s :: after)
    (hx : x ∈ s.operation.uses) : ∃ s' ∈ before, x ∈ s'.operation.declares := by
  obtain ⟨n, hs, hfirst⟩ := L.exists_stands hf h
  obtain ⟨o, type, hroot, hstored, hpath⟩ := hs.uses_origin hx
  obtain ⟨s', hs', hstands⟩ := hfirst o.node hpath
  exact ⟨s', hs', hstored.declared hroot hstands⟩

/-- What a step writes to was introduced before as an object of the routine. -/
theorem owned_of_write {before after : List Step} {object feature value : String}
    (h : r.steps = before ++ s :: after) (hs : s.operation = .write object feature value) :
    ∃ s' ∈ before, s'.operation.Owns object := by
  obtain ⟨n, hstands, hfirst⟩ := L.exists_stands hf h
  obtain ⟨object', name, value', haction⟩ := hstands.action_of_write hs
  obtain ⟨root, record, field, v, hroot, haccess, heq, -⟩ := hstands.write haction
  cases hs.symm.trans heq
  obtain ⟨s', hs', hstands'⟩ := hfirst root (hroot.path_of_consumed (by simp [haction, Action.consumed]))
  have hwritten : root ∈ L.written := List.mem_map.2
    ⟨⟨n, root, name⟩, (mem_writes L.writes_eq).2 ⟨object', value', haction, hroot⟩, rfl⟩
  exact ⟨s', hs', hstands'.owns (produces_of_typeOf haccess.type hroot.not_write) haccess.type
    hwritten⟩

/-- The only output of a routine comes at its end. -/
theorem ends_with_output (h : r.outputs.length = 1) :
    ∃ before node x, r.steps = before ++ [⟨node, .output 0 x⟩] ∧
      ∀ s ∈ before, s.operation.slot? = none := by
  obtain ⟨n, hn⟩ : ∃ n, f.activity.parameters .output = [n] := by
    rw [L.outputs_eq, ← (slots_forall₂ hf .output).length_eq] at h
    exact List.length_eq_one_iff.1 h
  have hfilter : L.nodes.filter (f.activity.isParameter .output) = [n] := by
    have hperm := (L.nodes_perm hf).filter (f.activity.isParameter .output)
    exact List.perm_singleton.1 (hn ▸ hperm)
  obtain ⟨middle, hnodes⟩ := L.nodes_eq_append hf
  rw [hfilter] at hnodes
  generalize L.nodes.filter (f.activity.isParameter .input) ++ middle = first at hnodes
  have hstands := (L.stands hf).flip
  have hnodup := L.nodup_nodes
  rw [hnodes] at hstands hnodup
  have hfirst := List.forall₂_take_append _ _ _ hstands
  have hlast := List.forall₂_drop_append _ _ _ hstands
  have hsteps := r.steps.take_append_drop first.length
  generalize r.steps.drop first.length = last at hlast hsteps
  cases hlast with
  | @cons s _ last _ hs hnil =>
    cases hnil
    have hslot := Stands.slot_eq hf hs (i := 0) (by rw [hn]; rfl)
    obtain ⟨node, op⟩ := s
    obtain ⟨x, rfl⟩ := Operation.slot?_eq_some.1 hslot
    refine ⟨_, node, x, hsteps.symm, fun s' hs' => ?_⟩
    obtain ⟨n', hn', hs'⟩ := exists_of_forall₂ hfirst hs'
    -- Another output would need a slot of its own.
    refine Option.eq_none_iff_forall_not_mem.2 fun i hi => ?_
    have hget := Stands.slot hf hs' hi
    rw [hn] at hget
    cases List.mem_singleton.1 (List.mem_of_getElem? hget)
    exact (List.nodup_append.1 hnodup).2.2 n hn' n (List.mem_singleton_self _) rfl

end

end Lowering

/-- The routine of an activity of a built model is well scoped. -/
theorem lower_wellScoped {d : Definition} {m : Model} (hm : Model.build d = .ok m) (hf : f.Of m)
    (hr : f.lower = .ok r) : r.WellScoped (f.component.classNames m.recordTypes) := by
  have hmodel := Model.resolved_of_build hm
  have hresolved := hf.resolved hmodel
  have hapart := hmodel.apart _ hf.component _ hf.activity
  rw [← hf.records] at hapart ⊢
  obtain ⟨L⟩ := f.exists_lowering hr
  have hvar : ∀ x ∈ r.declares, ∃ n < f.size, x ∈ allVars L.vars n := by
    intro x hx
    obtain ⟨s, hs, hx⟩ := List.mem_flatMap.1 hx
    obtain ⟨n, -, hstands⟩ := exists_of_forall₂ (L.stands hresolved).flip hs
    exact ⟨n, hstands.lt, hstands.declares_sublist.subset hx⟩
  refine ⟨L.nodup_declares hresolved, ?_, ?_, ?_, ?_, L.ends_with_output hresolved⟩
  · exact fun before s after h x hx => L.declared_of_uses hresolved h hx
  · intro x hx s hs l hl
    obtain ⟨n, hn, hx⟩ := hvar x hx
    obtain ⟨m, -, hstands⟩ := exists_of_forall₂ (L.stands hresolved).flip hs
    obtain ⟨pin, hpin, hname⟩ := hstands.locals hl
    exact hname ▸ (L.var_apart hresolved hapart hn hx).2 m hstands.lt pin hpin
  · intro x hx
    obtain ⟨n, hn, hx⟩ := hvar x hx
    exact (L.var_apart hresolved hapart hn hx).1
  · intro before s after object feature value h hs
    obtain ⟨s', hs', howns⟩ := L.owned_of_write hresolved h hs
    refine ⟨⟨s', hs', howns⟩, fun s'' hs'' parameter type heq => ?_⟩
    have hmem : s' ∈ r.steps := h ▸ List.mem_append_left _ hs'
    have hsame : s' = s'' := Routine.eq_of_declares (L.nodup_declares hresolved) hmem hs''
      howns.mem_declares (by rw [heq]; exact List.mem_singleton_self _)
    rw [hsame, heq] at howns
    cases howns

/-- `Survey` keeps its own copy of the pose, and its pins `a`, `b` and `ok` stay apart from its
variables. -/
theorem lower_wellScoped_surveying :
    Sample.surveyed.WellScoped (Sample.rover.classNames Sample.surveyModel.recordTypes) ∧
      Sample.surveyed.declares = ["pose_copy", "t", "g", "h", "o_ok"] := by
  have hscoped :=
    lower_wellScoped Sample.build_surveyDefinition Sample.surveying_of Sample.lower_surveying
  exact ⟨hscoped, rfl⟩

end Flow

end FlightGen
