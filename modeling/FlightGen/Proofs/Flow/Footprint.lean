import FlightGen.Proofs.Flow.Operation
import FlightGen.Proofs.Run.Change

/-! The variables that the steps of a lowered activity touch. A step defines the variables
of its own node, or that of an object it writes to; it uses variables of nodes from which
a path leads to its own. -/

namespace FlightGen.Flow

variable {f : Flow} {r : Routine}

theorem lt_size_of_typeOf {o : Outlet} {type : DataType} (h : f.typeOf o = .ok type) :
    o.node < f.size :=
  f.lt_size fun hn => typeOf_ne_ok hn (by simp) (by simp) rfl type h

/-- A feature of the object that `root` produced. -/
structure Access (f : Flow) (root : Nat) (name : String) (record : RecordType) (field : Field) :
    Prop where
  type : f.typeOf ⟨root, none⟩ = .ok (.record record.name.ident)
  find : f.records.find? (·.name.ident = record.name.ident) = some record
  feature : record.field? name = some field

/-- Different features of one object have different identifiers. -/
theorem Access.ident_ne {root : Nat} {name name' : String} {record record' : RecordType}
    {field field' : Field} (hfields : ∀ t ∈ f.records, (t.fields.map (·.name.ident)).Nodup)
    (h : f.Access root name record field) (h' : f.Access root name' record' field')
    (hne : name ≠ name') : field.name.ident ≠ field'.name.ident := by
  have hident : record.name.ident = record'.name.ident := by
    simpa using h.type.symm.trans h'.type
  have hrecord : record = record' := by
    have hfind := h.find
    rw [hident, h'.find] at hfind
    exact (Option.some.inj hfind).symm
  subst hrecord
  intro heq
  have hmem := List.mem_of_find?_eq_some h.feature
  have hmem' := List.mem_of_find?_eq_some h'.feature
  have hfield := List.inj_on_of_nodup_map (hfields record (List.mem_of_find?_eq_some h.find))
    hmem hmem' heq
  have hname : field.name.raw = name := by simpa using List.find?_some h.feature
  have hname' : field'.name.raw = name' := by simpa using List.find?_some h'.feature
  exact hne (by rw [← hname, ← hname', hfield])

namespace Lowering

variable {L : f.Lowering r} {k : Nat} {n : Nat} {s : Step} {x : String}

/-! ### Owners of variables -/

theorem allVars_inj (hf : f.activity.Resolved k) {a b : Nat} (ha : a < f.size) (hb : b < f.size)
    (hx : x ∈ allVars L.vars a) (hx' : x ∈ allVars L.vars b) : a = b :=
  (allVars_unique hf.idents L.vars_eq ha hb).2 x hx hx'

theorem valueVar_mem (vars : List NodeVars) (a : Nat) : valueVar vars a ∈ allVars vars a :=
  List.mem_cons_self

theorem valueVar_inj (hf : f.activity.Resolved k) {a b : Nat} (ha : a < f.size) (hb : b < f.size)
    (h : valueVar L.vars a = valueVar L.vars b) : a = b := by
  have hmem := valueVar_mem L.vars a
  rw [h] at hmem
  exact allVars_inj hf ha hb hmem (valueVar_mem _ _)

/-- The variable of an outlet is that of a root, from which a path leads to the outlet. -/
theorem Stored.origin {o : Outlet} {type : DataType} (h : L.Stored o x type) :
    ∃ o', f.RootOf o'.node o'.node ∧ L.Stored o' x type ∧
      (o.node = o'.node ∨ Relation.TransGen f.Stated o'.node o.node) := by
  cases h with
  | output h hpin hx => exact ⟨o, .self (by simp [h]), .output h hpin hx, .inl rfl⟩
  | value hr ht =>
    have hself := RootOf.self hr.not_write
    exact ⟨⟨_, none⟩, hself, .value hself ht, hr.eq_or_path⟩

theorem Stored.own {o : Outlet} {type : DataType} (h : L.Stored o x type)
    (hr : f.RootOf o.node o.node) : o.node < f.size ∧ x ∈ allVars L.vars o.node := by
  cases h with
  | output h _ hx =>
    exact ⟨f.lt_size (by simp [h]), List.mem_cons_of_mem _ (List.mem_of_getElem? hx)⟩
  | value hr' ht =>
    cases hr.unique hr'
    exact ⟨lt_size_of_typeOf (o := ⟨o.node, none⟩) ht, valueVar_mem _ _⟩

/-- The variable of a value holds that value only. -/
theorem Stored.root_of_valueVar (hf : f.activity.Resolved k) {o : Outlet} {type : DataType} {m : Nat}
    (hm : m < f.size) (h : L.Stored o (valueVar L.vars m) type) :
    f.RootOf o.node m ∧ f.typeOf ⟨m, none⟩ = .ok type := by
  generalize hx : valueVar L.vars m = x at h
  cases h with
  | output h _ hget =>
    have hlt : o.node < f.size := f.lt_size (by simp [h])
    have hmem : x ∈ outputVars L.vars o.node := List.mem_of_getElem? hget
    have heq : m = o.node :=
      allVars_inj hf hm hlt (hx ▸ valueVar_mem _ _) (List.mem_cons_of_mem _ hmem)
    have hnodup := (allVars_unique hf.idents L.vars_eq hlt hlt).1
    rw [heq] at hx
    exact absurd (hx ▸ hmem) (List.nodup_cons.1 hnodup).1
  | value hr ht =>
    rw [valueVar_inj hf hm (lt_size_of_typeOf ht) hx]
    exact ⟨hr, ht⟩

/-! ### Definitions and uses -/

theorem Stands.defines_own (h : L.Stands n s)
    (hwrite : ∀ object feature value, f.action n ≠ .write object feature value)
    (hx : x ∈ s.operation.defines) : x ∈ allVars L.vars n := by
  obtain ⟨-, -, hp⟩ := h
  generalize s.operation = operation at hp hx
  cases hp with
  | receive | create | literal | read =>
    cases List.mem_singleton.1 hx
    exact valueVar_mem _ _
  | write h => exact absurd h (hwrite _ _ _)
  | @block body language inputs outputs locals h hl ht =>
    obtain ⟨e, he, rfl⟩ := List.mem_map.1 hx
    obtain ⟨⟨var, pin⟩, hvar, rfl⟩ := List.mem_map.1 he
    exact List.mem_cons_of_mem _ (List.of_mem_zip hvar).1
  | @call target arguments routine names h hc hnames =>
    cases hhead : routine.outputs.head? with
    | none => simp [Operation.defines, hhead] at hx
    | some slot =>
      simp only [Operation.defines, hhead, Option.map_some, Option.toList_some,
        List.mem_singleton] at hx
      exact hx ▸ valueVar_mem _ _
  | output | fork | join => cases hx

/-- The variables of a block are those of its inputs and, for outputs of other names, new
ones that start at zero. -/
theorem exists_pin_of_local {locals : List BlockLocal} {outputs : List Pin} {l : BlockLocal}
    (h : l ∈ outputs.foldl addOutputLocal locals) :
    l ∈ locals ∨ ∃ pin ∈ outputs, l = ⟨pin.name.ident, pin.scalar, none⟩ := by
  induction outputs generalizing locals with
  | nil => exact .inl h
  | cons pin outputs ih =>
    obtain h | ⟨pin', hpin', hl⟩ := ih h
    · unfold addOutputLocal at h
      split at h
      · exact .inl h
      · refine (List.mem_append.1 h).imp id fun h => ?_
        exact ⟨pin, List.mem_cons_self, List.mem_singleton.1 h⟩
    · exact .inr ⟨pin', List.mem_cons_of_mem _ hpin', hl⟩

/-- What a block starts from is stored for its input pins. -/
theorem source_stored {inputs outputs : List Pin} {locals : List BlockLocal}
    (hl : inputs.mapM (f.inputLocal L.vars) = .ok locals)
    (ht : ∀ pin ∈ inputs, ∀ o ∈ pin.source, f.typeOf o = .ok (.scalar pin.scalar))
    {l : BlockLocal} (hmem : l ∈ outputs.foldl addOutputLocal locals) (hsource : l.source = some x) :
    ∃ pin ∈ inputs, ∃ o ∈ pin.source, L.Stored o x (.scalar l.scalar) := by
  obtain hmem | ⟨_, -, rfl⟩ := exists_pin_of_local hmem
  · obtain ⟨pin, hpin, hlocal⟩ := (mem_of_mapM hl).1 hmem
    unfold inputLocal at hlocal
    split at hlocal
    · rename_i o ho
      obtain ⟨x', hx', hlocal⟩ := bind_eq_ok.1 hlocal
      cases hlocal
      cases hsource
      exact ⟨pin, hpin, o, ho, L.stored (ht pin hpin o ho) hx'⟩
    · cases hlocal
      cases hsource
  · cases hsource

theorem Stands.uses_stored (h : L.Stands n s) (hx : x ∈ s.operation.uses) :
    ∃ o ∈ (f.action n).consumed, ∃ type, L.Stored o x type := by
  obtain ⟨-, -, hp⟩ := h
  generalize s.operation = operation at hp hx
  cases hp with
  | receive | create | literal | fork | join => cases hx
  | @output name type source x' h hx' ht =>
    cases List.mem_singleton.1 hx
    rw [h]
    exact ⟨source, by simp [Action.consumed], _, L.stored ht hx'⟩
  | @read object name x' field h hfield hx' =>
    cases List.mem_singleton.1 hx
    obtain ⟨ident, record, ht, -, -⟩ := feature_eq_ok hfield
    rw [h]
    exact ⟨object, by simp [Action.consumed], _, L.stored ht hx'⟩
  | @write object value name x' v field h hfield hx' hv ht =>
    obtain ⟨ident, record, hobject, -, -⟩ := feature_eq_ok hfield
    rw [h]
    obtain rfl | hx := List.mem_cons.1 hx
    · exact ⟨object, by simp [Action.consumed], _, L.stored hobject hx'⟩
    · cases List.mem_singleton.1 hx
      exact ⟨value, by simp [Action.consumed], _, L.stored ht hv⟩
  | @block body language inputs outputs locals h hl ht =>
    obtain ⟨l, hmem, hsource⟩ := List.mem_filterMap.1 hx
    obtain ⟨pin, hpin, o, ho, hstored⟩ := source_stored hl ht hmem hsource
    rw [h]
    exact ⟨o, List.mem_filterMap.2 ⟨pin, hpin, ho⟩, _, hstored⟩
  | @call target arguments routine names h hc hnames =>
    have hboth := (List.forall₂_and_left _ _).2 ⟨fun n hn => mem_parameters.1 hn, hnames⟩
    refine forall_of_forall₂ (P := fun x => ∃ o ∈ (f.action n).consumed, ∃ type, L.Stored o x type)
      hboth ?_ x hx
    rintro parameter x ⟨⟨_, _, _, hparameter⟩, a, ha, hx', ht⟩
    rw [h]
    exact ⟨a.source, List.mem_map.2 ⟨a, ha, rfl⟩, _, L.stored (ht _ _ _ _ hparameter) hx'⟩

/-- What a step uses is a value that a node before it has of its own. -/
theorem Stands.uses_origin (h : L.Stands n s) (hx : x ∈ s.operation.uses) :
    ∃ o type, f.RootOf o.node o.node ∧ L.Stored o x type ∧
      Relation.TransGen f.Stated o.node n := by
  obtain ⟨o, ho, type, hstored⟩ := h.uses_stored hx
  obtain ⟨o', hroot, hstored', hpath⟩ := hstored.origin
  refine ⟨o', type, hroot, hstored', ?_⟩
  obtain heq | hpath := hpath
  · exact .single (heq ▸ .value ho)
  · exact hpath.tail (.value ho)

theorem Stands.uses_path (h : L.Stands n s) (hx : x ∈ s.operation.uses) :
    ∃ m < f.size, x ∈ allVars L.vars m ∧ Relation.TransGen f.Stated m n := by
  obtain ⟨o, type, hroot, hstored, hpath⟩ := h.uses_origin hx
  obtain ⟨hlt, hx⟩ := hstored.own hroot
  exact ⟨o.node, hlt, hx, hpath⟩

/-- Each output parameter has its own slot. -/
theorem Stands.slot (hf : f.activity.Resolved k) (h : L.Stands n s) {i : Nat}
    (hi : i ∈ s.operation.slot?) : (f.activity.parameters .output)[i]? = some n := by
  obtain ⟨-, -, hp⟩ := h
  generalize s.operation = operation at hp hi
  cases hp with
  | output h =>
    obtain ⟨j, hfind, hj, -⟩ := exists_slot hf h
    simp only [Operation.slot?, hfind, Option.getD_some, Option.mem_def, Option.some.injEq] at hi
    rwa [← hi]
  | _ => cases hi

theorem Stands.slot_eq (hf : f.activity.Resolved k) (h : L.Stands n s) {i : Nat}
    (hi : (f.activity.parameters .output)[i]? = some n) : s.operation.slot? = some i := by
  obtain ⟨name, type, source, haction⟩ := mem_parameters.1 (List.mem_of_getElem? hi)
  have hslot : ∃ j, s.operation.slot? = some j := by
    obtain ⟨-, -, hp⟩ := h
    generalize s.operation = operation at hp ⊢
    cases hp with
    | output => exact ⟨_, rfl⟩
    | receive h | create h | literal h | read h | write h | block h | call h | fork h | join h =>
      cases haction.symm.trans h
  obtain ⟨j, hj⟩ := hslot
  have hnodup : (f.activity.parameters .output).Nodup := List.nodup_range.filter _
  have hget := h.slot hf hj
  rw [hj, Option.some.injEq]
  exact (List.getElem?_inj (List.getElem?_eq_some_iff.1 hget).1 hnodup).1 (hget.trans hi.symm)

/-! ### Objects -/

theorem access {object : Outlet} {name : String} {field : Field}
    (hfield : f.feature n object name = .ok field) (hx : f.outletVar L.vars object = .ok x) :
    ∃ root record, f.RootOf object.node root ∧ x = valueVar L.vars root ∧
      f.Access root name record field := by
  obtain ⟨ident, record, ht, hrecord, hname⟩ := feature_eq_ok hfield
  have hident : record.name.ident = ident := by simpa using List.find?_some hrecord
  subst hident
  cases L.stored ht hx with
  | value hr hroot => exact ⟨_, record, hr, rfl, hroot, hrecord, hname⟩

theorem Stands.write (h : L.Stands n s) {object value : Outlet} {name : String}
    (haction : f.action n = .write object name value) :
    ∃ root record field v, f.RootOf object.node root ∧ f.Access root name record field ∧
      s.operation = .write (valueVar L.vars root) field.name.ident v ∧
      L.Stored value v (.scalar field.scalar) := by
  obtain ⟨-, -, hp⟩ := h
  generalize s.operation = operation at hp ⊢
  cases hp with
  | @write object' value' name' x v field h hfield hx hv ht =>
    cases haction.symm.trans h
    obtain ⟨root, record, hr, rfl, haccess⟩ := access hfield hx
    exact ⟨root, record, field, v, hr, haccess, rfl, L.stored ht hv⟩
  | receive h | output h | create h | literal h | read h | block h | call h | fork h | join h =>
    cases haction.symm.trans h

theorem Stands.read (h : L.Stands n s) {object : Outlet} {name : String}
    (haction : f.action n = .read object name) :
    ∃ root record field, f.RootOf object.node root ∧ f.Access root name record field ∧
      s.operation = .read (valueVar L.vars n) (valueVar L.vars root) field.name.ident
        field.scalar := by
  obtain ⟨-, -, hp⟩ := h
  generalize s.operation = operation at hp ⊢
  cases hp with
  | @read object' name' x field h hfield hx =>
    cases haction.symm.trans h
    obtain ⟨root, record, hr, rfl, haccess⟩ := access hfield hx
    exact ⟨root, record, field, hr, haccess, rfl⟩
  | receive h | output h | create h | literal h | write h | block h | call h | fork h | join h =>
    cases haction.symm.trans h

/-- Who uses the variable of an object: nodes that read or write one of its features, and
nodes that consume all of it. -/
theorem Stands.uses_object (hf : f.activity.Resolved k) (h : L.Stands n s) {root : Nat}
    {record : String} (hroot : f.typeOf ⟨root, none⟩ = .ok (.record record))
    (hx : valueVar L.vars root ∈ s.operation.uses) :
    (∃ object name, f.action n = .read object name ∧ f.RootOf object.node root) ∨
    (∃ object name value, f.action n = .write object name value ∧ f.RootOf object.node root) ∨
    ∀ feature, f.Consumes n root feature := by
  have hlt : root < f.size := lt_size_of_typeOf hroot
  have hrooted : ∀ {o type}, L.Stored o (valueVar L.vars root) type →
      f.RootOf o.node root ∧ type = .record record := by
    intro o type hstored
    obtain ⟨hr, ht⟩ := hstored.root_of_valueVar hf hlt
    exact ⟨hr, by simpa using ht.symm.trans hroot⟩
  obtain ⟨-, -, hp⟩ := h
  generalize s.operation = operation at hp hx
  cases hp with
  | receive | create | literal | fork | join => cases hx
  | @output name type source x' h hx' ht =>
    cases List.mem_singleton.1 hx
    exact .inr (.inr fun feature => .output h (hrooted (L.stored ht hx')).1)
  | @read object name x' field h hfield hx' =>
    cases List.mem_singleton.1 hx
    obtain ⟨ident, _, ht, -, -⟩ := feature_eq_ok hfield
    exact .inl ⟨object, name, h, (hrooted (L.stored ht hx')).1⟩
  | @write object value name x' v field h hfield hx' hv ht =>
    obtain ⟨ident, _, hobject, -, -⟩ := feature_eq_ok hfield
    obtain heq | hx := List.mem_cons.1 hx
    · rw [← heq] at hx'
      exact .inr (.inl ⟨object, name, value, h, (hrooted (L.stored hobject hx')).1⟩)
    · cases List.mem_singleton.1 hx
      cases (hrooted (L.stored ht hv)).2
  | @block body language inputs outputs locals h hl ht =>
    obtain ⟨l, hmem, hsource⟩ := List.mem_filterMap.1 hx
    obtain ⟨pin, hpin, o, ho, hstored⟩ := source_stored hl ht hmem hsource
    cases (hrooted hstored).2
  | @call target arguments routine names h hc hnames =>
    have hboth := (List.forall₂_and_left _ _).2 ⟨fun n hn => mem_parameters.1 hn, hnames⟩
    refine .inr (.inr fun feature => ?_)
    refine forall_of_forall₂ (P := fun x => x = valueVar L.vars root → f.Consumes n root feature)
      hboth ?_ _ hx rfl
    rintro parameter _ ⟨⟨_, _, _, hparameter⟩, a, ha, hx', ht⟩ rfl
    exact .call h ha (hrooted (L.stored (ht _ _ _ _ hparameter) hx')).1

end Lowering

end FlightGen.Flow
