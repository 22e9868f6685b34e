import FlightGen.Proofs.Flow.Footprint
import FlightGen.Proofs.Run.Commute

/-! The dependencies of an activity cover all conflicts between its steps. Carried out in
any order that follows them, the steps yield the same outputs. -/

namespace FlightGen.Flow

variable {f : Flow} {r : Routine} {L : f.Lowering r} {k : Nat} {a b : Nat} {s t : Step}
  {call : Callee} {arguments : List Datum}

namespace Lowering

/-- The dependencies leave the order of two nodes open. -/
structure Independent (L : f.Lowering r) (a b : Nat) : Prop where
  ne : a ≠ b
  forth : ¬ L.graph.Path a b
  back : ¬ L.graph.Path b a

theorem Independent.symm (h : L.Independent a b) : L.Independent b a :=
  ⟨h.ne.symm, h.back, h.forth⟩

section

variable (hf : f.activity.Resolved k)
include hf

theorem Independent.not_affects (h : L.Independent a b) : ¬ f.Affects a b := by
  intro haffects
  obtain hedge | hpath := (L.dependencies hf).ordered a b haffects
  · exact h.forth (.single hedge)
  · exact h.back hpath

/-- No step uses a variable of a node that it does not depend on. -/
theorem Independent.notMem_uses (h : L.Independent a b) (ha : a < f.size) (hb : L.Stands b t)
    {x : String} (hx : x ∈ allVars L.vars a) : x ∉ t.operation.uses := by
  intro hx'
  obtain ⟨m, hm, hxm, hpath⟩ := hb.uses_path hx'
  cases allVars_inj hf ha hm hx hxm
  exact h.forth (L.path_of_stated hf hpath)

theorem Independent.slots_ne (h : L.Independent a b) (ha : L.Stands a s) (hb : L.Stands b t) :
    ∀ i ∈ s.operation.slot?, i ∉ t.operation.slot? := by
  intro i hi hi'
  have hslots := (ha.slot hf hi).symm.trans (hb.slot hf hi')
  exact h.ne (Option.some.inj hslots)

/-- Steps that write to no object stay in the variables of their own nodes. -/
theorem Independent.apart (h : L.Independent a b) (ha : L.Stands a s) (hb : L.Stands b t)
    (hwa : ∀ object feature value, f.action a ≠ .write object feature value)
    (hwb : ∀ object feature value, f.action b ≠ .write object feature value) :
    Apart s.operation t.operation where
  defines _ hx hx' :=
    h.ne (allVars_inj hf ha.lt hb.lt (ha.defines_own hwa hx) (hb.defines_own hwb hx'))
  uses _ hx := h.notMem_uses hf ha.lt hb (ha.defines_own hwa hx)
  used _ hx := h.symm.notMem_uses hf hb.lt ha (hb.defines_own hwb hx)
  slots := h.slots_ne hf ha hb

/-- A write to an object against a node that does not write. The object is in use only
where another of its features is read. -/
theorem Independent.commutes_write (h : L.Independent a b)
    (hfields : ∀ t ∈ f.records, (t.fields.map (·.name.ident)).Nodup) (ha : L.Stands a s)
    (hb : L.Stands b t) {object value : Outlet} {name : String}
    (hwa : f.action a = .write object name value)
    (hwb : ∀ object feature value, f.action b ≠ .write object feature value) :
    Commutes call r arguments s t := by
  obtain ⟨root, record, field, v, hr, haccess, hs, hv⟩ := ha.write hwa
  have hroot : root < f.size := lt_size_of_typeOf haccess.type
  have hwrites : f.Writes a root name := ⟨object, value, hwa, hr⟩
  have hbroot : b ≠ root := by
    rintro rfl
    obtain heq | hpath := (RootOf.write hwa hr).eq_or_path
    · exact h.ne heq
    · exact h.back (L.path_of_stated hf hpath)
  -- What the write uses, the other node does not define.
  have hused : ∀ x ∈ allVars L.vars b, x ∉ s.operation.uses := fun x hx =>
    h.symm.notMem_uses hf hb.lt ha hx
  by_cases hx : valueVar L.vars root ∈ t.operation.uses
  · obtain ⟨object', name', hread, hr'⟩ | ⟨_, _, _, hwrite, -⟩ | hall :=
      hb.uses_object hf haccess.type hx
    · obtain ⟨root', record', field', hr'', haccess', ht⟩ := hb.read hread
      cases hr'.unique hr''
      have hne : name ≠ name' := by
        rintro rfl
        exact h.not_affects hf ⟨root, name, hwrites, .read hread hr'⟩
      refine (commutes_read_write ht hs (haccess'.ident_ne hfields haccess hne.symm) ?_ ?_).symm
      · intro heq
        exact hbroot (valueVar_inj hf hb.lt hroot heq)
      · rintro rfl
        exact hused _ (valueVar_mem _ _) (by simp [hs, Operation.uses])
    · exact absurd hwrite (hwb _ _ _)
    · exact absurd ⟨root, name, hwrites, hall name⟩ (h.not_affects hf)
  · have hdefines : ∀ x ∈ s.operation.defines, x = valueVar L.vars root := by
      simp [hs, Operation.defines]
    refine Apart.commutes ⟨?_, ?_, ?_, h.slots_ne hf ha hb⟩
    · intro x hx hx'
      rw [hdefines x hx] at hx'
      exact hbroot (allVars_inj hf hb.lt hroot (hb.defines_own hwb hx') (valueVar_mem _ _))
    · intro x hx'
      rwa [hdefines x hx']
    · intro x hx'
      exact hused x (hb.defines_own hwb hx')

/-- Two writes that are not to the same feature of the same object. -/
theorem Independent.commutes_writes (h : L.Independent a b)
    (hfields : ∀ t ∈ f.records, (t.fields.map (·.name.ident)).Nodup) (ha : L.Stands a s)
    (hb : L.Stands b t) {object value object' value' : Outlet} {name name' : String}
    (hwa : f.action a = .write object name value) (hwb : f.action b = .write object' name' value')
    (hsame : ∀ root feature, f.Writes a root feature → ¬ f.Writes b root feature) :
    Commutes call r arguments s t := by
  obtain ⟨root, record, field, v, hr, haccess, hs, hv⟩ := ha.write hwa
  obtain ⟨root', record', field', v', hr', haccess', ht, hv'⟩ := hb.write hwb
  have hroot : root < f.size := lt_size_of_typeOf haccess.type
  have hroot' : root' < f.size := lt_size_of_typeOf haccess'.type
  -- A value that is written is a scalar, an object is a record.
  have hne : ∀ {o x scalar m record}, L.Stored o x (.scalar scalar) → m < f.size →
      f.typeOf ⟨m, none⟩ = .ok (.record record) → x ≠ valueVar L.vars m := by
    rintro o x scalar m record hstored hm htype rfl
    cases htype.symm.trans (hstored.root_of_valueVar hf hm).2
  by_cases heq : root = root'
  · subst heq
    have hnames : name ≠ name' := by
      rintro rfl
      exact hsame root name ⟨object, value, hwa, hr⟩ ⟨object', value', hwb, hr'⟩
    exact commutes_write_write hs ht (haccess.ident_ne hfields haccess' hnames)
      (hne hv hroot haccess.type) (hne hv' hroot haccess.type)
  · have hvars : valueVar L.vars root ≠ valueVar L.vars root' := fun h' =>
      heq (valueVar_inj hf hroot hroot' h')
    refine Apart.commutes ⟨?_, ?_, ?_, h.slots_ne hf ha hb⟩
    · simpa [hs, ht, Operation.defines] using hvars
    · simpa [hs, ht, Operation.defines, Operation.uses] using
        ⟨hvars, (hne hv' hroot haccess.type).symm⟩
    · simpa [hs, ht, Operation.defines, Operation.uses] using
        ⟨hvars.symm, (hne hv hroot' haccess'.type).symm⟩

/-- Steps whose order the dependencies leave open commute, unless both write to the same
feature of the same object. -/
theorem Independent.commutes (h : L.Independent a b)
    (hfields : ∀ t ∈ f.records, (t.fields.map (·.name.ident)).Nodup) (ha : L.Stands a s)
    (hb : L.Stands b t)
    (hsame : ∀ root feature, f.Writes a root feature → ¬ f.Writes b root feature) :
    Commutes call r arguments s t := by
  by_cases hwa : ∃ object name value, f.action a = .write object name value
  · obtain ⟨object, name, value, hwa⟩ := hwa
    by_cases hwb : ∃ object name value, f.action b = .write object name value
    · obtain ⟨object', name', value', hwb⟩ := hwb
      exact h.commutes_writes hf hfields ha hb hwa hwb hsame
    · exact h.commutes_write hf hfields ha hb hwa (by simpa using hwb)
  · by_cases hwb : ∃ object name value, f.action b = .write object name value
    · obtain ⟨object, name, value, hwb⟩ := hwb
      exact (h.symm.commutes_write hf hfields hb ha hwb (by simpa using hwa)).symm
    · exact (h.apart hf ha hb (by simpa using hwa) (by simpa using hwb)).commutes

end

/-! ### Reordered steps -/

theorem before_of_forall₂ {α β : Type} {R : α → β → Prop} {xs : List α} {ys : List β}
    (h : List.Forall₂ R xs ys) {y y' : β} (hy : [y, y'].Sublist ys) :
    ∃ x x', [x, x'].Sublist xs ∧ R x y ∧ R x' y' := by
  induction h with
  | nil => cases hy
  | @cons x z xs zs hxz hxs ih =>
    obtain hy | ⟨rfl, hy'⟩ := before_cons_iff.1 hy
    · obtain ⟨x₁, x₂, hx, h⟩ := ih hy
      exact ⟨x₁, x₂, hx.cons x, h⟩
    · obtain ⟨n, hn⟩ := List.getElem?_of_mem hy'
      obtain ⟨x', hx', hR⟩ := getElem?_of_forall₂ hxs.flip hn
      exact ⟨x, x', before_cons_iff.2 (.inr ⟨rfl, List.mem_of_getElem? hx'⟩), hxz, hR⟩

theorem nodup_order_of_perm {steps : List Step} (hr : r.order.Nodup) (hperm : steps.Perm r.steps) :
    (Routine.order { r with steps }).Nodup := by
  have horder : (steps.map Step.node).Perm (r.steps.map Step.node) := hperm.map _
  exact horder.nodup_iff.2 hr

section

variable {steps : List Step} (hf : f.activity.Resolved k) (hperm : steps.Perm r.steps)
  (hgraph : ∀ a b, L.graph.Edge a b →
    Routine.Precedes { r with steps } (f.activity.nodeId a) (f.activity.nodeId b))
include hf hperm hgraph

theorem before_reordered (h : L.graph.Path a b) :
    [f.activity.nodeId a, f.activity.nodeId b].Sublist (Routine.order { r with steps }) := by
  have hnodup := nodup_order_of_perm (L.nodup_order hf) hperm
  induction h with
  | single h => exact (Routine.precedes_iff hnodup).1 (hgraph _ _ h)
  | tail _ h ih => exact before_trans hnodup ih ((Routine.precedes_iff hnodup).1 (hgraph _ _ h))

/-- Steps that change places do not depend on each other. -/
theorem independent_of_reordered (hst : [s, t].Sublist r.steps) (hts : [t, s].Sublist steps) :
    ∃ a b, [a, b].Sublist L.nodes ∧ L.Stands a s ∧ L.Stands b t ∧ L.Independent a b := by
  obtain ⟨a, b, hab, ha, hb⟩ := before_of_forall₂ (L.stands hf) hst
  refine ⟨a, b, hab, ha, hb, ?_, fun hpath => ?_, fun hpath => ?_⟩
  · rintro rfl
    exact List.nodup_iff_sublist.1 L.nodup_nodes a hab
  · have hback := hts.map Step.node
    rw [List.map_cons, List.map_singleton, ha.node, hb.node] at hback
    exact before_asymm (nodup_order_of_perm (L.nodup_order hf) hperm)
      (before_reordered hf hperm hgraph hpath) hback
  · exact before_asymm L.nodup_nodes hab (L.before_of_path hpath)

end

end Lowering

/-- The steps of an activity of a built model, in any order that follows the dependencies
and keeps writes to the same feature of the same object in their order, fail where the
steps as they are fail, and yield the same outputs otherwise, whatever answers the calls. -/
theorem run_reordered {d : Definition} {m : Model} (hm : Model.build d = .ok m) (hf : f.Of m)
    (hr : f.lower = .ok r) {g : Graph} (hg : f.graph = .ok g) {steps : List Step}
    (hperm : steps.Perm r.steps)
    (hgraph : ∀ a b, g.Edge a b →
      Routine.Precedes { r with steps } (f.activity.nodeId a) (f.activity.nodeId b))
    (hwrites : ∀ w w' root feature, f.Writes w root feature → f.Writes w' root feature →
      r.Precedes (f.activity.nodeId w) (f.activity.nodeId w') →
      Routine.Precedes { r with steps } (f.activity.nodeId w) (f.activity.nodeId w'))
    (call : Callee) (arguments : List Datum) :
    (Routine.run call { r with steps } arguments).toOption = (r.run call arguments).toOption := by
  have hmodel := Model.resolved_of_build hm
  have hresolved := hf.resolved hmodel
  have hfields : ∀ t ∈ f.records, (t.fields.map (·.name.ident)).Nodup := by
    rw [hf.records]
    exact hmodel.fieldIdents
  obtain ⟨L⟩ := f.exists_lowering hr
  cases L.graph_eq.symm.trans hg
  have hnodup := Lowering.nodup_order_of_perm (L.nodup_order hresolved) hperm
  have hcommutes : ∀ s t, [s, t].Sublist r.steps → [t, s].Sublist steps →
      Commutes call r arguments s t := by
    intro s t hst hts
    obtain ⟨a, b, hab, ha, hb, hindependent⟩ :=
      Lowering.independent_of_reordered hresolved hperm hgraph hst hts
    refine hindependent.commutes hresolved hfields ha hb fun root feature hwa hwb => ?_
    have hprec := hwrites a b root feature hwa hwb ((L.precedes_iff hresolved ha.lt hb.lt).2 hab)
    have hback := hts.map Step.node
    rw [List.map_cons, List.map_singleton, ha.node, hb.node] at hback
    exact before_asymm hnodup ((Routine.precedes_iff hnodup).1 hprec) hback
  have hagree := agree_of_perm hperm.symm hcommutes ⟨[], r.outputs.map fun _ => none⟩
  unfold Routine.run
  split
  · refine (hagree.toOption_bind fun p q hpq => ?_).symm
    rw [hpq.outputs]
  · rfl

/-- The two writes of `Mark` may change places. -/
theorem run_reordered_marking :
    (Routine.run (fun name _ => .error (.unknownActivity name)) { Sample.marked with steps := [
        ⟨"p", .receive "pose" "pose_copy" (.record "Pose") true⟩,
        ⟨"t", .literal "t" (.bool true)⟩,
        ⟨"v", .write "pose_copy" "armed" "t"⟩,
        ⟨"w", .write "pose_copy" "ready" "t"⟩,
        ⟨"r", .output 0 "pose_copy"⟩] }
      [.record ⟨"Pose", [("ready", .bool false), ("armed", .bool false)]⟩]).toOption =
    some [.record ⟨"Pose", [("ready", .bool true), ("armed", .bool true)]⟩] := by
  have hgraph : Sample.marking.graph = .ok (.ofEdges 5 [(0, 1), (0, 2), (0, 3), (0, 4), (1, 2), (1, 3),
      (1, 4), (2, 4), (3, 4)]) := by
    decide +kernel
  refine (run_reordered Sample.build_definition Sample.marking_of Sample.lower_marking hgraph ?_ ?_ ?_
    _ _).trans rfl
  · exact .cons _ (.cons _ (.swap _ _ _))
  · intro a b hedge
    rw [Routine.precedes_iff (by decide)]
    exact (by decide : ∀ e ∈ [(0, 1), (0, 2), (0, 3), (0, 4), (1, 2), (1, 3), (1, 4), (2, 4), (3, 4)],
      [Sample.mark.nodeId e.1, Sample.mark.nodeId e.2].Sublist ["p", "t", "v", "w", "r"]) (a, b)
      (Graph.edge_ofEdges.1 hedge).1
  · -- The writes go to different features, so that none of them is bound to come first.
    rintro w w' root feature ⟨_, _, hw, -⟩ ⟨_, _, hw', -⟩ ⟨i, j, hi, hj, hij⟩
    have hfeature : ∀ n object value, Sample.marking.action n = .write object feature value →
        n = 2 ∧ feature = "ready" ∨ n = 3 ∧ feature = "armed" := by
      intro n object value hn
      rcases n with _ | _ | _ | _ | _ | n <;> cases hn
      · exact .inl ⟨rfl, rfl⟩
      · exact .inr ⟨rfl, rfl⟩
    have hsame : w = w' := by
      have := hfeature w _ _ hw
      have := hfeature w' _ _ hw'
      grind
    subst hsame
    cases hi.symm.trans hj
    exact absurd hij (lt_irrefl i)

end FlightGen.Flow
