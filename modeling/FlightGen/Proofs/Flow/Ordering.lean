import FlightGen.Proofs.Flow.Dependency
import FlightGen.Proofs.Flow.Typing

/-! When an activity cannot be ordered. The dependencies that its writes add are never
to blame: the order fails exactly if the stated dependencies have a cycle. -/

namespace FlightGen

/-- An error that says that no order suits the dependencies. -/
def ModelError.IsOrdering : ModelError → Prop
  | .cyclicDependency .. | .orderViolation .. => True
  | _ => False

namespace Flow

variable {f : Flow}

/-! ### Dependencies fail like roots -/

section

variable {P : ModelError → Prop} (hroot : ∀ o, FailsOnly P (f.root o))
include hroot

theorem writes_failsOnly : FailsOnly P f.writes := by
  refine (FailsOnly.mapM fun n _ => ?_).bind fun _ _ => .ok _
  unfold write?
  split
  · exact (hroot _).bind fun _ _ => .ok _
  · exact .ok _

theorem uses_failsOnly : FailsOnly P f.uses := by
  refine (FailsOnly.mapM fun n _ => ?_).bind fun _ _ => .ok _
  unfold use?
  split
  · exact (hroot _).bind fun _ _ => .ok _
  · exact (FailsOnly.mapM fun a _ => hroot a.source).bind fun _ _ => .ok _
  · exact (hroot _).bind fun _ _ => .ok _
  · exact .ok _

theorem graph_failsOnly : FailsOnly P f.graph :=
  (uses_failsOnly hroot).bind fun _ _ => (writes_failsOnly hroot).bind fun _ _ => .ok _

end

theorem root_failsOnly (o : Outlet) : FailsOnly ModelError.IsOrdering (f.root o) := by
  unfold root
  split
  · exact .ok _
  · exact .error trivial

theorem order_failsOnly : FailsOnly ModelError.IsOrdering f.order := by
  refine (graph_failsOnly root_failsOnly).bind fun g _ => ?_
  refine (writes_failsOnly root_failsOnly).bind fun ws _ => ?_
  refine (FailsOnly.forM fun w _ => ?_).bind fun _ _ => ?_
  · unfold checkWrite
    split
    · exact .error trivial
    · exact .ok _
  · split
    · exact .ok _
    · exact .error trivial

/-- An order exists only if the dependencies have no cycle. -/
theorem order_eq_ok {nodes : List Nat} (h : f.order = .ok nodes) :
    ∃ g, f.graph = .ok g ∧ g.order = .ok nodes := by
  obtain ⟨g, hg, h⟩ := bind_eq_ok.1 h
  obtain ⟨ws, -, h⟩ := bind_eq_ok.1 h
  obtain ⟨_, -, h⟩ := bind_eq_ok.1 h
  refine ⟨g, hg, ?_⟩
  split at h
  · rename_i hnodes
    cases h
    exact hnodes
  · cases h

/-! ### Without cycles -/

/-- Numbers that grow along the stated dependencies. -/
theorem exists_rank {k : Nat} (hf : f.activity.Resolved k) (h : f.statedGraph.Acyclic) :
    ∃ rank : Nat → Nat, (∀ a b, f.Stated a b → rank a < rank b) ∧ ∀ n, rank n ≤ f.size := by
  obtain ⟨rank, hrank, hle⟩ := h.exists_rank
  exact ⟨rank, fun a b hab => hrank a b ((edge_statedGraph hf).2 hab), size_statedGraph (f := f) ▸ hle⟩

theorem exists_root {k : Nat} (hf : f.activity.Resolved k) (h : f.statedGraph.Acyclic)
    (o : Outlet) : ∃ r, f.root o = .ok r := by
  obtain ⟨rank, hrank, hle⟩ := f.exists_rank hf h
  obtain ⟨r, hr⟩ := f.exists_rootWithin hrank (hle o.node)
  exact ⟨r, root_eq_ok.2 hr⟩

theorem exists_graph {k : Nat} (hf : f.activity.Resolved k) (h : f.statedGraph.Acyclic) :
    ∃ g, f.graph = .ok g := by
  refine (graph_failsOnly fun o => ?_).exists_ok
  obtain ⟨r, hr⟩ := f.exists_root hf h o
  rw [hr]
  exact .ok r

theorem checkWrite_eq_ok {g : Graph} (hg : f.Dependencies g) (hacyclic : g.Acyclic) {w : Write}
    (hw : f.Writes w.node w.root w.feature) : f.checkWrite g w = .ok () := by
  unfold checkWrite
  split
  · rename_i hback
    have hback' := Graph.reaches_iff.1 hback
    obtain ⟨object, value, haction, hr⟩ := hw
    have hroot := RootOf.write haction hr
    obtain heq | hpath := hroot.eq_or_path
    · exact absurd (heq ▸ haction) (hr.not_write _ _ _)
    · exact absurd (hback'.trans (Relation.TransGen.mono hg.stated _ _ hpath)) (hacyclic _)
  · rfl

theorem exists_order {k : Nat} (hf : f.activity.Resolved k) (h : f.statedGraph.Acyclic) :
    ∃ nodes, f.order = .ok nodes := by
  obtain ⟨g, hg⟩ := f.exists_graph hf h
  have hdeps := f.dependencies hf hg
  have hacyclic := hdeps.acyclic h
  obtain ⟨nodes, hnodes⟩ := Graph.exists_order_iff.2 hacyclic
  obtain ⟨us, -, hg'⟩ := bind_eq_ok.1 hg
  obtain ⟨ws, hws, -⟩ := bind_eq_ok.1 hg'
  have hchecks : ws.forM (f.checkWrite g) = .ok () :=
    forM_eq_ok.2 fun w hw => checkWrite_eq_ok hdeps hacyclic ((mem_writes hws).1 hw)
  refine ⟨nodes, bind_eq_ok.2 ⟨g, hg, bind_eq_ok.2 ⟨ws, hws, bind_eq_ok.2 ⟨(), hchecks, ?_⟩⟩⟩⟩
  rw [hnodes]
  rfl

/-! ### The rest of lowering -/

/-- An error that has nothing to do with an order, be it of nodes or of calls. -/
def Other : ModelError → Prop
  | .cyclicDependency .. | .orderViolation .. | .recursiveActivity .. => False
  | _ => True

theorem featureOf_failsOnly (n : Nat) (feature : String) (object : DataType) :
    FailsOnly Other (f.featureOf n feature object) := by
  unfold featureOf
  split
  · exact .error trivial
  · split
    · exact .error trivial
    · exact .ok _

theorem argumentFor_failsOnly (n : Nat) (arguments : List Argument) (parameter : Nat)
    (name : String) : FailsOnly Other (f.argumentFor n arguments parameter name) := by
  unfold argumentFor
  split
  · exact .ok _
  · exact .error trivial

theorem nodeVars_failsOnly (written : List Nat) : FailsOnly Other (f.nodeVars written) := by
  have hfresh : ∀ text, Naming.FailsOnly Other (freshVar text) :=
    fun text => .assignFresh fun _ _ => trivial
  have hnames : Naming.FailsOnly Other (do
      Naming.reserveAll "" .localVar f.takenNames
      f.activity.nodes.zipIdx.mapM fun p => nameVars written p.2 p.1) := by
    refine (Naming.FailsOnly.reserveAll _ _ _).bind fun _ => .mapM (fun p => ?_) _
    unfold nameVars
    split
    · split
      · exact (hfresh _).bind fun _ => .pure _
      · exact .pure _
    · exact (Naming.FailsOnly.mapM (fun _ => hfresh _) _).bind fun _ => .pure _
    · exact .pure _
  exact (hnames {}).bind fun _ _ => .ok _

theorem typeWithin_zero_failsOnly {o : Outlet}
    (hread : ∀ object feature, f.action o.node ≠ .read object feature)
    (hwrite : ∀ object feature value, f.action o.node ≠ .write object feature value) :
    FailsOnly Other (f.typeWithin 0 o) := by
  unfold typeWithin
  split
  · exact .ok _
  · exact .error trivial
  · exact .ok _
  · exact absurd ‹_› (hread _ _)
  · exact absurd ‹_› (hwrite _ _ _)
  · exact .ok _
  · split
    · exact .ok _
    · exact .error trivial
  · split
    · exact .ok _
    · exact .error trivial
  · exact .error trivial
  · exact .error trivial
  · exact absurd ‹_› (hread _ _)
  · exact absurd ‹_› (hwrite _ _ _)

section

variable {rank : Nat → Nat} (hrank : ∀ a b, f.Stated a b → rank a < rank b)
  (hroot : ∀ o, ∃ r, f.root o = .ok r)
include hrank hroot

/-- A type is found within as many references as the rank of the node. -/
theorem typeWithin_failsOnly {depth : Nat} {o : Outlet} (h : rank o.node < depth) :
    FailsOnly Other (f.typeWithin depth o) := by
  induction depth generalizing o with
  | zero => cases h
  | succ depth ih =>
    cases haction : f.action o.node with
    | read object feature =>
      have hobject : f.Stated object.node o.node :=
        .value (by rw [haction]; exact List.mem_singleton_self _)
      have := hrank _ _ hobject
      rw [typeWithin_read haction]
      exact (ih (by omega)).bind fun _ _ => (featureOf_failsOnly _ _ _).bind fun _ _ => .ok _
    | write object feature value =>
      obtain ⟨r, hr⟩ := hroot o
      have hlt : rank r < rank o.node := by
        obtain heq | hpath := (rootOf_of_root hr).eq_or_path
        · exact absurd (heq ▸ haction) ((rootOf_of_root hr).not_write _ _ _)
        · exact rank_lt_of_path hrank hpath
      rw [typeWithin_write haction, hr]
      exact ih (by simp only; omega)
    | _ =>
      rw [typeWithin_own (by simp [haction]) (by simp [haction])]
      exact typeWithin_zero_failsOnly (by simp [haction]) (by simp [haction])

variable (hle : ∀ n, rank n ≤ f.size)
include hle

theorem typeOf_failsOnly (o : Outlet) : FailsOnly Other (f.typeOf o) := by
  have := hle o.node
  exact typeWithin_failsOnly hrank hroot (by omega)

theorem feature_failsOnly (n : Nat) (object : Outlet) (name : String) :
    FailsOnly Other (f.feature n object name) :=
  (typeOf_failsOnly hrank hroot hle object).bind fun _ _ => featureOf_failsOnly _ _ _

theorem expectType_failsOnly (n : Nat) (o : Outlet) (expected : DataType) :
    FailsOnly Other (f.expectType n o expected) := by
  refine (typeOf_failsOnly hrank hroot hle o).bind fun found _ => ?_
  split
  · exact .ok _
  · exact .error trivial

theorem checkTypes_failsOnly : FailsOnly Other f.checkTypes := by
  have hexpect := expectType_failsOnly hrank hroot hle
  refine FailsOnly.forM fun n _ => ?_
  unfold checkNode
  split
  · exact (feature_failsOnly hrank hroot hle _ _ _).bind fun _ _ => .ok _
  · exact (feature_failsOnly hrank hroot hle _ _ _).bind fun _ _ => hexpect _ _ _
  · refine FailsOnly.forM fun pin _ => ?_
    unfold checkPin
    split
    · exact hexpect _ _ _
    · exact .ok _
  · refine FailsOnly.forM fun parameter _ => ?_
    unfold checkArgument
    split
    · exact (argumentFor_failsOnly _ _ _ _).bind fun _ _ => hexpect _ _ _
    · exact .ok _
  · split
    · exact hexpect _ _ _
    · exact .error trivial
  · exact .ok _

omit hrank hle in
theorem outletVar_failsOnly (vars : List NodeVars) (o : Outlet) :
    FailsOnly Other (f.outletVar vars o) := by
  unfold outletVar
  split
  · exact .ok _
  · obtain ⟨r, hr⟩ := hroot o
    rw [hr]
    exact .ok _

theorem operation_failsOnly (vars : List NodeVars) (written : List Nat) (index : Nat) (n : Node) :
    FailsOnly Other (f.operation vars written index n) := by
  have hvar := outletVar_failsOnly hroot vars
  have hfeature := feature_failsOnly hrank hroot hle
  unfold operation
  split
  · exact .ok _
  · split
    · exact .error trivial
    · exact (hvar _).bind fun _ _ => .ok _
  · exact .ok _
  · exact .ok _
  · exact (hfeature _ _ _).bind fun _ _ => (hvar _).bind fun _ _ => .ok _
  · refine (hfeature _ _ _).bind fun _ _ => (hvar _).bind fun _ _ => ?_
    exact (hvar _).bind fun _ _ => .ok _
  · refine (FailsOnly.mapM fun pin _ => ?_).bind fun _ _ => .ok _
    unfold inputLocal
    split
    · exact (hvar _).bind fun _ _ => .ok _
    · exact .ok _
  · dsimp only
    split
    · exact .error trivial
    · refine (FailsOnly.mapM fun parameter _ => ?_).bind fun _ _ => .ok _
      exact (argumentFor_failsOnly _ _ _ _).bind fun _ _ => hvar _
  · exact .ok _
  · exact .ok _

theorem lower_failsOnly_other {nodes : List Nat} (horder : f.order = .ok nodes) :
    FailsOnly Other f.lower := by
  have hwrites : FailsOnly Other f.writes := writes_failsOnly fun o => by
    obtain ⟨r, hr⟩ := hroot o
    rw [hr]
    exact .ok r
  unfold lower
  rw [horder]
  refine (checkTypes_failsOnly hrank hroot hle).bind fun _ _ => ?_
  refine (hwrites.bind fun _ _ => (nodeVars_failsOnly _).bind fun vars _ => ?_).bind fun _ _ => .ok _
  refine FailsOnly.mapM fun index _ => ?_
  unfold step
  split
  · exact (operation_failsOnly hrank hroot hle _ _ _ _).bind fun _ _ => .ok _
  · exact .ok _

theorem lower_failsOnly {nodes : List Nat} (horder : f.order = .ok nodes) :
    FailsOnly (¬ ·.IsOrdering) f.lower := by
  intro e he hordering
  have hother := lower_failsOnly_other hrank hroot hle horder e he
  cases e with
  | cyclicDependency | orderViolation => exact hother
  | _ => exact hordering

end

/-- Lowering an activity by itself finds no calls that lead back to it. -/
theorem lower_ne_recursive {k : Nat} (hf : f.activity.Resolved k) (path : String)
    (chain : List String) : f.lower ≠ .error (.recursiveActivity path chain) := by
  intro h
  cases horder : f.order with
  | error e =>
    have hlower : f.lower = .error e := by
      unfold lower
      rw [horder]
      rfl
    cases h.symm.trans hlower
    exact order_failsOnly _ horder
  | ok nodes =>
    obtain ⟨g, hg, hnodes⟩ := order_eq_ok horder
    have hdeps := f.dependencies hf hg
    have hacyclic : f.statedGraph.Acyclic := by
      intro n hn
      have hpath := Relation.TransGen.mono hdeps.stated _ _ ((path_statedGraph hf).1 hn)
      exact Graph.exists_order_iff.1 ⟨nodes, hnodes⟩ n hpath
    obtain ⟨rank, hrank, hle⟩ := f.exists_rank hf hacyclic
    exact lower_failsOnly_other hrank (f.exists_root hf hacyclic) hle horder _ h

/-! ### The cause of ordering errors -/

/-- Lowering an activity of a built model fails for want of an order exactly if the stated
dependencies have a cycle. Without one, every object has a root, the dependencies that
writes add close no cycle, and no write comes before its object. -/
theorem lower_isOrdering_iff {d : Definition} {m : Model} (hm : Model.build d = .ok m)
    (hf : f.Of m) :
    ((∃ e, f.lower = .error e ∧ e.IsOrdering) ↔ ∃ n, Relation.TransGen f.Stated n n) ∧
    ((¬ ∃ n, Relation.TransGen f.Stated n n) →
      (∀ o, ∃ r, f.root o = .ok r) ∧
      ∃ g ws, f.graph = .ok g ∧ g.Acyclic ∧ f.writes = .ok ws ∧
        ∀ w ∈ ws, f.checkWrite g w = .ok ()) := by
  have hresolved := hf.resolved (Model.resolved_of_build hm)
  have hacyclic : (¬ ∃ n, Relation.TransGen f.Stated n n) ↔ f.statedGraph.Acyclic := by
    rw [not_exists]
    exact forall_congr' fun n => not_congr (path_statedGraph hresolved).symm
  refine ⟨⟨?_, ?_⟩, ?_⟩
  · rintro ⟨e, he, hordering⟩
    by_contra hcycle
    obtain ⟨nodes, hnodes⟩ := f.exists_order hresolved (hacyclic.1 hcycle)
    obtain ⟨rank, hrank, hle⟩ := f.exists_rank hresolved (hacyclic.1 hcycle)
    have hroot := f.exists_root hresolved (hacyclic.1 hcycle)
    exact lower_failsOnly hrank hroot hle hnodes e he hordering
  · intro hcycle
    cases horder : f.order with
    | error e =>
      refine ⟨e, ?_, order_failsOnly e horder⟩
      unfold lower
      rw [horder]
      rfl
    | ok nodes =>
      obtain ⟨g, hg, hnodes⟩ := order_eq_ok horder
      have hdeps := f.dependencies hresolved hg
      have hg' := Graph.exists_order_iff.1 ⟨nodes, hnodes⟩
      obtain ⟨n, hn⟩ := hcycle
      exact absurd (Relation.TransGen.mono hdeps.stated _ _ hn) (hg' n)
  · intro hcycle
    have hstated := hacyclic.1 hcycle
    obtain ⟨g, hg⟩ := f.exists_graph hresolved hstated
    have hdeps := f.dependencies hresolved hg
    obtain ⟨_, -, h⟩ := bind_eq_ok.1 hg
    obtain ⟨ws, hws, -⟩ := bind_eq_ok.1 h
    refine ⟨f.exists_root hresolved hstated, g, ws, hg, hdeps.acyclic hstated, hws, ?_⟩
    intro w hw
    exact checkWrite_eq_ok hdeps (hdeps.acyclic hstated) ((mem_writes hws).1 hw)

/-- The nodes of `Loop` cannot be ordered. -/
theorem lower_loop : ∃ e, (⟨Sample.model.recordTypes, Sample.component, Sample.loop, "Nav::Loop", []⟩ :
    Flow).lower = .error e ∧ e.IsOrdering := by
  have hf : (⟨Sample.model.recordTypes, Sample.component, Sample.loop, "Nav::Loop", []⟩ : Flow).Of
      Sample.model := ⟨rfl, List.mem_cons_self, by simp [Sample.component]⟩
  refine (lower_isOrdering_iff Sample.build_definition hf).1.2 ⟨0, ?_⟩
  exact .tail (b := 1) (.single (.control (by simp [Sample.loop]))) (.control (by simp [Sample.loop]))

end Flow

end FlightGen
