import Mathlib.Data.Finset.Card
import Mathlib.Data.Finset.Range
import Mathlib.Logic.Function.Iterate
import FlightGen.Proofs.Flow.Ordering

/-! Following references. The objects of writes lead to a root, or they go on forever, and
the number of nodes is enough steps to tell. Types refer to nodes that come earlier in
the order, so that the recursion ends, and its bound is never felt. -/

namespace FlightGen

namespace Flow

variable {f : Flow}

/-! ### Objects of writes -/

def IsWrite (f : Flow) (n : Nat) : Prop :=
  ∃ object feature value, f.action n = .write object feature value

/-- The objects of writes lead from `n` to ever more writes. -/
def Endless (f : Flow) (n : Nat) : Prop :=
  ∃ chain : Nat → Nat, chain 0 = n ∧ ∀ k, ∃ object feature value,
    f.action (chain k) = .write object feature value ∧ object.node = chain (k + 1)

theorem RootOf.not_endless {n r : Nat} (h : f.RootOf n r) : ¬ f.Endless n := by
  induction h with
  | self h =>
    rintro ⟨chain, rfl, hchain⟩
    obtain ⟨object, feature, value, haction, -⟩ := hchain 0
    exact h object feature value haction
  | write h _ ih =>
    rintro ⟨chain, rfl, hchain⟩
    obtain ⟨object, feature, value, haction, hnext⟩ := hchain 0
    cases h.symm.trans haction
    exact ih ⟨fun k => chain (k + 1), hnext.symm, fun k => hchain (k + 1)⟩

/-- The node whose object a write passes on. -/
def next (f : Flow) (n : Nat) : Nat :=
  match f.action n with
  | .write object _ _ => object.node
  | _ => n

theorem next_write {n : Nat} {object value : Outlet} {feature : String}
    (h : f.action n = .write object feature value) : f.next n = object.node := by
  simp [next, h]

theorem isWrite_of_rootWithin {steps n : Nat} (h : f.rootWithin steps n = none) : f.IsWrite n := by
  by_contra hwrite
  rw [rootWithin_self steps fun object feature value haction =>
    hwrite ⟨object, feature, value, haction⟩] at h
  cases h

theorem isWrite_iterate {steps n k : Nat} (h : f.rootWithin steps n = none) (hk : k ≤ steps) :
    f.IsWrite (f.next^[k] n) := by
  induction steps generalizing n k with
  | zero =>
    cases Nat.le_zero.1 hk
    exact isWrite_of_rootWithin h
  | succ steps ih =>
    cases k with
    | zero => exact isWrite_of_rootWithin h
    | succ k =>
      obtain ⟨object, feature, value, haction⟩ := isWrite_of_rootWithin h
      rw [rootWithin_write haction] at h
      rw [Function.iterate_succ_apply, next_write haction]
      exact ih h (by omega)

/-- Writes that come back to one of them never end. -/
theorem isWrite_of_repeat {n i j : Nat} (hij : i < j) (heq : f.next^[i] n = f.next^[j] n)
    (h : ∀ k < j, f.IsWrite (f.next^[k] n)) (k : Nat) : f.IsWrite (f.next^[k] n) := by
  induction k using Nat.strong_induction_on with
  | _ k ih =>
    by_cases hk : k < j
    · exact h k hk
    · obtain ⟨m, rfl⟩ := Nat.exists_eq_add_of_le' (not_lt.1 hk)
      rw [Function.iterate_add_apply, ← heq, ← Function.iterate_add_apply]
      exact ih (m + i) (by omega)

/-- More writes in a row than nodes come back to one of them. -/
theorem endless_of_rootWithin {n : Nat} (h : f.rootWithin f.size n = none) : f.Endless n := by
  have hwrites : ∀ k ≤ f.size, f.IsWrite (f.next^[k] n) := fun k hk => isWrite_iterate h hk
  have hlt : ∀ k ∈ Finset.range (f.size + 1), f.next^[k] n ∈ Finset.range f.size := by
    intro k hk
    obtain ⟨object, feature, value, haction⟩ :=
      hwrites k (Nat.lt_succ_iff.1 (Finset.mem_range.1 hk))
    exact Finset.mem_range.2 (f.lt_size (by simp [haction]))
  obtain ⟨i, hi, j, hj, hne, heq⟩ :=
    Finset.exists_ne_map_eq_of_card_lt_of_maps_to (by simp) hlt
  rw [Finset.mem_range] at hi hj
  have hall : ∀ k, f.IsWrite (f.next^[k] n) := by
    obtain hij | hji := Nat.lt_or_gt_of_ne hne
    · exact isWrite_of_repeat hij heq fun k hk => hwrites k (by omega)
    · exact isWrite_of_repeat hji heq.symm fun k hk => hwrites k (by omega)
  refine ⟨fun k => f.next^[k] n, rfl, fun k => ?_⟩
  obtain ⟨object, feature, value, haction⟩ := hall k
  exact ⟨object, feature, value, haction, by
    simp only [Function.iterate_succ_apply', next_write haction]⟩

theorem root_eq_error_iff {o : Outlet} {e : ModelError} : f.root o = .error e ↔
    f.Endless o.node ∧ e = .cyclicDependency (f.nodePath o.node) [f.activity.nodeId o.node] := by
  unfold root
  split
  · rename_i r hr
    have hnot := (rootOf_of_rootWithin hr).not_endless
    simp [hnot]
  · rename_i hnone
    have hendless := endless_of_rootWithin hnone
    simp [hendless, eq_comm]

theorem root_eq_ok_iff {o : Outlet} {r : Nat} : f.root o = .ok r ↔ f.RootOf o.node r := by
  refine ⟨rootOf_of_root, fun h => ?_⟩
  cases hroot : f.root o with
  | error e => exact absurd (root_eq_error_iff.1 hroot).1 h.not_endless
  | ok r' => rw [(rootOf_of_root hroot).unique h]

/-! ### The recursion of types -/

/-- The type at an outlet, where `self` tells the types at others. -/
def typeBody (f : Flow) (self : Outlet → Except ModelError DataType) (o : Outlet) :
    Except ModelError DataType :=
  match f.action o.node with
  | .read object feature => do
    let field ← f.featureOf o.node feature (← self object)
    return .scalar field.scalar
  | .write .. => do self ⟨← f.root o, none⟩
  | _ => f.typeWithin 0 o

/-- The type at `o` consults the type at another outlet. -/
inductive Consults (f : Flow) : Outlet → Outlet → Prop
  | object {o object : Outlet} {feature : String} (h : f.action o.node = .read object feature) :
      Consults f o object
  | root {o object value : Outlet} {feature : String} {r : Nat}
      (h : f.action o.node = .write object feature value) (hr : f.root o = .ok r) :
      Consults f o ⟨r, none⟩

theorem typeBody_congr {self self' : Outlet → Except ModelError DataType} {o : Outlet}
    (h : ∀ o', f.Consults o o' → self o' = self' o') : f.typeBody self o = f.typeBody self' o := by
  unfold typeBody
  cases haction : f.action o.node with
  | read object feature => simp only [h object (.object haction)]
  | write object feature value =>
    cases hr : f.root o with
    | error e => rfl
    | ok r => exact h ⟨r, none⟩ (.root haction hr)
  | _ => rfl

theorem typeWithin_succ (depth : Nat) (o : Outlet) :
    f.typeWithin (depth + 1) o = f.typeBody (f.typeWithin depth) o := by
  unfold typeBody
  cases haction : f.action o.node with
  | read object feature => exact typeWithin_read haction
  | write object feature value => exact typeWithin_write haction
  | _ => exact typeWithin_own (by simp [haction]) (by simp [haction]) _

/-- A path leads to a node from those that its type consults. -/
theorem Consults.path {o o' : Outlet} (h : f.Consults o o') : Relation.TransGen f.Stated o'.node o.node := by
  cases h with
  | object h => exact .single (.value (by rw [h]; exact List.mem_cons_self))
  | root h hr =>
    have hroot := rootOf_of_root hr
    obtain heq | hpath := hroot.eq_or_path
    · exact absurd (heq ▸ h) (hroot.not_write _ _ _)
    · exact hpath

section

variable {rank : Nat → Nat} (hrank : ∀ a b, f.Stated a b → rank a < rank b)
include hrank

theorem wellFounded_consults : WellFounded fun o' o => f.Consults o o' :=
  Subrelation.wf (fun h => rank_lt_of_path hrank h.path)
    (InvImage.wf (fun o : Outlet => rank o.node) Nat.lt_wfRel.wf)

/-- A depth that no chain of references exceeds is as good as one more. -/
theorem typeWithin_stable {depth : Nat} {o : Outlet} (h : rank o.node ≤ depth) :
    f.typeWithin (depth + 1) o = f.typeWithin depth o := by
  induction depth generalizing o with
  | zero =>
    have hnone : ∀ o' ∈ (f.action o.node).consumed, False := fun o' ho' => by
      have := hrank _ _ (.value ho')
      omega
    refine typeWithin_own (fun object feature haction => ?_) (fun object feature value haction => ?_) _
    · exact hnone object (by rw [haction]; exact List.mem_cons_self)
    · exact hnone object (by rw [haction]; exact List.mem_cons_self)
  | succ depth ih =>
    rw [typeWithin_succ, typeWithin_succ]
    refine typeBody_congr fun o' ho' => ih ?_
    have := rank_lt_of_path hrank ho'.path
    omega

variable (hle : ∀ n, rank n ≤ f.size)
include hle

theorem typeOf_eq (o : Outlet) : f.typeOf o = f.typeBody f.typeOf o :=
  (typeWithin_succ f.size o).trans
    (typeBody_congr fun o' _ => (typeWithin_stable hrank (hle o'.node)).symm)

/-- The recursion has one solution. -/
theorem eq_typeOf_iff {self : Outlet → Except ModelError DataType} :
    (∀ o, self o = f.typeBody self o) ↔ self = f.typeOf := by
  refine ⟨fun h => funext fun o => ?_, fun h o => h ▸ typeOf_eq hrank hle o⟩
  induction o using (wellFounded_consults hrank).induction with
  | _ o ih =>
    rw [h, typeOf_eq hrank hle]
    exact typeBody_congr ih

theorem typeOf_eq_root {o : Outlet} {r : Nat} (hr : f.RootOf o.node r) (hwrite : f.IsWrite o.node) :
    f.typeOf o = f.typeOf ⟨r, none⟩ := by
  obtain ⟨object, feature, value, haction⟩ := hwrite
  rw [typeOf_eq hrank hle o, typeBody, haction, root_eq_ok_iff.2 hr]
  rfl

end

/-- The objects of writes lead to a root unless they go on forever, which is reported as a
cycle. Where the dependencies have no cycle, a type only consults types at nodes that come
earlier, the recursion of types has one solution, and objects keep the types of their roots. -/
theorem references_descend {d : Definition} {m : Model} (hm : Model.build d = .ok m) (hf : f.Of m) :
    (∀ o, (∀ e, f.root o = .error e ↔ f.Endless o.node ∧
        e = .cyclicDependency (f.nodePath o.node) [f.activity.nodeId o.node]) ∧
      ∀ r, f.root o = .ok r ↔ f.RootOf o.node r) ∧
    ∀ g, f.graph = .ok g → g.Acyclic → ∃ nodes, g.order = .ok nodes ∧
      (∀ o o', f.Consults o o' → [o'.node, o.node].Sublist nodes) ∧
      (WellFounded fun o' o => f.Consults o o') ∧
      (∀ self, (∀ o, self o = f.typeBody self o) ↔ self = f.typeOf) ∧
      ∀ o r, f.RootOf o.node r → (f.IsWrite o.node ∨ ∀ body language inputs outputs,
        f.action r ≠ .opaqueAction body language inputs outputs) → f.typeOf o = f.typeOf ⟨r, none⟩ := by
  refine ⟨fun o => ⟨fun e => root_eq_error_iff, fun r => root_eq_ok_iff⟩, fun g hgraph hg => ?_⟩
  have hdeps := f.dependencies (hf.resolved (Model.resolved_of_build hm)) hgraph
  obtain ⟨nodes, hnodes⟩ := Graph.exists_order_iff.2 hg
  obtain ⟨rank, hedge, hle⟩ := hg.exists_rank
  have hrank : ∀ a b, f.Stated a b → rank a < rank b := fun a b hab => hedge a b (hdeps.stated a b hab)
  rw [hdeps.size] at hle
  refine ⟨nodes, hnodes, fun o o' h => ?_, wellFounded_consults hrank,
    fun self => eq_typeOf_iff hrank hle, fun o r hr hkind => ?_⟩
  · exact Graph.before_of_path hnodes (Relation.TransGen.mono hdeps.stated _ _ h.path)
  · cases hr with
    | self hself =>
      obtain ⟨object, feature, value, haction⟩ | hkind := hkind
      · exact absurd haction (hself _ _ _)
      · exact typeOf_value hkind
    | write haction hr => exact typeOf_eq_root hrank hle (.write haction hr) ⟨_, _, _, haction⟩

end Flow

/-! ### Writes in a row and in a ring -/

namespace Sample

def towDefinition : Definition where
  recordTypes := definition.recordTypes
  components := [{
    name := "Tow"
    attributes := []
    machine := ⟨"Cycle", "Idle", [⟨"Idle", []⟩], []⟩
    activities := [
      ⟨"Row", [
        ⟨"p", none, .parameter .input "pose" "Pose" none⟩,
        ⟨"t", none, .literal (.bool true)⟩,
        ⟨"w", none, .write ⟨"p", none⟩ "ready" ⟨"t", none⟩⟩,
        ⟨"v", none, .write ⟨"w", none⟩ "armed" ⟨"t", none⟩⟩,
        ⟨"g", none, .read ⟨"v", none⟩ "armed"⟩,
        ⟨"r", none, .parameter .output "armed" "bool" (some ⟨"g", none⟩)⟩], []⟩,
      ⟨"Ring", [
        ⟨"t", none, .literal (.bool true)⟩,
        ⟨"w", none, .write ⟨"v", none⟩ "ready" ⟨"t", none⟩⟩,
        ⟨"v", none, .write ⟨"w", none⟩ "armed" ⟨"t", none⟩⟩], []⟩] }]

def row : Activity where
  name := ⟨"Row", "Row"⟩
  nodes := [
    ⟨"p", "pose", .parameter .input ⟨"pose", "pose"⟩ (.record 0) none⟩,
    ⟨"t", "t", .literal (.bool true)⟩,
    ⟨"w", "w", .write ⟨0, none⟩ "ready" ⟨1, none⟩⟩,
    ⟨"v", "v", .write ⟨2, none⟩ "armed" ⟨1, none⟩⟩,
    ⟨"g", "g", .read ⟨3, none⟩ "armed"⟩,
    ⟨"r", "armed", .parameter .output ⟨"armed", "armed"⟩ (.scalar .bool) (some ⟨4, none⟩)⟩]
  edges := []

def ring : Activity where
  name := ⟨"Ring", "Ring"⟩
  nodes := [
    ⟨"t", "t", .literal (.bool true)⟩,
    ⟨"w", "w", .write ⟨2, none⟩ "ready" ⟨0, none⟩⟩,
    ⟨"v", "v", .write ⟨1, none⟩ "armed" ⟨0, none⟩⟩]
  edges := []

def tow : Component :=
  { component with name := ⟨"Tow", "Tow"⟩, activities := [row, ring] }

def towModel : Model := ⟨model.recordTypes, [tow]⟩

theorem build_towDefinition : Model.build towDefinition = .ok towModel := by
  decide +kernel

def rowing : Flow := ⟨towModel.recordTypes, tow, row, "Tow::Row", []⟩

def ringing : Flow := ⟨towModel.recordTypes, tow, ring, "Tow::Ring", []⟩

end Sample

namespace Flow

/-- The last write of the row has the type of the argument, and the ring has no root. -/
theorem references_descend_tow :
    Sample.rowing.typeOf ⟨3, none⟩ = Sample.rowing.typeOf ⟨0, none⟩ ∧ Sample.ringing.Endless 1 := by
  have hrow : Sample.rowing.Of Sample.towModel := ⟨rfl, List.mem_cons_self, List.mem_cons_self⟩
  have hring : Sample.ringing.Of Sample.towModel :=
    ⟨rfl, List.mem_cons_self, List.mem_cons_of_mem _ List.mem_cons_self⟩
  have horder : Sample.rowing.order = .ok [0, 1, 2, 3, 4, 5] := by decide +kernel
  obtain ⟨g, hgraph, hnodes⟩ := order_eq_ok horder
  have hresolved := hrow.resolved (Model.resolved_of_build Sample.build_towDefinition)
  have hacyclic := Graph.exists_order_iff.1 ⟨_, hnodes⟩
  obtain ⟨-, -, -, -, -, htypes⟩ :=
    (references_descend Sample.build_towDefinition hrow).2 g hgraph hacyclic
  have hroot : Sample.rowing.RootOf 3 0 := rootOf_of_root (o := ⟨3, none⟩) rfl
  have herror : Sample.ringing.root ⟨1, none⟩ = .error (.cyclicDependency
      (Sample.ringing.nodePath 1) [Sample.ringing.activity.nodeId 1]) := rfl
  refine ⟨htypes ⟨3, none⟩ 0 hroot (.inl ⟨_, _, _, rfl⟩), ?_⟩
  exact (((references_descend Sample.build_towDefinition hring).1 ⟨1, none⟩).1 _ |>.1 herror).1

end Flow

end FlightGen
