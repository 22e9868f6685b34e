import FlightGen.Proofs.Flow.Root
import FlightGen.Proofs.Graph.Search

/-! The dependencies of an activity with those that its writes add. They never close a
cycle, and every write that a node could see is ordered against the node. -/

namespace FlightGen.Flow

variable {f : Flow}

/-! ### Writes and consumers -/

/-- Node `w` writes to a feature of the object that `root` produced. -/
def Writes (f : Flow) (w root : Nat) (feature : String) : Prop :=
  ∃ object value, f.action w = .write object feature value ∧ f.RootOf object.node root

/-- What node `c` does depends on a feature of the object that `root` produced: the node
reads it, or hands the object to a call or to an output. -/
inductive Consumes (f : Flow) (c root : Nat) (feature : String) : Prop
  | read {object : Outlet} (h : f.action c = .read object feature)
      (hr : f.RootOf object.node root)
  | call {target : Nat} {arguments : List Argument} {argument : Argument}
      (h : f.action c = .call target arguments) (ha : argument ∈ arguments)
      (hr : f.RootOf argument.source.node root)
  | output {name : Name} {type : ParameterType} {source : Outlet}
      (h : f.action c = .parameter .output name type (some source))
      (hr : f.RootOf source.node root)

/-- The effect of write `w` is visible to node `c`. -/
def Affects (f : Flow) (w c : Nat) : Prop :=
  ∃ root feature, f.Writes w root feature ∧ f.Consumes c root feature

theorem Writes.lt_size {w root : Nat} {feature : String} (h : f.Writes w root feature) :
    w < f.size := by
  obtain ⟨object, value, h, -⟩ := h
  exact f.lt_size (by simp [h])

theorem Consumes.lt_size {c root : Nat} {feature : String} (h : f.Consumes c root feature) :
    c < f.size := by
  cases h with
  | read h => exact f.lt_size (by simp [h])
  | call h => exact f.lt_size (by simp [h])
  | output h => exact f.lt_size (by simp [h])

theorem Affects.ne {w c : Nat} (h : f.Affects w c) : w ≠ c := by
  rintro rfl
  obtain ⟨root, feature, ⟨object, value, hw, -⟩, hc⟩ := h
  cases hc with
  | read h => simp [hw] at h
  | call h => simp [hw] at h
  | output h => simp [hw] at h

/-! ### Lists of writes and uses -/

theorem write?_eq_ok {n : Nat} {write : Option Write} (h : f.write? n = .ok write) (w : Write) :
    w ∈ write ↔ w.node = n ∧ f.Writes n w.root w.feature := by
  cases haction : f.action n with
  | write object feature value =>
    unfold write? at h
    rw [haction] at h
    obtain ⟨root, hroot, h⟩ := bind_eq_ok.1 h
    cases h
    have hr := rootOf_of_root hroot
    constructor
    · intro hw
      cases Option.mem_some.1 hw
      exact ⟨rfl, object, value, haction, hr⟩
    · rintro ⟨rfl, object', value', haction', hr'⟩
      cases haction.symm.trans haction'
      cases hr.unique hr'
      rfl
  | _ =>
    unfold write? at h
    rw [haction] at h
    cases h
    constructor
    · intro hw
      cases hw
    · rintro ⟨-, object, value, haction', -⟩
      cases haction.symm.trans haction'

theorem mem_writes {ws : List Write} (h : f.writes = .ok ws) {w : Write} :
    w ∈ ws ↔ f.Writes w.node w.root w.feature := by
  obtain ⟨xs, hxs, h⟩ := bind_eq_ok.1 h
  cases h
  simp only [List.mem_filterMap, mem_of_mapM hxs, List.mem_range, id]
  constructor
  · rintro ⟨_, ⟨n, -, hn⟩, rfl⟩
    obtain ⟨rfl, hw⟩ := (write?_eq_ok hn w).1 rfl
    exact hw
  · intro hw
    obtain ⟨write, hmem⟩ := exists_of_mapM hxs (List.mem_range.2 hw.lt_size)
    exact ⟨write, ⟨_, hw.lt_size, hmem⟩, (write?_eq_ok hmem w).2 ⟨rfl, hw⟩⟩

theorem use?_node {n : Nat} {u : Use} (h : f.use? n = .ok (some u)) : u.node = n := by
  unfold use? at h
  split at h
  · obtain ⟨root, -, h⟩ := bind_eq_ok.1 h
    cases h
    rfl
  · obtain ⟨roots, -, h⟩ := bind_eq_ok.1 h
    cases h
    rfl
  · obtain ⟨root, -, h⟩ := bind_eq_ok.1 h
    cases h
    rfl
  · cases h

theorem node_lt_of_mem_uses {us : List Use} (h : f.uses = .ok us) {u : Use} (hu : u ∈ us) :
    u.node < f.size := by
  obtain ⟨xs, hxs, h⟩ := bind_eq_ok.1 h
  cases h
  obtain ⟨use, huse, hmem⟩ := List.mem_filterMap.1 hu
  obtain ⟨n, hn, huse⟩ := (mem_of_mapM hxs).1 huse
  cases Option.mem_def.1 hmem
  rw [use?_node huse]
  exact List.mem_range.1 hn

/-- A use stands for all that its node consumes. -/
theorem consumes_iff {n : Nat} {use : Option Use} (h : f.use? n = .ok use) {root : Nat}
    {feature : String} :
    f.Consumes n root feature ↔
      ∃ u ∈ use, root ∈ u.roots ∧ u.feature.all (· = feature) = true := by
  unfold use? at h
  split at h
  · rename_i object feature' haction
    obtain ⟨r, hr, h⟩ := bind_eq_ok.1 h
    cases h
    constructor
    · intro hc
      cases hc with
      | read h' hr' =>
        cases haction.symm.trans h'
        cases (rootOf_of_root hr).unique hr'
        exact ⟨_, rfl, by simp⟩
      | call h' => cases haction.symm.trans h'
      | output h' => cases haction.symm.trans h'
    · rintro ⟨u, hu, hroot, hfeature⟩
      cases Option.mem_some.1 hu
      cases List.mem_singleton.1 hroot
      obtain rfl : feature' = feature := by simpa using hfeature
      exact .read haction (rootOf_of_root hr)
  · rename_i target arguments haction
    obtain ⟨rs, hrs, h⟩ := bind_eq_ok.1 h
    cases h
    constructor
    · intro hc
      cases hc with
      | read h' => cases haction.symm.trans h'
      | call h' ha hr' =>
        cases haction.symm.trans h'
        obtain ⟨r, hr⟩ := exists_of_mapM hrs ha
        cases (rootOf_of_root hr).unique hr'
        exact ⟨_, rfl, (mem_of_mapM hrs).2 ⟨_, ha, hr⟩, rfl⟩
      | output h' => cases haction.symm.trans h'
    · rintro ⟨u, hu, hroot, -⟩
      cases Option.mem_some.1 hu
      obtain ⟨a, ha, hr⟩ := (mem_of_mapM hrs).1 hroot
      exact .call haction ha (rootOf_of_root hr)
  · rename_i name type source haction
    obtain ⟨r, hr, h⟩ := bind_eq_ok.1 h
    cases h
    constructor
    · intro hc
      cases hc with
      | read h' => cases haction.symm.trans h'
      | call h' => cases haction.symm.trans h'
      | output h' hr' =>
        cases haction.symm.trans h'
        cases (rootOf_of_root hr).unique hr'
        exact ⟨_, rfl, by simp⟩
    · rintro ⟨u, hu, hroot, -⟩
      cases Option.mem_some.1 hu
      cases List.mem_singleton.1 hroot
      exact .output haction (rootOf_of_root hr)
  · rename_i hread hcall houtput
    cases h
    constructor
    · intro hc
      cases hc with
      | read h' => exact absurd h' (hread _ _)
      | call h' => exact absurd h' (hcall _ _)
      | output h' => exact absurd h' (houtput _ _ _)
    · rintro ⟨u, hu, -⟩
      cases hu

/-- A use is concerned by exactly the writes that affect its node. -/
theorem affects_iff {us : List Use} {ws : List Write} (hu : f.uses = .ok us)
    (hw : f.writes = .ok ws) {a b : Nat} :
    f.Affects a b ↔ ∃ w ∈ ws, ∃ u ∈ us, u.concerns w = true ∧ w.node = a ∧ u.node = b := by
  obtain ⟨xs, hxs, hu⟩ := bind_eq_ok.1 hu
  cases hu
  constructor
  · intro h
    have hne := h.ne
    obtain ⟨root, feature, hwrites, hconsumes⟩ := h
    refine ⟨⟨a, root, feature⟩, (mem_writes hw).2 hwrites, ?_⟩
    obtain ⟨use, huse⟩ := exists_of_mapM hxs (List.mem_range.2 hconsumes.lt_size)
    obtain ⟨u, hmem, hroot, hfeature⟩ := (consumes_iff huse).1 hconsumes
    cases Option.mem_def.1 hmem
    have hnode := use?_node huse
    refine ⟨u, ?_, ?_, rfl, hnode⟩
    · exact List.mem_filterMap.2
        ⟨_, (mem_of_mapM hxs).2 ⟨b, List.mem_range.2 hconsumes.lt_size, huse⟩, rfl⟩
    · simp [Use.concerns, hroot, hnode, hne]
      simpa using hfeature
  · rintro ⟨w, hw', u, hu', hconcerns, rfl, rfl⟩
    obtain ⟨use, huse, hmem⟩ := List.mem_filterMap.1 hu'
    obtain ⟨n, -, hn⟩ := (mem_of_mapM hxs).1 huse
    cases Option.mem_def.1 hmem
    cases use?_node hn
    simp only [Use.concerns, Bool.and_eq_true, decide_eq_true_eq] at hconcerns
    obtain ⟨⟨hroot, hfeature⟩, -⟩ := hconcerns
    exact ⟨w.root, w.feature, (mem_writes hw).1 hw', (consumes_iff hn).2 ⟨u, rfl, hroot, hfeature⟩⟩

/-! ### Ordering the writes -/

theorem orderUse_cases (g : Graph) (w : Write) (u : Use) :
    (u.concerns w = true ∧ ¬ g.Path u.node w.node ∧ orderUse w g u = g.insert (w.node, u.node)) ∨
    (orderUse w g u = g ∧ (u.concerns w = true → g.Path u.node w.node)) := by
  unfold orderUse
  split
  · rename_i h
    simp only [Bool.and_eq_true, Bool.not_eq_true', ← Bool.not_eq_true, Graph.reaches_iff] at h
    exact .inl ⟨h.1, h.2, rfl⟩
  · rename_i h
    simp only [Bool.and_eq_true, Bool.not_eq_true', ← Bool.not_eq_true, Graph.reaches_iff] at h
    exact .inr ⟨rfl, fun hc => by_contra fun hp => h ⟨hc, hp⟩⟩

/-- Graph `g'` arises from `g` if the pairs of a write and a use are ordered in turn. -/
structure Orders (pairs : List (Write × Use)) (g g' : Graph) : Prop where
  size : g'.size = g.size
  edge : ∀ a b, g.Edge a b → g'.Edge a b
  origin : ∀ a b, g'.Edge a b → g.Edge a b ∨
    ∃ p ∈ pairs, p.2.concerns p.1 = true ∧ p.1.node = a ∧ p.2.node = b
  acyclic : g.Acyclic → g'.Acyclic
  ordered : ∀ p ∈ pairs, p.2.concerns p.1 = true →
    g'.Edge p.1.node p.2.node ∨ g'.Path p.2.node p.1.node

theorem Orders.path {pairs : List (Write × Use)} {g g' : Graph} (h : Orders pairs g g') {a b : Nat}
    (hab : g.Path a b) : g'.Path a b :=
  Relation.TransGen.mono h.edge _ _ hab

theorem orders_orderUse {g : Graph} {p : Write × Use}
    (hp : p.1.node < g.size ∧ p.2.node < g.size) : Orders [p] g (orderUse p.1 g p.2) := by
  obtain ⟨hc, hpath, heq⟩ | ⟨heq, hpath⟩ := orderUse_cases g p.1 p.2
  · rw [heq]
    refine ⟨g.size_insert _, fun a b hab => Graph.edge_insert.2 (.inl hab), ?_, ?_, ?_⟩
    · intro a b hab
      obtain hab | ⟨hab, -⟩ := Graph.edge_insert.1 hab
      · exact .inl hab
      · cases hab
        exact .inr ⟨p, List.mem_singleton_self p, hc, rfl, rfl⟩
    · intro hacyclic
      have hne : p.1.node ≠ p.2.node := by
        simp only [Use.concerns, Bool.and_eq_true, decide_eq_true_eq] at hc
        exact hc.2
      exact hacyclic.insert hne hpath
    · intro q hq _
      cases List.mem_singleton.1 hq
      exact .inl (Graph.edge_insert.2 (.inr ⟨rfl, hp⟩))
  · rw [heq]
    refine ⟨rfl, fun _ _ h => h, fun _ _ h => .inl h, id, ?_⟩
    intro q hq hc
    cases List.mem_singleton.1 hq
    exact .inr (hpath hc)

theorem Orders.trans {ps qs : List (Write × Use)} {g g' g'' : Graph} (h : Orders ps g g')
    (h' : Orders qs g' g'') : Orders (ps ++ qs) g g'' where
  size := h'.size.trans h.size
  edge a b hab := h'.edge a b (h.edge a b hab)
  origin a b hab := by
    obtain hab | ⟨q, hq, hqab⟩ := h'.origin a b hab
    · obtain hab | ⟨p, hp, hpab⟩ := h.origin a b hab
      · exact .inl hab
      · exact .inr ⟨p, List.mem_append_left _ hp, hpab⟩
    · exact .inr ⟨q, List.mem_append_right _ hq, hqab⟩
  acyclic := h'.acyclic ∘ h.acyclic
  ordered p hp hc := by
    obtain hp | hp := List.mem_append.1 hp
    · exact (h.ordered p hp hc).imp (h'.edge _ _) h'.path
    · exact h'.ordered p hp hc

theorem orders_foldl {g : Graph} (pairs : List (Write × Use))
    (hp : ∀ p ∈ pairs, p.1.node < g.size ∧ p.2.node < g.size) :
    Orders pairs g (pairs.foldl (fun g p => orderUse p.1 g p.2) g) := by
  induction pairs generalizing g with
  | nil => exact ⟨rfl, fun _ _ h => h, fun _ _ h => .inl h, id, by simp⟩
  | cons p pairs ih =>
    obtain ⟨hfirst, hrest⟩ := List.forall_mem_cons.1 hp
    have hstep := orders_orderUse hfirst
    exact hstep.trans (ih (by simpa [hstep.size] using hrest))

/-- What the dependencies of an activity consist of. -/
structure Dependencies (f : Flow) (g : Graph) : Prop where
  size : g.size = f.size
  stated : ∀ a b, f.Stated a b → g.Edge a b
  origin : ∀ a b, g.Edge a b → f.Stated a b ∨ f.Affects a b
  acyclic : f.statedGraph.Acyclic → g.Acyclic
  ordered : ∀ w c, f.Affects w c → g.Edge w c ∨ g.Path c w

theorem dependencies {k : Nat} (hf : f.activity.Resolved k) {g : Graph} (h : f.graph = .ok g) :
    f.Dependencies g := by
  obtain ⟨us, hus, h⟩ := bind_eq_ok.1 h
  obtain ⟨ws, hws, h⟩ := bind_eq_ok.1 h
  cases h
  have hfold : ws.foldl (fun g w => us.foldl (orderUse w) g) f.statedGraph =
      (ws.product us).foldl (fun g p => orderUse p.1 g p.2) f.statedGraph := by
    simp only [List.product, List.foldl_flatMap, List.foldl_map]
  rw [hfold]
  have hnodes : ∀ p ∈ ws.product us, p.1.node < f.size ∧ p.2.node < f.size := by
    intro p hp
    obtain ⟨hw, hu⟩ := List.pair_mem_product.1 hp
    exact ⟨((mem_writes hws).1 hw).lt_size, node_lt_of_mem_uses hus hu⟩
  have horders := orders_foldl (g := f.statedGraph) (ws.product us) (size_statedGraph (f := f) ▸ hnodes)
  refine ⟨horders.size.trans size_statedGraph,
    fun a b hab => horders.edge a b ((edge_statedGraph hf).2 hab), ?_, horders.acyclic, ?_⟩
  · intro a b hab
    obtain hab | ⟨p, hp, hc, rfl, rfl⟩ := horders.origin a b hab
    · exact .inl ((edge_statedGraph hf).1 hab)
    · obtain ⟨hw, hu⟩ := List.pair_mem_product.1 hp
      exact .inr ((affects_iff hus hws).2 ⟨p.1, hw, p.2, hu, hc, rfl, rfl⟩)
  · intro w c hwc
    obtain ⟨w, hw, u, hu, hc, rfl, rfl⟩ := (affects_iff hus hws).1 hwc
    exact horders.ordered (w, u) (List.pair_mem_product.2 ⟨hw, hu⟩) hc

end FlightGen.Flow
