import FlightGen.Flow.Lowering
import FlightGen.Proofs.Naming.Effect

/-! Variables of a lowered activity. A variable belongs to one node only, be it the one
of its value or one of its outputs, and it is none of the names that other things have. -/

namespace FlightGen

def NodeVars.all (v : NodeVars) : List String := v.value :: v.outputs

namespace Flow

/-- How a node comes to its variables. -/
theorem nameVars_cases (written : List Nat) (index : Nat) (n : Node) :
    ((∀ body language inputs outputs, n.action ≠ .opaqueAction body language inputs outputs) ∧
      (nameVars written index n = pure ⟨n.ident, []⟩ ∨
      nameVars written index n = (do return ⟨← freshVar (n.ident ++ "_copy"), []⟩))) ∨
    ∃ body language inputs outputs, n.action = .opaqueAction body language inputs outputs ∧
      nameVars written index n = (do
        return ⟨n.ident, ← outputs.mapM fun pin => freshVar (n.ident ++ "_" ++ pin.name.ident)⟩) := by
  unfold nameVars
  cases n.action with
  | opaqueAction body language inputs outputs =>
    exact .inr ⟨body, language, inputs, outputs, rfl, rfl⟩
  | parameter direction =>
    refine .inl ⟨nofun, ?_⟩
    cases direction with
    | input =>
      dsimp only
      split
      · exact .inr rfl
      · exact .inl rfl
    | output => exact .inl rfl
  | _ => exact .inl ⟨nofun, .inl rfl⟩

/-- The variables of a node are its own identifier and identifiers that were free. -/
theorem nameVars_eq_ok {written : List Nat} {index : Nat} {n : Node} {v : NodeVars}
    {t t' : NameTable} (hn : n.ident ∈ (t.names "" .localVar).taken)
    (h : nameVars written index n t = .ok (v, t')) :
    t.Grows t' ∧ v.all.Nodup ∧ ∀ x ∈ v.all, x = n.ident ∨
      x ∉ (t.names "" .localVar).taken ∧ x ∈ (t'.names "" .localVar).taken := by
  obtain ⟨-, heq | heq⟩ | ⟨_, _, _, outputs, -, heq⟩ := nameVars_cases written index n
  · rw [heq] at h
    obtain ⟨rfl, rfl⟩ := Naming.pure_eq_ok.1 h
    exact ⟨.refl t, by simp [NodeVars.all], by simp [NodeVars.all]⟩
  · rw [heq] at h
    obtain ⟨x, t₁, hx, h⟩ := Naming.bind_eq_ok.1 h
    obtain ⟨rfl, rfl⟩ := Naming.pure_eq_ok.1 h
    obtain ⟨hgrows, -, hfree⟩ := Naming.fresh_assignFresh _ _ _ _ _ hx
    exact ⟨hgrows, by simp [NodeVars.all], fun y hy => .inr (hfree y hy)⟩
  · rw [heq] at h
    obtain ⟨xs, t₁, hxs, h⟩ := Naming.bind_eq_ok.1 h
    obtain ⟨rfl, rfl⟩ := Naming.pure_eq_ok.1 h
    obtain ⟨hgrows, hnodup, hfree⟩ :=
      Naming.Fresh.mapM (fun _ => Naming.fresh_assignFresh _ _) _ _ _ _ hxs
    rw [List.flatMap_singleton'] at hnodup hfree
    refine ⟨hgrows, List.nodup_cons.2 ⟨fun hmem => (hfree _ hmem).1 hn, hnodup⟩, ?_⟩
    intro x hx
    exact (List.mem_cons.1 hx).imp id (hfree x)

/-- Every identifier is taken from the start, so that what is drawn later differs from
all of them. -/
theorem nodup_mapM_nameVars {written : List Nat} {nodes : List (Node × Nat)} {vars : List NodeVars}
    {t t' : NameTable} (hidents : (nodes.map (·.1.ident)).Nodup)
    (htaken : ∀ p ∈ nodes, p.1.ident ∈ (t.names "" .localVar).taken)
    (h : nodes.mapM (fun p => nameVars written p.2 p.1) t = .ok (vars, t')) :
    (vars.flatMap NodeVars.all).Nodup ∧ ∀ x ∈ vars.flatMap NodeVars.all,
      x ∈ nodes.map (·.1.ident) ∨ x ∉ (t.names "" .localVar).taken := by
  induction nodes generalizing vars t with
  | nil =>
    obtain ⟨rfl, -⟩ := Naming.pure_eq_ok.1 h
    simp
  | cons p nodes ih =>
    obtain ⟨v, vs, t₁, hv, hvs, rfl⟩ := Naming.mapM_cons_eq_ok.1 h
    obtain ⟨hp, hnodes⟩ := List.forall_mem_cons.1 htaken
    rw [List.map_cons, List.nodup_cons] at hidents
    obtain ⟨hgrows, hnodup, hall⟩ := nameVars_eq_ok hp hv
    have htaken₁ : ∀ q ∈ nodes, q.1.ident ∈ (t₁.names "" .localVar).taken :=
      fun q hq => hgrows.taken _ _ (hnodes q hq)
    obtain ⟨hnodup', hall'⟩ := ih hidents.2 htaken₁ hvs
    rw [List.flatMap_cons]
    constructor
    · refine hnodup.append hnodup' fun x hx hx' => ?_
      obtain rfl | ⟨hfree, htaken⟩ := hall x hx
      · obtain h | h := hall' _ hx'
        · exact hidents.1 h
        · exact h (hgrows.taken _ _ hp)
      · obtain h | h := hall' x hx'
        · obtain ⟨q, hq, rfl⟩ := List.mem_map.1 h
          exact hfree (hnodes q hq)
        · exact h htaken
    · intro x hx
      rw [List.map_cons, List.mem_cons]
      obtain hx | hx := List.mem_append.1 hx
      · exact (hall x hx).imp .inl (·.1)
      · obtain h | h := hall' x hx
        · exact .inl (.inr h)
        · exact .inr fun h' => h (hgrows.taken _ _ h')

variable {f : Flow} {written : List Nat} {vars : List NodeVars}

theorem nodeVars_eq_ok (h : f.nodeVars written = .ok vars) :
    ∃ t t', (∀ x ∈ f.takenNames, x ∈ (t.names "" .localVar).taken) ∧
      f.activity.nodes.zipIdx.mapM (fun p => nameVars written p.2 p.1) t = .ok (vars, t') := by
  obtain ⟨⟨_, t'⟩, h, hvars⟩ := bind_eq_ok.1 h
  cases hvars
  obtain ⟨_, t, hreserve, h⟩ := Naming.bind_eq_ok.1 h
  exact ⟨t, t', Naming.mem_taken_reserveAll hreserve, h⟩

/-- Variables are different from each other, and all but the identifiers of nodes are
different from the names that are taken. -/
theorem vars_unique (hf : (f.activity.nodes.map (·.ident)).Nodup)
    (h : f.nodeVars written = .ok vars) :
    (vars.flatMap NodeVars.all).Nodup ∧ ∀ x ∈ vars.flatMap NodeVars.all,
      x ∈ f.activity.nodes.map (·.ident) ∨ x ∉ f.takenNames := by
  obtain ⟨t, t', htaken, h⟩ := nodeVars_eq_ok h
  have hmap : f.activity.nodes.zipIdx.map (·.1.ident) = f.activity.nodes.map (·.ident) := by
    rw [← List.zipIdx_map_fst 0 f.activity.nodes, List.map_map]
    simp [Function.comp_def]
  have hnode : ∀ n ∈ f.activity.nodes, n.ident ∈ f.takenNames := fun n hn =>
    List.mem_append_right _ (List.mem_flatMap.2 ⟨n, hn, List.mem_cons_self⟩)
  rw [← hmap] at hf ⊢
  obtain ⟨hnodup, hfresh⟩ := nodup_mapM_nameVars hf
    (fun p hp => htaken _ (hnode _ (List.fst_mem_of_mem_zipIdx hp))) h
  exact ⟨hnodup, fun x hx => (hfresh x hx).imp id fun hfree hmem => hfree (htaken x hmem)⟩

theorem getElem?_vars (h : f.nodeVars written = .ok vars) {n : Nat} {node : Node}
    (hn : f.activity.nodes[n]? = some node) :
    ∃ v t t', vars[n]? = some v ∧ nameVars written n node t = .ok (v, t') := by
  obtain ⟨t, t', -, h⟩ := nodeVars_eq_ok h
  have hzip : f.activity.nodes.zipIdx[n]? = some (node, n) := by
    simp [List.getElem?_zipIdx, hn]
  obtain ⟨v, hv, s, s', hs⟩ := getElem?_of_forall₂ (Naming.forall₂_mapM h) hzip
  exact ⟨v, s, s', hv, hs⟩

/-- The variables of a node. -/
def allVars (vars : List NodeVars) (n : Nat) : List String := valueVar vars n :: outputVars vars n

theorem allVars_eq {n : Nat} {v : NodeVars} (h : vars[n]? = some v) : allVars vars n = v.all := by
  simp [allVars, valueVar, outputVars, NodeVars.all, h]

/-- Only opaque actions have outputs, each with its variable. -/
theorem length_outputVars (h : f.nodeVars written = .ok vars) {n : Nat} {node : Node}
    (hn : f.activity.nodes[n]? = some node) :
    (∀ body language inputs outputs, node.action = .opaqueAction body language inputs outputs →
      (outputVars vars n).length = outputs.length) ∧
    ((∀ body language inputs outputs, node.action ≠ .opaqueAction body language inputs outputs) →
      outputVars vars n = []) := by
  obtain ⟨v, t, t', hv, hname⟩ := getElem?_vars h hn
  have houtputs : outputVars vars n = v.outputs := by simp [outputVars, hv]
  rw [houtputs]
  obtain ⟨hother, heq | heq⟩ | ⟨_, _, _, outputs, haction, heq⟩ := nameVars_cases written n node
  · rw [heq] at hname
    obtain ⟨rfl, -⟩ := Naming.pure_eq_ok.1 hname
    exact ⟨fun _ _ _ _ h => absurd h (hother _ _ _ _), fun _ => rfl⟩
  · rw [heq] at hname
    obtain ⟨x, t₁, -, hname⟩ := Naming.bind_eq_ok.1 hname
    obtain ⟨rfl, -⟩ := Naming.pure_eq_ok.1 hname
    exact ⟨fun _ _ _ _ h => absurd h (hother _ _ _ _), fun _ => rfl⟩
  · rw [heq] at hname
    obtain ⟨xs, t₁, hxs, hname⟩ := Naming.bind_eq_ok.1 hname
    obtain ⟨rfl, -⟩ := Naming.pure_eq_ok.1 hname
    refine ⟨fun _ _ _ outputs' h => ?_, fun h => absurd haction (h _ _ _ _)⟩
    cases haction.symm.trans h
    exact (Naming.forall₂_mapM hxs).length_eq.symm

/-- No two nodes share a variable, and a node has each of its variables once. -/
theorem allVars_unique (hf : (f.activity.nodes.map (·.ident)).Nodup)
    (h : f.nodeVars written = .ok vars) {n n' : Nat} (hn : n < f.activity.nodes.length)
    (hn' : n' < f.activity.nodes.length) :
    (allVars vars n).Nodup ∧ ∀ x, x ∈ allVars vars n → x ∈ allVars vars n' → n = n' := by
  obtain ⟨v, -, -, hv, -⟩ := getElem?_vars h (List.getElem?_eq_getElem hn)
  obtain ⟨v', -, -, hv', -⟩ := getElem?_vars h (List.getElem?_eq_getElem hn')
  obtain ⟨hnodup, hpair⟩ := List.nodup_flatMap.1 (vars_unique hf h).1
  rw [allVars_eq hv, allVars_eq hv']
  refine ⟨hnodup v (List.mem_of_getElem? hv), fun x hx hx' => ?_⟩
  obtain ⟨hlt, rfl⟩ := List.getElem?_eq_some_iff.1 hv
  obtain ⟨hlt', rfl⟩ := List.getElem?_eq_some_iff.1 hv'
  by_contra hne
  obtain h | h := Nat.lt_or_gt_of_ne hne
  · exact List.pairwise_iff_getElem.1 hpair n n' hlt hlt' h hx hx'
  · exact List.pairwise_iff_getElem.1 hpair n' n hlt' hlt h hx' hx

end Flow

end FlightGen
