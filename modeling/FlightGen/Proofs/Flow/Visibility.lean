import FlightGen.Proofs.Flow.Lowering

/-! Which writes a node sees. A write comes before all nodes that it affects, except for
those on which it depends. -/

namespace FlightGen.Flow

variable {f : Flow} {r : Routine}

/-- The model states that `a` comes before `b`, or `a` is a write that `b` could see. -/
def Wanted (f : Flow) (a b : Nat) : Prop := f.Stated a b ∨ f.Affects a b

namespace Lowering

variable (L : f.Lowering r) {k : Nat} (hf : f.activity.Resolved k) {w c : Nat}
include hf

theorem before_or_path (h : f.Affects w c) : [w, c].Sublist L.nodes ∨ L.graph.Path c w := by
  have hdeps := L.dependencies hf
  refine (hdeps.ordered w c h).imp (fun hedge => ?_) id
  exact L.before_of_path (.single hedge)

omit hf in
theorem not_path_of_before (h : [w, c].Sublist L.nodes) : ¬ L.graph.Path c w := fun hpath =>
  before_asymm L.nodup_nodes h (L.before_of_path hpath)

/-- A path against a write that a node could see would close a cycle with it. -/
theorem before_of_acyclic (hacyclic : ¬ ∃ n, Relation.TransGen f.Wanted n n) (h : f.Affects w c) :
    [w, c].Sublist L.nodes := by
  refine (L.before_or_path hf h).resolve_right fun hpath => hacyclic ⟨c, ?_⟩
  have hwanted := Relation.TransGen.mono (L.dependencies hf).origin _ _ hpath
  exact hwanted.tail (.inr h)

end Lowering

/-- In a lowered activity of a built model, a write comes before a node that consumes the
same feature of the same object, unless a path leads from the node to the write. If all
these dependencies fit together, every such write comes first. So two pairs of a read and
a write of one feature interleave only along paths of the graph. -/
theorem precedes_of_write {d : Definition} {m : Model} (hm : Model.build d = .ok m) (hf : f.Of m)
    (hr : f.lower = .ok r) :
    ∃ g, f.graph = .ok g ∧
      (∀ w c root feature, f.Writes w root feature → f.Consumes c root feature →
        Xor (r.Precedes (f.activity.nodeId w) (f.activity.nodeId c)) (g.Path c w) ∧
        (g.Path c w → r.Precedes (f.activity.nodeId c) (f.activity.nodeId w))) ∧
      ((¬ ∃ n, Relation.TransGen f.Wanted n n) →
        ∀ w c root feature, f.Writes w root feature → f.Consumes c root feature →
          r.Precedes (f.activity.nodeId w) (f.activity.nodeId c)) ∧
      ∀ r₁ w₁ r₂ w₂ root feature, f.Consumes r₁ root feature → f.Writes w₁ root feature →
        f.Consumes r₂ root feature → f.Writes w₂ root feature →
        r.Precedes (f.activity.nodeId r₁) (f.activity.nodeId w₂) →
        r.Precedes (f.activity.nodeId r₂) (f.activity.nodeId w₁) →
        g.Path r₁ w₂ ∧ g.Path r₂ w₁ := by
  have hresolved := hf.resolved (Model.resolved_of_build hm)
  obtain ⟨L⟩ := f.exists_lowering hr
  have hpath : ∀ w c root feature, f.Writes w root feature → f.Consumes c root feature →
      r.Precedes (f.activity.nodeId c) (f.activity.nodeId w) → L.graph.Path c w := by
    intro w c root feature hw hc hprec
    have hbefore := (L.precedes_iff hresolved hc.lt_size hw.lt_size).1 hprec
    obtain h | h := L.before_or_path hresolved ⟨root, feature, hw, hc⟩
    · exact absurd hbefore (before_asymm L.nodup_nodes h)
    · exact h
  refine ⟨L.graph, L.graph_eq, ?_, ?_, ?_⟩
  · intro w c root feature hw hc
    have hwc := L.precedes_iff hresolved hw.lt_size hc.lt_size
    have hcw := L.precedes_iff hresolved hc.lt_size hw.lt_size
    refine ⟨?_, fun h => hcw.2 (L.before_of_path h)⟩
    obtain h | h := L.before_or_path hresolved ⟨root, feature, hw, hc⟩
    · exact .inl ⟨hwc.2 h, L.not_path_of_before h⟩
    · exact .inr ⟨h, fun hprec => L.not_path_of_before (hwc.1 hprec) h⟩
  · intro hacyclic w c root feature hw hc
    exact (L.precedes_iff hresolved hw.lt_size hc.lt_size).2
      (L.before_of_acyclic hresolved hacyclic ⟨root, feature, hw, hc⟩)
  · intro r₁ w₁ r₂ w₂ root feature hr₁ hw₁ hr₂ hw₂ h₁ h₂
    exact ⟨hpath w₂ r₁ root feature hw₂ hr₁ h₁, hpath w₁ r₂ root feature hw₁ hr₂ h₂⟩

/-- In `Mark`, either the output sees the first write, or it has to come before it. -/
theorem precedes_of_write_marking : ∃ g, Sample.marking.graph = .ok g ∧
    Xor (Sample.marked.Precedes "w" "r") (g.Path 4 2) := by
  obtain ⟨g, hg, hwrite, -⟩ :=
    precedes_of_write Sample.build_definition Sample.marking_of Sample.lower_marking
  refine ⟨g, hg, (hwrite 2 4 0 "ready" ?_ ?_).1⟩
  · exact ⟨⟨0, none⟩, ⟨1, none⟩, rfl, .self nofun⟩
  · exact .output rfl (.self nofun)

end FlightGen.Flow
