import FlightGen.Proofs.Compilation.Outcome

/-! Components are compiled apart from each other. The answer to a request depends on the results
of its own component alone, and the results of all other components stay as they are. -/

namespace FlightGen

/-- States with the same activities in progress and the same results for one component. -/
structure Compilation.Agrees (c : Component) (s t : Compilation) : Prop where
  stack : s.stack = t.stack
  results : ∀ i < c.activities.length,
    s.results.lookup (c.qualified i) = t.results.lookup (c.qualified i)

namespace Compilation.Agrees

variable {c : Component} {s t u : Compilation}

theorem refl (c : Component) (s : Compilation) : Agrees c s s :=
  ⟨rfl, fun _ _ => rfl⟩

theorem symm (h : Agrees c s t) : Agrees c t s :=
  ⟨h.stack.symm, fun i hi => (h.results i hi).symm⟩

theorem trans (h : Agrees c s t) (h' : Agrees c t u) : Agrees c s u :=
  ⟨h.stack.trans h'.stack, fun i hi => (h.results i hi).trans (h'.results i hi)⟩

theorem enter (h : Agrees c s t) (name : String) : Agrees c (s.enter name) (t.enter name) :=
  ⟨congrArg (name :: ·) h.stack, h.results⟩

theorem note (h : Agrees c s t) (name : String) : Agrees c (s.note name) (t.note name) :=
  ⟨h.stack, h.results⟩

theorem leave (h : Agrees c s t) (name : String) (x : Except CompileError Routine) :
    Agrees c (s.leave name x) (t.leave name x) := by
  refine ⟨congrArg List.tail h.stack, fun i hi => ?_⟩
  rw [results_leave, results_leave, List.lookup_append, List.lookup_append, h.results i hi]

theorem pending (h : Agrees c s t) {i : Nat} {a : Activity} (hp : Pending c s i a) :
    Pending c t i a :=
  ⟨hp.activity, h.results i (List.getElem?_eq_some_iff.1 hp.activity).1 ▸ hp.result,
    h.stack ▸ hp.stack⟩

end Compilation.Agrees

/-! ### Following a computation -/

/-- Requests from another state are answered in the same way, if each of them is. -/
theorem Callees.follow {R R' : Judgment} {I : Compilation → Compilation → Prop} {c : Component}
    {path : String} {s s' : Compilation} {nodes : List (Node × Nat)}
    {x : Except CompileError (List (Nat × Routine))} (h : Callees R c path s nodes x s')
    (hR : ∀ s target y s' t, CallsAmong (nodes.map Prod.fst) target → R s target y s' → I s t →
      ∃ t', R' t target y t' ∧ I s' t')
    {t : Compilation} (hst : I s t) : ∃ t', Callees R' c path t nodes x t' ∧ I s' t' := by
  induction h generalizing t with
  | nil => exact ⟨t, .nil, hst⟩
  | other hn _ ih =>
    obtain ⟨t', h, hst'⟩ := ih (fun s target y s' t ⟨n, hn, hcall⟩ =>
      hR s target y s' t ⟨n, List.mem_cons_of_mem _ hn, hcall⟩) hst
    exact ⟨t', .other hn h, hst'⟩
  | failed hn h =>
    obtain ⟨t', h, hst'⟩ := hR _ _ _ _ t ⟨_, List.mem_cons_self, _, hn⟩ h hst
    exact ⟨t', .failed hn h, hst'⟩
  | call hn h _ ih =>
    obtain ⟨t₁, h, hst₁⟩ := hR _ _ _ _ t ⟨_, List.mem_cons_self, _, hn⟩ h hst
    obtain ⟨t', hrest, hst'⟩ := ih (fun s target y s' t ⟨n, hn, hcall⟩ =>
      hR s target y s' t ⟨n, List.mem_cons_of_mem _ hn, hcall⟩) hst₁
    exact ⟨t', .call hn h hrest, hst'⟩

section

variable {m : Model} {c : Component} {s s' : Compilation} {i : Nat}
  {x : Except CompileError Routine}

/-- From a state that agrees on the component, a request has the same answer. -/
def Transfers (m : Model) (c : Component) : Judgment := fun s i x s' =>
  i < c.activities.length → ∀ t depth, s.Agrees c t → HasRoom c depth t →
    ∃ t', (compileWithin m c depth i).run.run t = (x, t') ∧ s'.Agrees c t'

theorem transfers_of_rule (hm : m.Resolved) (hc : c ∈ m.components)
    (h : Rule (fun s i x s' => s.Grows s' ∧ Transfers m c s i x s') m c s i x s') :
    Transfers m c s i x s' := by
  intro hi t depth hst hroom
  obtain ⟨depth, rfl⟩ := Nat.exists_eq_add_one_of_ne_zero (Nat.ne_of_gt hroom.pos)
  suffices ∃ t', Rule (answers (compileWithin m c depth)) m c t i x t' ∧ s'.Agrees c t' by
    obtain ⟨t', hrule, hst'⟩ := this
    exact ⟨t', run_compileWithin.2 hrule, hst'⟩
  -- The called activities are requested on top of this one, in both states.
  have hcallees {a : Activity} (hp : Pending c s i a)
      {y : Except CompileError (List (Nat × Routine))} {s₁ : Compilation}
      (hcalls : Callees (fun s i x s' => s.Grows s' ∧ Transfers m c s i x s') c (c.activityPath i)
        (s.enter (c.qualified i)) a.nodes.zipIdx y s₁) :
      ∃ t₁, Callees (answers (compileWithin m c depth)) c (c.activityPath i)
        (t.enter (c.qualified i)) a.nodes.zipIdx y t₁ ∧ s₁.Agrees c t₁ := by
    have hstep : ∀ s₁ target z s₂ t₁, CallsAmong (a.nodes.zipIdx.map Prod.fst) target →
        (s₁.Grows s₂ ∧ Transfers m c s₁ target z s₂) →
        (s₁.Agrees c t₁ ∧ t₁.stack = c.qualified i :: t.stack) →
        ∃ t₂, answers (compileWithin m c depth) t₁ target z t₂ ∧
          (s₂.Agrees c t₂ ∧ t₂.stack = c.qualified i :: t.stack) := by
      rintro s₁ target z s₂ t₁ htarget ⟨hgrows, htransfers⟩ ⟨hst₁, hstack⟩
      rw [List.zipIdx_map_fst] at htarget
      obtain ⟨t₂, hrun, hst₂⟩ := htransfers (lt_of_callsAmong hm hc hp.activity htarget) t₁ depth hst₁
        (hroom.enter (hst.pending hp) hstack)
      refine ⟨t₂, hrun, hst₂, ?_⟩
      rw [← hst₂.stack, hgrows.stack, hst₁.stack, hstack]
    obtain ⟨t₁, hcalls, hst₁, -⟩ := hcalls.follow hstep ⟨hst.enter _, rfl⟩
    exact ⟨t₁, hcalls, hst₁⟩
  cases h with
  | cached h => exact ⟨t, .cached (hst.results i hi ▸ h), hst⟩
  | unknown _ ha =>
    rw [List.getElem?_eq_getElem hi] at ha
    cases ha
  | recursive h ha hs =>
    rw [hst.stack] at hs ⊢
    exact ⟨t, .recursive (hst.results i hi ▸ h) ha hs, hst⟩
  | unsupported hp he =>
    exact ⟨_, .unsupported (hst.pending hp) he, (hst.enter _).leave _ _⟩
  | blocked hp hl hcalls =>
    obtain ⟨t₁, hcalls, hst₁⟩ := hcallees hp hcalls
    exact ⟨_, .blocked (hst.pending hp) hl hcalls, hst₁.leave _ _⟩
  | lowered hp hl hcalls hx =>
    obtain ⟨t₁, hcalls, hst₁⟩ := hcallees hp hcalls
    exact ⟨_, .lowered (hst.pending hp) hl hcalls hx, (hst₁.note _).leave _ _⟩

/-- A request leaves the results under all names that are not of its component. -/
def Spares (c : Component) : Judgment := fun s _ _ s' =>
  ∀ name, (∀ j < c.activities.length, c.qualified j ≠ name) →
    s'.results.lookup name = s.results.lookup name

theorem spares_of_rule (h : Rule (fun s i x s' => s.Grows s' ∧ Spares c s i x s') m c s i x s') :
    Spares c s i x s' := by
  intro name hname
  have hcallees {path : String} {nodes : List (Node × Nat)}
      {y : Except CompileError (List (Nat × Routine))} {s₁ : Compilation}
      (hcalls : Callees (fun s i x s' => s.Grows s' ∧ Spares c s i x s') c path
        (s.enter (c.qualified i)) nodes y s₁) :
      s₁.results.lookup name = s.results.lookup name := by
    refine (hcalls.mono (Q := fun _ _ _ _ => True)
      (I := fun s₁ => s₁.results.lookup name = s.results.lookup name) rfl ?_).2
    rintro s₁ target z s₂ - hs₁ ⟨-, hspares⟩
    exact ⟨trivial, (hspares name hname).trans hs₁⟩
  have hleave {a : Activity} (hp : Pending c s i a) {s₁ : Compilation}
      (hs₁ : s₁.results.lookup name = s.results.lookup name) (x : Except CompileError Routine) :
      (s₁.leave (c.qualified i) x).results.lookup name = s.results.lookup name := by
    have hne := hname i (List.getElem?_eq_some_iff.1 hp.activity).1
    have hkey : (name == c.qualified i) = false := beq_eq_false_iff_ne.2 hne.symm
    simp [List.lookup_append, List.lookup_cons, hkey, hs₁]
  cases h with
  | cached | unknown | recursive => rfl
  | unsupported hp => exact hleave hp rfl _
  | blocked hp _ hcalls => exact hleave hp (hcallees hcalls) _
  | lowered hp _ hcalls => exact hleave hp (hcallees hcalls) _

end

/-! ### Requests -/

namespace Compilation.Agrees

variable {m : Model} {c c' : Component} {s t : Compilation} {i : Nat}

/-- States that agree on a component answer its requests alike, and agree afterwards. -/
theorem compile (h : s.Agrees c t) (hm : m.Resolved) (hc : c ∈ m.components)
    (hi : i < c.activities.length) (hs : s.stack = []) :
    ((FlightGen.compile m c i).run.run s).1 = ((FlightGen.compile m c i).run.run t).1 ∧
      ((FlightGen.compile m c i).run.run s).2.Agrees c ((FlightGen.compile m c i).run.run t).2 := by
  have htransfers := compile_induction (fun _ _ _ _ => transfers_of_rule hm hc) hs i
  obtain ⟨t', hrun, hst'⟩ := htransfers hi t _ h (.start (h.stack.symm.trans hs) (Nat.lt_succ_self _))
  have hanswer : (FlightGen.compile m c i).run.run t =
      (((FlightGen.compile m c i).run.run s).1, t') := hrun
  rw [hanswer]
  exact ⟨rfl, hst'⟩

/-- A request for another component leaves a component as it is. -/
theorem compile_other (hm : m.Resolved) (hc : c ∈ m.components) (hc' : c' ∈ m.components)
    (hne : c ≠ c') (hs : s.stack = []) (i : Nat) :
    s.Agrees c ((FlightGen.compile m c' i).run.run s).2 := by
  have hspares := compile_induction (fun _ _ _ _ => spares_of_rule) hs i (m := m) (c := c')
  refine ⟨(grows_compile hs i).stack.symm, fun j hj => (hspares _ fun k hk hname => ?_).symm⟩
  exact hne (hm.qualified_injective hc' hc hk hj hname).1.symm

end Compilation.Agrees

end FlightGen
