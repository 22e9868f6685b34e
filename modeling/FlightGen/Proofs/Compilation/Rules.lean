import Mathlib.Data.List.Nodup
import Mathlib.Data.List.Perm.Subperm
import FlightGen.Compilation
import FlightGen.Proofs.Fallible

/-! The rules by which activities are compiled. A request is answered from the results, fails
at an activity in progress, or is carried out by way of the called activities. Nothing
below these rules has to be known of the computations, nor of the bound on their depth:
calls nest at most as deep as there are activities. -/

namespace FlightGen

/-! ### Computations -/

namespace Compiling

variable {α β : Type}

theorem run_bind (x : Compiling α) (f : α → Compiling β) (s : Compilation) :
    (x >>= f).run.run s =
      match x.run.run s with
      | (.ok a, s') => (f a).run.run s'
      | (.error e, s') => (.error e, s') := by
  unfold ExceptT.run StateT.run
  simp only [bind, ExceptT.bind, ExceptT.mk, StateT.bind]
  cases x s with
  | mk result s' => cases result <;> rfl

theorem run_lift (x : Except CompileError α) (s : Compilation) :
    (liftM x : Compiling α).run.run s = (x, s) := by
  cases x <;> rfl

end Compiling

/-! ### States -/

namespace Compilation

variable {s s' s'' : Compilation} {name : String} {x : Except CompileError Routine}

@[simp] theorem results_leave : (s.leave name x).results = s.results ++ [(name, x)] := rfl

@[simp] theorem stack_leave : (s.leave name x).stack = s.stack.tail := rfl

@[simp] theorem results_note : (s.note name).results = s.results := rfl

/-- The same activities are in progress, and what was done before is still there. -/
structure Grows (s s' : Compilation) : Prop where
  stack : s'.stack = s.stack
  results : s.results <+: s'.results
  lowered : s.lowered <+: s'.lowered

theorem Grows.refl (s : Compilation) : s.Grows s :=
  ⟨rfl, List.prefix_rfl, List.prefix_rfl⟩

theorem Grows.trans (h : s.Grows s') (h' : s'.Grows s'') : s.Grows s'' :=
  ⟨h'.stack.trans h.stack, h.results.trans h'.results, h.lowered.trans h'.lowered⟩

theorem Grows.leave (h : (s.enter name).Grows s') : s.Grows (s'.leave name x) := by
  refine ⟨?_, h.results.trans (List.prefix_append _ _), h.lowered⟩
  rw [stack_leave, h.stack]
  rfl

theorem Grows.note (h : s.Grows s') : s.Grows (s'.note name) :=
  ⟨h.stack, h.results, h.lowered.trans (List.prefix_append _ _)⟩

end Compilation

/-! ### Rules -/

/-- Which outcome and which state a request for an activity leads to. -/
abbrev Judgment := Compilation → Nat → Except CompileError Routine → Compilation → Prop

/-- Some node calls `target`. -/
def CallsAmong (nodes : List Node) (target : Nat) : Prop :=
  ∃ n ∈ nodes, ∃ arguments, n.action = .call target arguments

theorem getElem?_of_action {a : Activity} {n target : Nat} {arguments : List Argument}
    (h : a.action n = .call target arguments) :
    ∃ node, a.nodes[n]? = some node ∧ node.action = .call target arguments := by
  cases hnode : a.nodes[n]? with
  | none => simp [Activity.action, hnode] at h
  | some node => exact ⟨node, rfl, by simpa [Activity.action, hnode] using h⟩

theorem callsAmong_iff {a : Activity} {target : Nat} :
    CallsAmong a.nodes target ↔ ∃ n arguments, a.action n = .call target arguments := by
  constructor
  · rintro ⟨node, hnode, arguments, haction⟩
    obtain ⟨n, hn⟩ := List.mem_iff_getElem?.1 hnode
    exact ⟨n, arguments, by simp [Activity.action, hn, haction]⟩
  · rintro ⟨n, arguments, haction⟩
    obtain ⟨node, hnode, haction⟩ := getElem?_of_action haction
    exact ⟨node, List.mem_of_getElem? hnode, arguments, haction⟩

/-- Requests for the activities that nodes call, where `R` answers each of them. -/
inductive Callees (R : Judgment) (c : Component) (path : String) : Compilation →
    List (Node × Nat) → Except CompileError (List (Nat × Routine)) → Compilation → Prop
  | nil {s : Compilation} : Callees R c path s [] (.ok []) s
  | other {s s' : Compilation} {n : Node} {index : Nat} {nodes : List (Node × Nat)}
      {x : Except CompileError (List (Nat × Routine))}
      (hn : ∀ target arguments, n.action ≠ .call target arguments)
      (h : Callees R c path s nodes x s') : Callees R c path s ((n, index) :: nodes) x s'
  | failed {s s' : Compilation} {n : Node} {index target : Nat} {arguments : List Argument}
      {nodes : List (Node × Nat)} {e : CompileError} (hn : n.action = .call target arguments)
      (h : R s target (.error e) s') :
      Callees R c path s ((n, index) :: nodes)
        (.error (.dependencyFailed path (c.activityPath target) e)) s'
  | call {s s₁ s' : Compilation} {n : Node} {index target : Nat} {arguments : List Argument}
      {nodes : List (Node × Nat)} {r : Routine} {x : Except CompileError (List (Nat × Routine))}
      (hn : n.action = .call target arguments) (h : R s target (.ok r) s₁)
      (hrest : Callees R c path s₁ nodes x s') :
      Callees R c path s ((n, index) :: nodes) (x.map ((index, r) :: ·)) s'

/-- Activity `a` is neither compiled nor in progress. -/
structure Pending (c : Component) (s : Compilation) (index : Nat) (a : Activity) : Prop where
  activity : c.activities[index]? = some a
  result : s.results.lookup (c.qualified index) = none
  stack : c.qualified index ∉ s.stack

/-- How a request is answered, where `R` answers those for the called activities. -/
inductive Rule (R : Judgment) (m : Model) (c : Component) : Judgment
  | cached {s : Compilation} {index : Nat} {x : Except CompileError Routine}
      (h : s.results.lookup (c.qualified index) = some x) : Rule R m c s index x s
  | unknown {s : Compilation} {index : Nat} (h : s.results.lookup (c.qualified index) = none)
      (ha : c.activities[index]? = none) :
      Rule R m c s index (.error (.model (.unresolved c.name.raw .activity (c.qualified index)))) s
  | recursive {s : Compilation} {index : Nat} {a : Activity}
      (h : s.results.lookup (c.qualified index) = none) (ha : c.activities[index]? = some a)
      (hs : c.qualified index ∈ s.stack) :
      Rule R m c s index (.error (recursion s.stack (c.qualified index))) s
  | unsupported {s : Compilation} {index : Nat} {a : Activity} {e : CompileError}
      (h : Pending c s index a) (he : checkLanguages (c.activityPath index) a.nodes = .error e) :
      Rule R m c s index (.error e)
        ((s.enter (c.qualified index)).leave (c.qualified index) (.error e))
  | blocked {s s' : Compilation} {index : Nat} {a : Activity} {e : CompileError}
      (h : Pending c s index a) (hl : checkLanguages (c.activityPath index) a.nodes = .ok ())
      (hcalls : Callees R c (c.activityPath index) (s.enter (c.qualified index)) a.nodes.zipIdx
        (.error e) s') :
      Rule R m c s index (.error e) (s'.leave (c.qualified index) (.error e))
  | lowered {s s' : Compilation} {index : Nat} {a : Activity} {callees : List (Nat × Routine)}
      {x : Except CompileError Routine} (h : Pending c s index a)
      (hl : checkLanguages (c.activityPath index) a.nodes = .ok ())
      (hcalls : Callees R c (c.activityPath index) (s.enter (c.qualified index)) a.nodes.zipIdx
        (.ok callees) s')
      (hx : lowerFlow ⟨m.recordTypes, c, a, c.activityPath index, callees⟩ = x) :
      Rule R m c s index x ((s'.note (c.qualified index)).leave (c.qualified index) x)

/-! ### Computations follow the rules -/

section

variable {m : Model} {c : Component} {path : String} {compile : Nat → Compiling Routine}
  {s s' : Compilation} {index : Nat} {x : Except CompileError Routine}

/-- The answers of a computation for each activity. -/
def answers (compile : Nat → Compiling Routine) : Judgment :=
  fun s index x s' => (compile index).run.run s = (x, s')

theorem run_compileCallees_call {n : Node} {target : Nat} {arguments : List Argument}
    (hn : n.action = .call target arguments) (nodes : List (Node × Nat)) :
    (compileCallees compile c path ((n, index) :: nodes)).run.run s =
      match (compile target).run.run s with
      | (.ok r, s₁) =>
        let (x, s₂) := (compileCallees compile c path nodes).run.run s₁
        (x.map ((index, r) :: ·), s₂)
      | (.error e, s₁) => (.error (.dependencyFailed path (c.activityPath target) e), s₁) := by
  have hadapt : ∀ g : CompileError → CompileError, ((compile target).adapt g).run.run s =
      (((compile target).run.run s).1.mapError g, ((compile target).run.run s).2) := fun _ => rfl
  simp only [compileCallees, hn, Compiling.run_bind, hadapt]
  rcases (compile target).run.run s with ⟨e | r, s₁⟩
  · rfl
  · dsimp only [Except.mapError]
    rcases (compileCallees compile c path nodes).run.run s₁ with ⟨e | callees, s₂⟩ <;> rfl

theorem compileCallees_other {n : Node}
    (hn : ∀ target arguments, n.action ≠ .call target arguments) (nodes : List (Node × Nat)) :
    compileCallees compile c path ((n, index) :: nodes) = compileCallees compile c path nodes := by
  cases haction : n.action with
  | call target arguments => exact absurd haction (hn target arguments)
  | _ => simp only [compileCallees, haction]

theorem run_compileCallees {nodes : List (Node × Nat)}
    {x : Except CompileError (List (Nat × Routine))} :
    (compileCallees compile c path nodes).run.run s = (x, s') ↔
      Callees (answers compile) c path s nodes x s' := by
  induction nodes generalizing s x with
  | nil =>
    constructor
    · rintro ⟨⟩
      exact .nil
    · rintro ⟨⟩
      rfl
  | cons node nodes ih =>
    obtain ⟨n, index⟩ := node
    by_cases hn : ∃ target arguments, n.action = .call target arguments
    · obtain ⟨target, arguments, hn⟩ := hn
      rw [run_compileCallees_call hn]
      constructor
      · intro h
        generalize hrun : (compile target).run.run s = out at h
        obtain ⟨e | r, s₁⟩ := out
        · cases h
          exact .failed hn hrun
        · cases h
          exact .call hn hrun (ih.1 rfl)
      · intro h
        cases h with
        | other hother => exact absurd hn (hother target arguments)
        | failed hn' h =>
          cases hn.symm.trans hn'
          rw [show (compile target).run.run s = _ from h]
        | call hn' h hrest =>
          cases hn.symm.trans hn'
          rw [show (compile target).run.run s = _ from h]
          dsimp only
          rw [ih.2 hrest]
    · simp only [not_exists] at hn
      rw [compileCallees_other hn, ih]
      refine ⟨.other hn, fun h => ?_⟩
      cases h with
      | other _ h => exact h
      | failed hn' | call hn' => exact absurd hn' (hn _ _)

theorem run_compileNew (a : Activity) :
    (compileNew compile m c index a).run.run s =
      match checkLanguages (c.activityPath index) a.nodes with
      | .error e => (.error e, s)
      | .ok () =>
        match (compileCallees compile c (c.activityPath index) a.nodes.zipIdx).run.run s with
        | (.error e, s') => (.error e, s')
        | (.ok callees, s') =>
          (lowerFlow ⟨m.recordTypes, c, a, c.activityPath index, callees⟩,
            s'.note (c.qualified index)) := by
  simp only [compileNew, Compiling.run_bind, Compiling.run_lift]
  rcases checkLanguages (c.activityPath index) a.nodes with e | _
  · rfl
  · dsimp only
    rcases (compileCallees compile c (c.activityPath index) a.nodes.zipIdx).run.run s with
      ⟨e | callees, s'⟩ <;> rfl

theorem run_compileWithin_succ (depth : Nat) :
    (compileWithin m c (depth + 1) index).run.run s =
      match s.results.lookup (c.qualified index), c.activities[index]? with
      | some x, _ => (x, s)
      | none, none => (.error (.model (.unresolved c.name.raw .activity (c.qualified index))), s)
      | none, some a =>
        if c.qualified index ∈ s.stack then (.error (recursion s.stack (c.qualified index)), s)
        else
          let (x, s') := (compileNew (compileWithin m c depth) m c index a).run.run
            (s.enter (c.qualified index))
          (x, s'.leave (c.qualified index) x) := by
  have hget : (get : Compiling Compilation).run.run s = (.ok s, s) := rfl
  rw [compileWithin, Compiling.run_bind, hget]
  dsimp only
  cases s.results.lookup (c.qualified index) with
  | some x => exact Compiling.run_lift x s
  | none =>
    cases c.activities[index]? with
    | none => rfl
    | some a =>
      dsimp only
      split <;> rfl

/-- Every level of the computation follows the rules, where the level below answers. -/
theorem run_compileWithin {depth : Nat} :
    (compileWithin m c (depth + 1) index).run.run s = (x, s') ↔
      Rule (answers (compileWithin m c depth)) m c s index x s' := by
  rw [run_compileWithin_succ]
  constructor
  · intro h
    split at h
    · cases h
      exact .cached ‹_›
    · cases h
      exact .unknown ‹_› ‹_›
    · rename_i a hlookup ha
      split at h
      · cases h
        exact .recursive hlookup ha ‹_›
      · have hpending : Pending c s index a := ⟨ha, hlookup, ‹_›⟩
        rw [run_compileNew] at h
        cases hl : checkLanguages (c.activityPath index) a.nodes with
        | error e =>
          rw [hl] at h
          cases h
          exact .unsupported hpending hl
        | ok _ =>
          rw [hl] at h
          generalize hcalls : (compileCallees (compileWithin m c depth) c (c.activityPath index)
            a.nodes.zipIdx).run.run (s.enter (c.qualified index)) = out at h
          obtain ⟨e | callees, s₁⟩ := out
          · cases h
            exact .blocked hpending hl (run_compileCallees.1 hcalls)
          · cases h
            exact .lowered hpending hl (run_compileCallees.1 hcalls) rfl
  · intro h
    cases h with
    | cached h => rw [h]
    | unknown h ha => rw [h, ha]
    | recursive h ha hs =>
      rw [h, ha]
      exact if_pos hs
    | unsupported h he =>
      rw [h.result, h.activity]
      dsimp only
      rw [if_neg h.stack, run_compileNew, he]
    | blocked h hl hcalls =>
      rw [h.result, h.activity]
      dsimp only
      rw [if_neg h.stack, run_compileNew, hl]
      dsimp only
      rw [run_compileCallees.2 hcalls]
    | lowered h hl hcalls hx =>
      rw [h.result, h.activity]
      dsimp only
      rw [if_neg h.stack, run_compileNew, hl]
      dsimp only
      rw [run_compileCallees.2 hcalls]
      dsimp only
      rw [hx]

end

/-! ### Called activities -/

namespace Callees

variable {R Q : Judgment} {c : Component} {path : String} {s s' : Compilation}
  {nodes : List (Node × Nat)} {x : Except CompileError (List (Nat × Routine))}

/-- What holds before the requests and is kept by each of them holds afterwards, and may be
used to tell more about the answers. -/
theorem mono {I : Compilation → Prop} (h : Callees R c path s nodes x s') (hs : I s)
    (hR : ∀ s target x s', CallsAmong (nodes.map Prod.fst) target → I s → R s target x s' →
      Q s target x s' ∧ I s') :
    Callees Q c path s nodes x s' ∧ I s' := by
  induction h with
  | nil => exact ⟨.nil, hs⟩
  | other hn _ ih =>
    obtain ⟨h, hI⟩ := ih hs fun s target x s' ⟨n, hn, hcall⟩ =>
      hR s target x s' ⟨n, List.mem_cons_of_mem _ hn, hcall⟩
    exact ⟨.other hn h, hI⟩
  | failed hn h =>
    obtain ⟨hQ, hI⟩ := hR _ _ _ _ ⟨_, List.mem_cons_self, _, hn⟩ hs h
    exact ⟨.failed hn hQ, hI⟩
  | call hn h _ ih =>
    obtain ⟨hQ, hI⟩ := hR _ _ _ _ ⟨_, List.mem_cons_self, _, hn⟩ hs h
    obtain ⟨h, hI⟩ := ih hI fun s target x s' ⟨n, hn, hcall⟩ =>
      hR s target x s' ⟨n, List.mem_cons_of_mem _ hn, hcall⟩
    exact ⟨.call hn hQ h, hI⟩

theorem grows (h : Callees R c path s nodes x s')
    (hR : ∀ s target x s', R s target x s' → s.Grows s') : s.Grows s' := by
  refine (h.mono (Q := R) (I := s.Grows) (.refl s) fun _ _ _ _ _ hs h => ?_).2
  exact ⟨h, hs.trans (hR _ _ _ _ h)⟩

/-- Requests fail where one of them does. -/
theorem exists_failed {e : CompileError} (h : Callees R c path s nodes (.error e) s') :
    ∃ target e' s₁ s₂, CallsAmong (nodes.map Prod.fst) target ∧
      e = .dependencyFailed path (c.activityPath target) e' ∧ R s₁ target (.error e') s₂ := by
  generalize hx : Except.error e = x at h
  induction h with
  | nil => cases hx
  | other hn _ ih =>
    obtain ⟨target, e', s₁, s₂, ⟨n, hn, hcall⟩, h⟩ := ih hx
    exact ⟨target, e', s₁, s₂, ⟨n, List.mem_cons_of_mem _ hn, hcall⟩, h⟩
  | failed hn h =>
    cases hx
    exact ⟨_, _, _, _, ⟨_, List.mem_cons_self, _, hn⟩, rfl, h⟩
  | @call _ _ _ _ _ _ _ _ _ y hn h _ ih =>
    cases y with
    | ok => cases hx
    | error =>
      obtain ⟨target, e', s₁, s₂, ⟨n, hn, hcall⟩, h⟩ := ih (by cases hx; rfl)
      exact ⟨target, e', s₁, s₂, ⟨n, List.mem_cons_of_mem _ hn, hcall⟩, h⟩

theorem exists_routine {callees : List (Nat × Routine)}
    (h : Callees R c path s nodes (.ok callees) s') (hnodes : (nodes.map Prod.snd).Nodup)
    (hR : ∀ s target x s', R s target x s' → s.Grows s') {n : Node} {index target : Nat}
    {arguments : List Argument} (hmem : (n, index) ∈ nodes)
    (hcall : n.action = .call target arguments) :
    ∃ r s₁ s₂, callees.lookup index = some r ∧ R s₁ target (.ok r) s₂ ∧ s₂.Grows s' := by
  generalize hx : Except.ok callees = x at h
  induction h generalizing callees with
  | nil => cases hmem
  | other hn _ ih =>
    obtain heq | hmem := List.mem_cons.1 hmem
    · cases heq
      exact absurd hcall (hn _ _)
    · exact ih (List.nodup_cons.1 hnodes).2 hmem hx
  | failed => cases hx
  | @call _ _ _ _ index' _ _ _ r y hn h hrest ih =>
    cases y with
    | error => cases hx
    | ok callees' =>
      cases hx
      obtain ⟨hindex, hnodes⟩ := List.nodup_cons.1 hnodes
      obtain heq | hmem := List.mem_cons.1 hmem
      · cases heq
        cases hn.symm.trans hcall
        exact ⟨r, _, _, by simp, h, hrest.grows hR⟩
      · obtain ⟨r', s₁, s₂, hlookup, hr'⟩ := ih hnodes hmem rfl
        have hne : (index == index') = false := beq_eq_false_iff_ne.2 fun heq =>
          hindex (List.mem_map.2 ⟨_, hmem, heq⟩)
        exact ⟨r', s₁, s₂, by rw [List.lookup_cons, hne]; exact hlookup, hr'⟩

/-- Requests succeed with a routine for every call of an activity. -/
theorem routine_of_action {a : Activity} {callees : List (Nat × Routine)}
    (h : Callees R c path s a.nodes.zipIdx (.ok callees) s')
    (hR : ∀ s target x s', R s target x s' → s.Grows s') {n target : Nat}
    {arguments : List Argument} (hn : a.action n = .call target arguments) :
    ∃ r s₁ s₂, callees.lookup n = some r ∧ R s₁ target (.ok r) s₂ ∧ s₂.Grows s' := by
  have hnodes : (a.nodes.zipIdx.map Prod.snd).Nodup := by
    rw [List.zipIdx_map_snd]
    exact List.nodup_range'
  obtain ⟨node, hnode, haction⟩ := getElem?_of_action hn
  exact h.exists_routine hnodes hR (List.mem_zipIdx_iff_getElem?.2 hnode) haction

end Callees

/-! ### Depth -/

section

variable {R Q : Judgment} {m : Model} {c : Component} {s s' : Compilation} {index depth : Nat}
  {x : Except CompileError Routine}

theorem Rule.grows (h : Rule R m c s index x s')
    (hR : ∀ s index x s', R s index x s' → s.Grows s') : s.Grows s' := by
  cases h with
  | cached | unknown | recursive => exact .refl s
  | unsupported => exact Compilation.Grows.leave (.refl _)
  | blocked _ _ hcalls => exact (hcalls.grows hR).leave
  | lowered _ _ hcalls => exact (hcalls.grows hR).note.leave

/-- Requests for the called activities are made on top of the activity in progress. -/
theorem Rule.mono (h : Rule R m c s index x s')
    (hR : ∀ a, Pending c s index a → ∀ s₁ target y s₂, s₁.stack = c.qualified index :: s.stack →
      R s₁ target y s₂ → Q s₁ target y s₂ ∧ s₂.stack = s₁.stack) :
    Rule Q m c s index x s' := by
  have hcallees {a : Activity} (hp : Pending c s index a) {path : String}
      {nodes : List (Node × Nat)} {y : Except CompileError (List (Nat × Routine))}
      {s₁ : Compilation}
      (hcalls : Callees R c path (s.enter (c.qualified index)) nodes y s₁) :
      Callees Q c path (s.enter (c.qualified index)) nodes y s₁ := by
    refine (hcalls.mono (I := fun s₁ => s₁.stack = c.qualified index :: s.stack) rfl ?_).1
    intro s₁ target y s₂ _ hs₁ hr
    obtain ⟨hq, hs₂⟩ := hR a hp s₁ target y s₂ hs₁ hr
    exact ⟨hq, hs₂.trans hs₁⟩
  cases h with
  | cached h => exact .cached h
  | unknown h ha => exact .unknown h ha
  | recursive h ha hs => exact .recursive h ha hs
  | unsupported h he => exact .unsupported h he
  | blocked h hl hcalls => exact .blocked h hl (hcallees h hcalls)
  | lowered h hl hcalls hx => exact .lowered h hl (hcallees h hcalls) hx

/-- The activities in progress are different activities of the component, and `depth` is
enough for those that are left. -/
structure HasRoom (c : Component) (depth : Nat) (s : Compilation) : Prop where
  nodup : s.stack.Nodup
  activities : s.stack ⊆ (List.range c.activities.length).map c.qualified
  depth : c.activities.length < depth + s.stack.length

theorem HasRoom.start (h : s.stack = []) (hdepth : c.activities.length < depth) : HasRoom c depth s := by
  constructor <;> simp [h, hdepth]

theorem HasRoom.pos (h : HasRoom c depth s) : 0 < depth := by
  have hlength := (h.nodup.subperm h.activities).length_le
  rw [List.length_map, List.length_range] at hlength
  have hdepth := h.depth
  omega

theorem HasRoom.enter (h : HasRoom c (depth + 1) s) {a : Activity} (hp : Pending c s index a)
    (hs : s'.stack = c.qualified index :: s.stack) : HasRoom c depth s' := by
  have hindex := (List.getElem?_eq_some_iff.1 hp.activity).1
  constructor <;> rw [hs]
  · exact List.nodup_cons.2 ⟨hp.stack, h.nodup⟩
  · refine List.cons_subset.2 ⟨?_, h.activities⟩
    exact List.mem_map.2 ⟨index, List.mem_range.2 hindex, rfl⟩
  · have hdepth := h.depth
    rw [List.length_cons]
    omega

/-- What holds of every answer that the rules give holds of every answer. The bound on the
depth never shows: there are no more different activities than it allows for. -/
theorem compileWithin_induction
    (hQ : ∀ s index x s', Rule (fun s index x s' => s.Grows s' ∧ Q s index x s') m c s index x s' →
      Q s index x s')
    (hs : HasRoom c depth s) (h : (compileWithin m c depth index).run.run s = (x, s')) :
    s.Grows s' ∧ Q s index x s' := by
  induction depth generalizing index s x s' with
  | zero => exact absurd hs.pos (Nat.lt_irrefl 0)
  | succ depth ih =>
    have hrule : Rule (fun s index x s' => s.Grows s' ∧ Q s index x s') m c s index x s' := by
      refine (run_compileWithin.1 h).mono fun a hp s₁ target y s₂ hs₁ hr => ?_
      have hanswer := ih (hs.enter hp hs₁) hr
      exact ⟨hanswer, hanswer.1.stack⟩
    exact ⟨hrule.grows fun _ _ _ _ h => h.1, hQ _ _ _ _ hrule⟩

/-- All depths that are enough give the same answers. -/
theorem compileWithin_eq {depth' : Nat} (hs : HasRoom c depth s) (hs' : HasRoom c depth' s) :
    (compileWithin m c depth' index).run.run s = (compileWithin m c depth index).run.run s := by
  refine (compileWithin_induction (Q := fun s index x s' => ∀ depth', HasRoom c depth' s →
    (compileWithin m c depth' index).run.run s = (x, s')) ?_ hs rfl).2 depth' hs'
  intro s index x s' hrule depth' hs'
  obtain ⟨depth', rfl⟩ := Nat.exists_eq_add_one_of_ne_zero (Nat.ne_of_gt hs'.pos)
  refine run_compileWithin.2 (hrule.mono fun a hp s₁ target y s₂ hs₁ hr => ?_)
  exact ⟨hr.2 depth' (hs'.enter hp hs₁), hr.1.stack⟩

theorem compile_induction
    (hQ : ∀ s index x s', Rule (fun s index x s' => s.Grows s' ∧ Q s index x s') m c s index x s' →
      Q s index x s') (hs : s.stack = []) (index : Nat) :
    Q s index ((compile m c index).run.run s).1 ((compile m c index).run.run s).2 :=
  (compileWithin_induction hQ (.start hs (Nat.lt_succ_self _)) rfl).2

theorem grows_compile (hs : s.stack = []) (index : Nat) :
    s.Grows ((compile m c index).run.run s).2 :=
  (compileWithin_induction (Q := fun _ _ _ _ => True) (fun _ _ _ _ _ => trivial)
    (.start hs (Nat.lt_succ_self _)) rfl).1

theorem run_compile_cached (h : s.results.lookup (c.qualified index) = some x) :
    (compile m c index).run.run s = (x, s) :=
  run_compileWithin.2 (.cached h)

/-- A request for no activity changes nothing. -/
theorem run_compile_unknown (h : c.activities.length ≤ index) :
    ((compile m c index).run.run s).2 = s := by
  cases hlookup : s.results.lookup (c.qualified index) with
  | some x => rw [run_compile_cached hlookup]
  | none =>
    have hrun := run_compileWithin.2 (Rule.unknown (R := answers
      (compileWithin m c c.activities.length)) (m := m) hlookup (List.getElem?_eq_none h))
    exact congrArg Prod.snd hrun

end

end FlightGen
