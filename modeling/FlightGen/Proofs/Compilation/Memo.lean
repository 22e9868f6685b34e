import Mathlib.Data.Set.Card
import FlightGen.Proofs.Compilation.Outcome

/-! What a compilation remembers. Results stay as they are once they are there, every
activity is lowered at most once, namely if nothing before that failed, and the routines of
the library call only each other, without cycles. -/

namespace FlightGen

open Relation (ReflTransGen TransGen)

/-! ### Results -/

section

variable {m : Model} {results results' : Results} {name : String} {x : Except CompileError Routine}

theorem Results.Sound.lookup_eq_some (h : Results.Sound m results) :
    results.lookup name = some x ↔ (name, x) ∈ results := by
  refine ⟨mem_of_lookup, fun hx => ?_⟩
  cases hlookup : results.lookup name with
  | none => exact absurd (List.lookup_eq_none_iff.1 hlookup _ hx) (by simp)
  | some y => rw [h.unique hx (mem_of_lookup hlookup)]

theorem lookup_of_isPrefix (h : results <+: results') (hx : results.lookup name = some x) :
    results'.lookup name = some x := by
  obtain ⟨rest, rfl⟩ := h
  rw [List.lookup_append, hx, Option.some_or]

end

/-! ### Lowered activities -/

/-- An activity that has a result, declares no language, and calls only what compiled. -/
def Compilation.Complete (m : Model) (s : Compilation) (name : String) : Prop :=
  ∃ c ∈ m.components, ∃ i a, c.activities[i]? = some a ∧ c.qualified i = name ∧
    (∃ x, s.results.lookup name = some x) ∧ a.Supported ∧
    ∀ j, CallsAmong a.nodes j → ∃ r, s.results.lookup (c.qualified j) = some (.ok r)

/-- The log of what was lowered is right: it has each activity once, after all that it
calls, and it has every activity whose callees compile. -/
structure Compilation.Tracked (m : Model) (s : Compilation) : Prop where
  once : s.lowered.Nodup
  complete : ∀ name ∈ s.lowered, s.Complete m name
  lowered : ∀ c ∈ m.components, ∀ i a, c.activities[i]? = some a → a.Supported →
    (∀ j, CallsAmong a.nodes j → m.Compilable c j) →
    ∀ x, s.results.lookup (c.qualified i) = some x → c.qualified i ∈ s.lowered

section

variable {m : Model} {c : Component} {s s' : Compilation} {i : Nat} {a : Activity}
  {x : Except CompileError Routine} {name : String}

theorem Compilation.Complete.mono (h : s.Complete m name) (hs' : s.results <+: s'.results) :
    s'.Complete m name := by
  obtain ⟨c, hc, i, a, ha, rfl, ⟨x, hx⟩, hsupported, hcalls⟩ := h
  refine ⟨c, hc, i, a, ha, rfl, ⟨x, lookup_of_isPrefix hs' hx⟩, hsupported, fun j hj => ?_⟩
  obtain ⟨r, hr⟩ := hcalls j hj
  exact ⟨r, lookup_of_isPrefix hs' hr⟩

/-- A new result keeps the log right, if it goes with an entry where there has to be one. -/
theorem Compilation.Tracked.leave (h : s.Tracked m) (hm : m.Resolved) (hc : c ∈ m.components)
    (ha : c.activities[i]? = some a) (hresults : s'.results = s.results ++ [(c.qualified i, x)])
    (honce : s'.lowered.Nodup) (hlowered : s.lowered ⊆ s'.lowered)
    (hcomplete : ∀ name ∈ s'.lowered, name ∈ s.lowered ∨ s'.Complete m name)
    (hnew : a.Supported → (∀ j, CallsAmong a.nodes j → m.Compilable c j) →
      c.qualified i ∈ s'.lowered) : s'.Tracked m := by
  refine ⟨honce, fun name hname => ?_, fun c' hc' i' a' ha' hsupported hcalls y hy => ?_⟩
  · refine (hcomplete name hname).elim (fun hname => ?_) id
    exact (h.complete name hname).mono (hresults ▸ List.prefix_append _ _)
  · cases hold : s.results.lookup (c'.qualified i') with
    | some z => exact hlowered (h.lowered c' hc' i' a' ha' hsupported hcalls z hold)
    | none =>
      rw [hresults, List.lookup_append, hold, Option.none_or] at hy
      obtain ⟨hname, -⟩ := Prod.mk.inj (List.mem_singleton.1 (mem_of_lookup hy))
      obtain ⟨rfl, rfl⟩ := hm.qualified_injective hc' hc (List.getElem?_eq_some_iff.1 ha').1
        (List.getElem?_eq_some_iff.1 ha).1 hname
      cases ha.symm.trans ha'
      exact hnew hsupported hcalls

/-- A request keeps the log right. -/
def Tracks (m : Model) (c : Component) : Judgment := fun s i _ s' =>
  s.Open m → Results.Correct m s.results → Waiting c s i → i < c.activities.length →
    s.Tracked m → s'.Tracked m

/-- Everything that holds of the answer to a request. -/
def Remembers (m : Model) (c : Component) : Judgment := fun s i x s' =>
  Keeps m c s i x s' ∧ Settles m c s i x s' ∧ Tracks m c s i x s'

/-- The requests for the called activities keep the log right, and those that succeed leave
their routines. -/
theorem track_callees (hm : m.Resolved) (hc : c ∈ m.components) (hp : Pending c s i a)
    (hopen : s.Open m) (hcorrect : Results.Correct m s.results) (hw : Waiting c s i)
    (htracked : s.Tracked m) {path : String} {y : Except CompileError (List (Nat × Routine))}
    (h : Callees (fun s i x s' => s.Grows s' ∧ Remembers m c s i x s') c path
      (s.enter (c.qualified i)) a.nodes.zipIdx y s') :
    Callees (fun s j x s' => s.Grows s' ∧ CallsAmong a.nodes j ∧ m.Outcome c j x ∧
        ∀ r, x = .ok r → (c.qualified j, .ok r) ∈ s'.results) c path
      (s.enter (c.qualified i)) a.nodes.zipIdx y s' ∧ s'.Open m ∧ s'.Tracked m := by
  have hmono := h.mono
    (I := fun s₁ => (s₁.Open m ∧ Results.Correct m s₁.results ∧ s₁.Tracked m) ∧
      s₁.stack = c.qualified i :: s.stack)
    (Q := fun s j x s' => s.Grows s' ∧ CallsAmong a.nodes j ∧ m.Outcome c j x ∧
      ∀ r, x = .ok r → (c.qualified j, .ok r) ∈ s'.results)
    ⟨⟨hopen.enter hp.result, hcorrect, htracked.once, htracked.complete, htracked.lowered⟩, rfl⟩ ?_
  · exact ⟨hmono.1, hmono.2.1.1, hmono.2.1.2.2⟩
  · rintro s₁ j z s₂ hj ⟨⟨hopen₁, hcorrect₁, htracked₁⟩, hstack⟩ ⟨hgrows, hkeeps, hsettles, htracks⟩
    rw [List.zipIdx_map_fst] at hj
    have hw₁ := hw.enter hp.activity hj hstack
    have hlt := lt_of_callsAmong hm hc hp.activity hj
    obtain ⟨hopen₂, hstored⟩ := hkeeps hopen₁
    obtain ⟨hcorrect₂, houtcome⟩ := hsettles hcorrect₁ hw₁ hlt
    have htracked₂ := htracks hopen₁ hcorrect₁ hw₁ hlt htracked₁
    exact ⟨⟨hgrows, hj, houtcome, hstored⟩, ⟨hopen₂, hcorrect₂, htracked₂⟩,
      hgrows.stack.trans hstack⟩

/-- An activity is lowered after those that it calls. -/
theorem complete_of_callees (hc : c ∈ m.components) (ha : c.activities[i]? = some a)
    (hsupported : a.Supported) (hopen : s'.Open m) (hnone : ∀ x, (c.qualified i, x) ∉ s'.results)
    {callees : List (Nat × Routine)}
    (h : Callees (fun s j x s' => s.Grows s' ∧ CallsAmong a.nodes j ∧ m.Outcome c j x ∧
        ∀ r, x = .ok r → (c.qualified j, .ok r) ∈ s'.results) c (c.activityPath i) s
      a.nodes.zipIdx (.ok callees) s') (x : Except CompileError Routine) :
    ((s'.note (c.qualified i)).leave (c.qualified i) x).Complete m (c.qualified i) := by
  refine ⟨c, hc, i, a, ha, rfl, ⟨x, ?_⟩, hsupported, fun j hj => ?_⟩
  · cases hlookup : s'.results.lookup (c.qualified i) with
    | some y => exact absurd (mem_of_lookup hlookup) (hnone y)
    | none => simp [List.lookup_append, hlookup]
  · obtain ⟨n, arguments, hn⟩ := callsAmong_iff.1 hj
    obtain ⟨r, _, _, -, ⟨-, -, -, hstored⟩, hgrows⟩ :=
      h.routine_of_action (fun _ _ _ _ h => h.1) hn
    have hlookup := hopen.sound.lookup_eq_some.2 (hgrows.results.subset (hstored r rfl))
    exact ⟨r, lookup_of_isPrefix (List.prefix_append _ _) hlookup⟩

theorem tracks_of_rule (hm : m.Resolved) (hc : c ∈ m.components)
    (h : Rule (fun s i x s' => s.Grows s' ∧ Remembers m c s i x s') m c s i x s') :
    Tracks m c s i x s' := by
  intro hopen hcorrect hw hi htracked
  cases h with
  | cached | unknown | recursive => exact htracked
  | unsupported hp he =>
    refine htracked.leave hm hc hp.activity rfl htracked.once (List.Subset.refl _)
      (fun _ => .inl) fun hsupported _ => ?_
    rw [checkLanguages_eq_ok.2 hsupported] at he
    cases he
  | blocked hp _ hcalls =>
    obtain ⟨hcalls, -, htracked'⟩ := track_callees hm hc hp hopen hcorrect hw htracked hcalls
    obtain ⟨j, _, _, _, -, -, -, hj, hfailed, -⟩ := hcalls.exists_failed
    refine htracked'.leave hm hc hp.activity rfl htracked'.once (List.Subset.refl _)
      (fun _ => .inl) fun _ hcompilable => ?_
    exact absurd (hcompilable j hj) hfailed.not_compilable
  | @lowered _ s₁ _ a callees _ hp hl hcalls hx =>
    have hstack := (hcalls.grows fun _ _ _ _ h => h.1).stack
    obtain ⟨hcalls, hopen', htracked'⟩ := track_callees hm hc hp hopen hcorrect hw htracked hcalls
    have hnone (y : Except CompileError Routine) : (c.qualified i, y) ∉ s₁.results :=
      hopen'.pending _ (hstack ▸ List.mem_cons_self) y
    -- While it is in progress, the activity has no result, and so no entry.
    have hfresh : c.qualified i ∉ s₁.lowered := by
      intro hmem
      obtain ⟨_, _, _, _, _, _, ⟨y, hy⟩, -⟩ := htracked'.complete _ hmem
      exact hnone y (mem_of_lookup hy)
    have hcomplete := complete_of_callees hc hp.activity (checkLanguages_eq_ok.1 hl) hopen' hnone
      hcalls x
    refine htracked'.leave hm hc hp.activity rfl ?_ (List.subset_append_left _ _)
      (fun name hname => ?_) fun _ _ => List.mem_append_right _ (List.mem_singleton_self _)
    · exact htracked'.once.append (List.nodup_singleton _) (List.disjoint_singleton.2 hfresh)
    · refine (List.mem_append.1 hname).imp id fun hname => ?_
      rw [List.mem_singleton.1 hname]
      exact hcomplete

theorem remembers_of_rule (hm : m.Resolved) (hc : c ∈ m.components)
    (h : Rule (fun s i x s' => s.Grows s' ∧ Remembers m c s i x s') m c s i x s') :
    Remembers m c s i x s' := by
  refine ⟨keeps_of_rule hc (h.mono fun _ _ _ _ _ _ _ hr => ?_),
    settles_of_rule hm hc (h.mono fun _ _ _ _ _ _ _ hr => ?_), tracks_of_rule hm hc h⟩
  · exact ⟨⟨hr.1, hr.2.1⟩, hr.1.stack⟩
  · exact ⟨⟨hr.1, hr.2.2.1⟩, hr.1.stack⟩

end

namespace Compilation

variable {m : Model} {s s' : Compilation}

theorem Of.tracked (h : s.Of m) (hm : m.Resolved) : s.Tracked m := by
  refine h.induction ⟨List.nodup_nil, nofun, nofun⟩ fun s c i h hc hi hs => ?_
  obtain ⟨-, -, htracks⟩ :=
    compile_induction (fun _ _ _ _ => remembers_of_rule hm hc) h.stack i
  exact htracks h.opened (h.correct hm) (h.waiting c i) hi hs

/-- The log has just the activities that are complete. -/
theorem Of.mem_lowered (h : s.Of m) (hm : m.Resolved) {name : String} :
    name ∈ s.lowered ↔ s.Complete m name := by
  refine ⟨(h.tracked hm).complete name, ?_⟩
  rintro ⟨c, hc, i, a, ha, rfl, ⟨x, hx⟩, hsupported, hcalls⟩
  refine (h.tracked hm).lowered c hc i a ha hsupported (fun j hj => ?_) x hx
  obtain ⟨r, hr⟩ := hcalls j hj
  have houtcome := h.correct hm c hc j (lt_of_callsAmong hm hc ha hj) _ (mem_of_lookup hr)
  exact ((houtcome r).1 rfl).1

theorem Of.count (h : s.Of m) (hm : m.Resolved) :
    s.count = {name | s.Complete m name}.ncard := by
  have hset : {name | s.Complete m name} = (s.lowered.toFinset : Set String) := by
    ext name
    simp [h.mem_lowered hm]
  rw [hset, Set.ncard_coe_finset, List.toFinset_card_of_nodup (h.tracked hm).once]
  rfl

/-! ### Further requests -/

/-- A request leads from a state to the next. -/
def Next (m : Model) (s s' : Compilation) : Prop :=
  (∃ c ∈ m.components, ∃ i, s' = ((compile m c i).run.run s).2) ∨
    ∃ component activity, s' = ((compileNamed m component activity).run.run s).2

theorem Of.next (h : s.Of m) (hs' : Next m s s') : s'.Of m := by
  obtain ⟨c, hc, i, rfl⟩ | ⟨component, activity, rfl⟩ := hs'
  · exact .request h hc i
  · exact .named h component activity

theorem Of.grows_next (h : s.Of m) (hs' : Next m s s') : s.Grows s' := by
  obtain ⟨c, hc, i, rfl⟩ | ⟨component, activity, rfl⟩ := hs'
  · exact grows_compile h.stack i
  · obtain ⟨e, heq⟩ | ⟨c, -, i, -, heq⟩ := compileNamed_cases m component activity
    · rw [heq]
      exact .refl s
    · rw [heq]
      exact grows_compile h.stack i

theorem Of.grows (h : s.Of m) (hs' : ReflTransGen (Next m) s s') : s'.Of m ∧ s.Grows s' := by
  induction hs' with
  | refl => exact ⟨h, .refl s⟩
  | tail _ hnext ih => exact ⟨ih.1.next hnext, ih.2.trans (ih.1.grows_next hnext)⟩

end Compilation

/-- A request at the outset leaves its result. -/
theorem Rule.mem_results {R : Judgment} {m : Model} {c : Component} {s s' : Compilation} {i : Nat}
    {x : Except CompileError Routine} (h : Rule R m c s i x s') (hi : i < c.activities.length)
    (hs : s.stack = []) : (c.qualified i, x) ∈ s'.results := by
  cases h with
  | cached h => exact mem_of_lookup h
  | unknown _ ha =>
    rw [List.getElem?_eq_getElem hi] at ha
    cases ha
  | recursive _ _ hstack =>
    rw [hs] at hstack
    cases hstack
  | unsupported | blocked | lowered => exact List.mem_append_right _ (List.mem_singleton_self _)

theorem Compilation.Of.lookup_compile {m : Model} {s : Compilation} (h : s.Of m) {c : Component}
    (hc : c ∈ m.components) {i : Nat} (hi : i < c.activities.length) :
    ((compile m c i).run.run s).2.results.lookup (c.qualified i) =
      some ((compile m c i).run.run s).1 := by
  refine (Compilation.Of.request h hc i).sound.lookup_eq_some.2 ?_
  exact (run_compileWithin.1 rfl).mem_results hi h.stack

/-! ### Calls between routines -/

/-- A routine of a library calls another one. -/
def Library.Calls (l : Library) (name name' : String) : Prop :=
  ∃ r, l.find? name = some r ∧ name' ∈ r.calls

/-- Steps call only what the nodes call. -/
theorem Flow.Lowering.exists_call {f : Flow} {r : Routine} (L : f.Lowering r) {k : Nat}
    (hf : f.activity.Resolved k) {name : String} (h : name ∈ r.calls) :
    ∃ n target arguments routine, f.action n = .call target arguments ∧
      f.callees.lookup n = some routine ∧ name = routine.qualified := by
  obtain ⟨s, hs, hname⟩ := L.mem_calls.1 h
  obtain ⟨n, -, -, -, hp⟩ := exists_of_forall₂ (L.stands hf).flip hs
  generalize s.operation = operation at hp hname
  cases hp with
  | call hcall hc =>
    cases hname
    exact ⟨n, _, _, _, hcall, hc, rfl⟩
  | receive | output | create | literal | read | write | block | fork | join => cases hname

namespace Compilation.Of

variable {m : Model} {s : Compilation}

/-- A routine stems from an activity, and calls the routines of those that this one calls. -/
theorem exists_activity (h : s.Of m) (hm : m.Resolved) {name : String} {r : Routine}
    (hr : s.library.find? name = some r) :
    ∃ c ∈ m.components, ∃ i < c.activities.length, name = c.qualified i ∧ m.Compilable c i ∧
      ∀ name' ∈ r.calls, ∃ j < c.activities.length, name' = c.qualified j ∧ c.Calls i j ∧
        ∃ r', s.library.find? name' = some r' := by
  have hmem := h.find?_library.1 hr
  obtain ⟨f, hf⟩ := h.sound.compiled hmem
  obtain ⟨i, hactivity, rfl⟩ := hf.name
  have hi := (List.getElem?_eq_some_iff.1 hactivity).1
  have houtcome := h.correct hm _ hf.of.component i hi _ hmem
  refine ⟨f.component, hf.of.component, i, hi, rfl, ((houtcome r).1 rfl).1, fun name' hname' => ?_⟩
  obtain ⟨L⟩ := f.exists_lowering hf.lower
  obtain ⟨n, target, arguments, routine, hcall, hroutine, rfl⟩ :=
    L.exists_call (hf.of.resolved hm) hname'
  obtain ⟨r', hlookup, hr'⟩ := hf.callees n target arguments hcall
  cases hroutine.symm.trans hlookup
  obtain ⟨f', hf'⟩ := h.sound.compiled hr'
  have hcalls : CallsAmong f.activity.nodes target := callsAmong_iff.2 ⟨n, arguments, hcall⟩
  rw [hf'.qualified]
  exact ⟨target, lt_of_callsAmong hm hf.of.component hactivity hcalls, rfl,
    ⟨f.activity, hactivity, hcalls⟩, routine, h.find?_library.2 hr'⟩

theorem calls_of_path (h : s.Of m) (hm : m.Resolved) {c : Component} (hc : c ∈ m.components)
    {i : Nat} (hi : i < c.activities.length) {name : String}
    (hpath : TransGen s.library.Calls (c.qualified i) name) :
    ∃ j < c.activities.length, name = c.qualified j ∧ TransGen c.Calls i j := by
  -- One call of a routine is one call of its activity, which the name determines.
  have hstep {j : Nat} (hj : j < c.activities.length) {name : String}
      (hcall : s.library.Calls (c.qualified j) name) :
      ∃ k < c.activities.length, name = c.qualified k ∧ c.Calls j k := by
    obtain ⟨r, hr, hname⟩ := hcall
    obtain ⟨c', hc', j', hj', hqualified, -, hcalls⟩ := h.exists_activity hm hr
    obtain ⟨rfl, rfl⟩ := hm.qualified_injective hc hc' hj hj' hqualified
    obtain ⟨k, hk, hname, hcall, -⟩ := hcalls name hname
    exact ⟨k, hk, hname, hcall⟩
  induction hpath with
  | single hcall =>
    obtain ⟨j, hj, hname, hcall⟩ := hstep hi hcall
    exact ⟨j, hj, hname, .single hcall⟩
  | tail _ hcall ih =>
    obtain ⟨j, hj, rfl, hpath⟩ := ih
    obtain ⟨k, hk, hname, hcall⟩ := hstep hj hcall
    exact ⟨k, hk, hname, hpath.tail hcall⟩

theorem acyclic_library (h : s.Of m) (hm : m.Resolved) (name : String) :
    ¬ TransGen s.library.Calls name name := by
  intro hcycle
  obtain ⟨_, ⟨r, hr, -⟩, -⟩ := TransGen.head'_iff.1 hcycle
  obtain ⟨c, hc, i, hi, rfl, hcompilable, -⟩ := h.exists_activity hm hr
  obtain ⟨j, hj, hname, hpath⟩ := h.calls_of_path hm hc hi hcycle
  obtain ⟨-, rfl⟩ := hm.qualified_injective hc hc hi hj hname
  exact hcompilable.acyclic i .refl hpath

end Compilation.Of

/-! ### Memoization -/

/-- A compilation between requests. -/
structure Compilation.Coherent (m : Model) (s : Compilation) : Prop where
  idle : s.stack = []
  /-- Results stay as they are. -/
  kept : ∀ s', ReflTransGen (Next m) s s' → ∀ name x, s.results.lookup name = some x →
    s'.results.lookup name = some x
  /-- At any later time, a repeated request returns the result that is there and changes
  nothing. -/
  repeated : ∀ c i x, Asks m c i x → ∀ s', ReflTransGen (Next m) (x.run.run s).2 s' →
    s'.results.lookup (c.qualified i) = some (x.run.run s).1 ∧ x.run.run s' = ((x.run.run s).1, s')
  /-- Each activity was lowered at most once. -/
  once : s.lowered.Nodup
  count : s.count = {name | s.Complete m name}.ncard
  /-- Routines call only routines of the library. -/
  closed : ∀ e ∈ s.library.entries, ∀ name ∈ e.2.calls, ∃ r', s.library.find? name = some r'
  acyclic : ∀ name, ¬ TransGen s.library.Calls name name

/-- After any requests, a compilation is coherent. -/
theorem Compilation.Of.coherent {d : Definition} {m : Model} (hm : Model.build d = .ok m)
    {s : Compilation} (hs : s.Of m) : s.Coherent m := by
  have hresolved := Model.resolved_of_build hm
  refine ⟨hs.stack, fun s' hs' name x hx => ?_, fun c i x hx s' hs' => ?_,
    (hs.tracked hresolved).once, hs.count hresolved, fun e he name hname => ?_,
    hs.acyclic_library hresolved⟩
  · exact lookup_of_isPrefix (hs.grows hs').2.results hx
  · obtain ⟨hc, hi, rfl⟩ := hx.eq_compile
    have hgrows := (Compilation.Of.grows (.request hs hc i) hs').2
    have hlookup := lookup_of_isPrefix hgrows.results (hs.lookup_compile hc hi)
    exact ⟨hlookup, run_compile_cached hlookup⟩
  · have hfind := hs.find?_library.2 (Compilation.mem_library.1 he)
    obtain ⟨_, _, _, _, _, _, hcalls⟩ := hs.exists_activity hresolved hfind
    obtain ⟨_, _, _, _, hfind⟩ := hcalls name hname
    exact hfind

/-- Of the activities that a request for `Both` comes to, only `Solo` is lowered. -/
theorem Compilation.Of.coherent_relayed :
    Sample.relayed.lowered = ["Relay::Solo"] ∧
      {name | Sample.relayed.Complete Sample.relayModel name}.ncard = 1 ∧
      Sample.relayed.Coherent Sample.relayModel := by
  have hcoherent := Compilation.Of.coherent Sample.build_relayDefinition Sample.relayed_of
  have hlowered : Sample.relayed.lowered = ["Relay::Solo"] := by decide +kernel
  refine ⟨hlowered, ?_, hcoherent⟩
  rw [← hcoherent.count, Compilation.count, hlowered]
  rfl

end FlightGen
