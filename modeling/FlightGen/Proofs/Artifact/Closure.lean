import FlightGen.Proofs.Artifact.Reachable
import FlightGen.Proofs.Compilation.Memo

/-! Which routines a component is emitted with. Following calls from the activities of its states
comes to an end, also where calls run in circles. It ends with just the routines that calls lead
to, or at a name that they lead to and that the library lacks. -/

namespace FlightGen

open Relation (ReflTransGen)

namespace Library

/-- Calls lead from one of some names to another name, be there a routine for it or not. -/
def LeadsTo (l : Library) (names : List String) (name : String) : Prop :=
  ∃ first ∈ names, ReflTransGen l.Calls first name

/-- A name that calls lead to is missing. -/
def Lacks (l : Library) (names : List String) (name : String) : Prop :=
  l.LeadsTo names name ∧ l.find? name = none

section

variable {l : Library} {names names' : List String} {name name' : String} {r : Routine}

theorem LeadsTo.self (h : name ∈ names) : l.LeadsTo names name :=
  ⟨name, h, .refl⟩

theorem LeadsTo.call (h : l.LeadsTo names name) (hr : l.find? name = some r)
    (hcall : name' ∈ r.calls) : l.LeadsTo names name' := by
  obtain ⟨first, hfirst, hpath⟩ := h
  exact ⟨first, hfirst, hpath.tail ⟨r, hr, hcall⟩⟩

theorem LeadsTo.mono (h : l.LeadsTo names name) (hsub : names ⊆ names') :
    l.LeadsTo names' name := by
  obtain ⟨first, hfirst, hpath⟩ := h
  exact ⟨first, hsub hfirst, hpath⟩

/-- Beyond a routine lies what lies beyond its calls. -/
theorem LeadsTo.expand (h : l.LeadsTo (r.calls.reverse ++ names) name')
    (hr : l.find? name = some r) : l.LeadsTo (name :: names) name' := by
  obtain ⟨first, hfirst, hpath⟩ := h
  obtain hfirst | hfirst := List.mem_append.1 hfirst
  · exact ⟨name, List.mem_cons_self, .head ⟨r, hr, List.mem_reverse.1 hfirst⟩ hpath⟩
  · exact ⟨first, List.mem_cons_of_mem _ hfirst, hpath⟩

/-- What holds of the names at the start and passes on to called names holds of all names that
calls lead to. -/
theorem LeadsTo.induction {P : String → Prop} (h : l.LeadsTo names name)
    (hstart : ∀ name ∈ names, P name)
    (hcall : ∀ name r, P name → l.find? name = some r → ∀ name' ∈ r.calls, P name') : P name := by
  obtain ⟨first, hfirst, hpath⟩ := h
  induction hpath with
  | refl => exact hstart first hfirst
  | tail _ hstep ih =>
    obtain ⟨r, hr, hname⟩ := hstep
    exact hcall _ r ih hr _ hname

end

/-! ### Following calls -/

namespace Closes

variable {l : Library} {seen entries : List (String × Routine)} {pending : List String}

/-- It ends early only at a name that is missing. -/
theorem lacks {name : String} (h : l.Closes seen pending (.error name)) : l.Lacks pending name := by
  generalize hx : (Except.error name : Except String (List (String × Routine))) = x at h
  induction h with
  | done => cases hx
  | known _ _ ih =>
    obtain ⟨hleads, hnone⟩ := ih hx
    exact ⟨hleads.mono (List.subset_cons_self _ _), hnone⟩
  | found _ hr _ ih =>
    obtain ⟨hleads, hnone⟩ := ih hx
    exact ⟨hleads.expand hr, hnone⟩
  | missing _ hr =>
    cases hx
    exact ⟨.self List.mem_cons_self, hr⟩

/-- The routines are those seen before and such that calls lead to. -/
theorem sound (h : l.Closes seen pending (.ok entries)) {name : String} {r : Routine}
    (hr : (name, r) ∈ entries) :
    (name, r) ∈ seen ∨ l.LeadsTo pending name ∧ l.find? name = some r := by
  generalize hx : (Except.ok entries : Except String (List (String × Routine))) = x at h
  induction h with
  | done =>
    cases hx
    exact .inl hr
  | known _ _ ih =>
    refine (ih hx).imp_right fun ⟨hleads, hfind⟩ => ?_
    exact ⟨hleads.mono (List.subset_cons_self _ _), hfind⟩
  | @found seen name' pending r' x _ hr' _ ih =>
    obtain hmem | ⟨hleads, hfind⟩ := ih hx
    · obtain heq | hmem := List.mem_cons.1 hmem
      · cases heq
        exact .inr ⟨.self List.mem_cons_self, hr'⟩
      · exact .inl hmem
    · exact .inr ⟨hleads.expand hr', hfind⟩
  | missing => cases hx

/-- What was seen stays, and what was pending is there in the end. -/
theorem covers (h : l.Closes seen pending (.ok entries)) :
    seen ⊆ entries ∧ pending ⊆ namesOf entries := by
  generalize hx : (Except.ok entries : Except String (List (String × Routine))) = x at h
  induction h with
  | done =>
    cases hx
    exact ⟨List.Subset.refl _, List.nil_subset _⟩
  | known hseen _ ih =>
    obtain ⟨hsub, hpending⟩ := ih hx
    exact ⟨hsub, List.cons_subset.2 ⟨List.map_subset _ hsub hseen, hpending⟩⟩
  | @found seen name pending r x _ hr _ ih =>
    obtain ⟨hsub, hpending⟩ := ih hx
    obtain ⟨hmem, hsub⟩ := List.cons_subset.1 hsub
    have hname : name ∈ namesOf entries := List.mem_map.2 ⟨_, hmem, rfl⟩
    exact ⟨hsub, List.cons_subset.2 ⟨hname, (List.append_subset.1 hpending).2⟩⟩
  | missing => cases hx

/-- If every call of a routine seen so far is seen or pending, every call of the routines in the
end is among them. -/
theorem closed (h : l.Closes seen pending (.ok entries))
    (hseen : ∀ e ∈ seen, e.2.calls ⊆ namesOf seen ++ pending) :
    ∀ e ∈ entries, e.2.calls ⊆ namesOf entries := by
  generalize hx : (Except.ok entries : Except String (List (String × Routine))) = x at h
  induction h with
  | done =>
    cases hx
    simpa using hseen
  | @known seen name pending x hname _ ih =>
    refine ih (fun e he call hcall => ?_) hx
    have hmem := hseen e he hcall
    rw [List.mem_append, List.mem_cons] at hmem
    obtain hmem | rfl | hmem := hmem
    · exact List.mem_append_left _ hmem
    · exact List.mem_append_left _ hname
    · exact List.mem_append_right _ hmem
  | @found seen name pending r x _ hr _ ih =>
    -- The calls of the new routine are pending from now on, and its own name is seen.
    refine ih (List.forall_mem_cons.2 ⟨?_, fun e he call hcall => ?_⟩) hx
    · intro call hcall
      exact List.mem_append_right _ (List.mem_append_left _ (List.mem_reverse.2 hcall))
    · have hmem := hseen e he hcall
      simp only [namesOf, List.map_cons, List.mem_append, List.mem_cons] at hmem ⊢
      tauto
  | missing => cases hx

/-- No routine is entered twice. -/
theorem nodup (h : l.Closes seen pending (.ok entries)) (hseen : (namesOf seen).Nodup) :
    (namesOf entries).Nodup := by
  generalize hx : (Except.ok entries : Except String (List (String × Routine))) = x at h
  induction h with
  | done =>
    cases hx
    exact hseen
  | known _ _ ih => exact ih hseen hx
  | found hname _ _ ih => exact ih (List.nodup_cons.2 ⟨hname, hseen⟩) hx
  | missing => cases hx

end Closes

/-! ### What is reached -/

section

variable {l : Library} {names : List String} {routines : List Routine}

/-- Following calls without a bound comes to an end, and to the same one. -/
theorem closes_reachable (l : Library) (names : List String) :
    ∃ x, l.Closes [] names.reverse x ∧
      l.reachable names = x.map fun entries => (sortEntries entries).map (·.2) := by
  refine ⟨_, l.closes_start names, ?_⟩
  rw [reachable]
  cases l.closeWithin (names.length + l.callCount) [] names.reverse <;> rfl

theorem mem_sortEntries {entries : List (String × Routine)} {e : String × Routine} :
    e ∈ sortEntries entries ↔ e ∈ entries :=
  List.mem_mergeSort

theorem pairwise_sortEntries {entries : List (String × Routine)} (h : (namesOf entries).Nodup) :
    (sortEntries entries).Pairwise fun a b => a.1 < b.1 := by
  have hsorted : (sortEntries entries).Pairwise fun a b => decide (a.1 ≤ b.1) = true := by
    apply List.pairwise_mergeSort
    · intro a b c hab hbc
      simp only [decide_eq_true_eq] at hab hbc ⊢
      exact String.le_trans hab hbc
    · intro a b
      simpa using String.le_total a.1 b.1
  have hnodup : (namesOf (sortEntries entries)).Nodup :=
    ((List.mergeSort_perm _ _).map _).nodup_iff.2 h
  refine (hsorted.and (List.pairwise_map.1 hnodup)).imp fun {a b} hab => ?_
  by_contra hlt
  exact hab.2 (String.le_antisymm (of_decide_eq_true hab.1) (String.not_lt.1 hlt))

/-- What is reached are the routines under names that calls lead to, in the order of these names,
and none of those is missing. -/
theorem exists_entries (h : l.reachable names = .ok routines) :
    ∃ entries : List (String × Routine), routines = entries.map (·.2) ∧
      (entries.Pairwise fun a b => a.1 < b.1) ∧
      (∀ name r, (name, r) ∈ entries ↔ l.LeadsTo names name ∧ l.find? name = some r) ∧
      ∀ name, l.LeadsTo names name → ∃ r, l.find? name = some r := by
  obtain ⟨x, hcloses, hx⟩ := l.closes_reachable names
  rw [h] at hx
  obtain ⟨found, rfl, rfl⟩ := map_eq_ok.1 hx.symm
  have hsound {name : String} {r : Routine} (hr : (name, r) ∈ found) :
      l.LeadsTo names name ∧ l.find? name = some r := by
    obtain hnil | ⟨hleads, hfind⟩ := hcloses.sound hr
    · cases hnil
    · exact ⟨hleads.mono (List.reverse_subset.2 (List.Subset.refl _)), hfind⟩
  have hcovered {name : String} (hname : l.LeadsTo names name) : ∃ r, (name, r) ∈ found := by
    suffices name ∈ namesOf found by
      obtain ⟨⟨_, r⟩, hr, rfl⟩ := List.mem_map.1 this
      exact ⟨r, hr⟩
    refine hname.induction (fun name hname => ?_) fun name r hmem hr name' hname' => ?_
    · exact hcloses.covers.2 (List.mem_reverse.2 hname)
    · obtain ⟨⟨_, r'⟩, hr', rfl⟩ := List.mem_map.1 hmem
      cases hr.symm.trans (hsound hr').2
      exact hcloses.closed (by simp) _ hr' hname'
  refine ⟨sortEntries found, rfl, pairwise_sortEntries (hcloses.nodup List.nodup_nil),
    fun name r => ?_, fun name hname => ?_⟩
  · rw [mem_sortEntries]
    refine ⟨hsound, fun ⟨hleads, hfind⟩ => ?_⟩
    obtain ⟨r', hr'⟩ := hcovered hleads
    cases hfind.symm.trans (hsound hr').2
    exact hr'
  · obtain ⟨r, hr⟩ := hcovered hname
    exact ⟨r, (hsound hr).2⟩

theorem reachable_eq_error {name : String} (h : l.reachable names = .error name) :
    l.Lacks names name := by
  obtain ⟨x, hcloses, hx⟩ := l.closes_reachable names
  rw [h] at hx
  cases x with
  | ok routines => cases hx
  | error e =>
    cases hx
    obtain ⟨hleads, hnone⟩ := hcloses.lacks
    exact ⟨hleads.mono (List.reverse_subset.2 (List.Subset.refl _)), hnone⟩

/-- It fails exactly if calls lead to a name that is missing. -/
theorem exists_reachable_error_iff :
    (∃ name, l.reachable names = .error name) ↔ ∃ name, l.Lacks names name := by
  refine ⟨fun ⟨name, h⟩ => ⟨name, reachable_eq_error h⟩, fun ⟨name, hleads, hnone⟩ => ?_⟩
  cases h : l.reachable names with
  | error e => exact ⟨e, rfl⟩
  | ok routines =>
    obtain ⟨_, -, -, -, hall⟩ := exists_entries h
    obtain ⟨r, hr⟩ := hall name hleads
    cases hnone.symm.trans hr

end

/-- Routines in the order of their own names, none of them twice. -/
def Ordered (routines : List Routine) : Prop :=
  routines.Pairwise fun a b => a.qualified < b.qualified

end Library

/-- Compiled routines stand in the library under their own names, so that what is reached is told
from the routines alone. -/
theorem Compilation.Of.reachable_eq_ok {m : Model} {s : Compilation} (hs : s.Of m)
    {names : List String} {routines : List Routine}
    (h : s.library.reachable names = .ok routines) :
    Library.Ordered routines ∧
      (∀ r, r ∈ routines ↔
        s.library.LeadsTo names r.qualified ∧ s.library.find? r.qualified = some r) ∧
      ∀ name, s.library.LeadsTo names name → ∃ r ∈ routines, s.library.find? name = some r := by
  obtain ⟨entries, rfl, hordered, hmem, hall⟩ := Library.exists_entries h
  have hname {name : String} {r : Routine} (hr : (name, r) ∈ entries) : r.qualified = name :=
    hs.qualified_eq ((hmem name r).1 hr).2
  refine ⟨?_, fun r => ⟨fun hr => ?_, fun hr => ?_⟩, fun name hleads => ?_⟩
  · refine List.pairwise_map.2 (hordered.imp_of_mem fun {a b} ha hb hlt => ?_)
    rwa [hname ha, hname hb]
  · obtain ⟨⟨name, _⟩, he, rfl⟩ := List.mem_map.1 hr
    rw [hname he]
    exact (hmem name _).1 he
  · exact List.mem_map.2 ⟨(r.qualified, r), (hmem _ r).2 hr, rfl⟩
  · obtain ⟨r, hr⟩ := hall name hleads
    exact ⟨r, List.mem_map.2 ⟨(name, r), (hmem name r).2 ⟨hleads, hr⟩, rfl⟩, hr⟩

/-! ### Bundles -/

theorem checkOutputs_eq_ok {component : String} {routines : List Routine} :
    checkOutputs component routines = .ok () ↔ ∀ r ∈ routines, r.outputs.length ≤ 1 := by
  induction routines with
  | nil => simp [checkOutputs]
  | cons r routines ih =>
    rw [checkOutputs, List.forall_mem_cons, ← ih]
    by_cases hmany : 1 < r.outputs.length
    · simp [hmany]
    · simp [hmany, Nat.not_lt.1 hmany]

theorem checkOutputs_eq_error {component : String} {routines : List Routine} {e : EmitError}
    (h : checkOutputs component routines = .error e) : ∃ r ∈ routines, 1 < r.outputs.length ∧
      e = .model (.multipleOutputs (component ++ "::" ++ r.raw) r.outputs.length) := by
  induction routines with
  | nil => cases h
  | cons r routines ih =>
    rw [checkOutputs] at h
    split at h
    · rename_i hmany
      cases h
      exact ⟨r, List.mem_cons_self, hmany, rfl⟩
    · obtain ⟨r', hr', hmany, he⟩ := ih h
      exact ⟨r', List.mem_cons_of_mem _ hr', hmany, he⟩

theorem checkNamespace_eq_ok {path : String} :
    checkNamespace path = .ok () ↔ Identifier.invalidSegment? path = none := by
  unfold checkNamespace
  cases Identifier.invalidSegment? path <;> simp

namespace Bundle

variable {path : String} {m : Machine} {l : Library} {records : List RecordType} {b : Bundle}
  {e : EmitError}

/-- What is gathered for a machine. -/
structure Collected (path : String) (m : Machine) (l : Library) (records : List RecordType)
    (b : Bundle) : Prop where
  valid : Identifier.invalidSegment? path = none
  machine : b.machine = m
  namespaces : b.namespaces = Identifier.segments path
  reached : l.reachable m.referenced = .ok b.routines
  outputs : ∀ r ∈ b.routines, r.outputs.length ≤ 1
  records : b.records = records.filter (·.name.ident ∈ b.routines.flatMap (·.recordNames))

/-- Why nothing is gathered for a machine. -/
inductive Refused (path : String) (m : Machine) (l : Library) : EmitError → Prop
  | path {segment : String} (h : Identifier.invalidSegment? path = some segment) :
      Refused path m l (.invalidNamespace path segment)
  | missing {name : String} (hvalid : Identifier.invalidSegment? path = none)
      (h : l.reachable m.referenced = .error name) :
      Refused path m l (.missingActivity m.component.raw name)
  | outputs {routines : List Routine} {r : Routine}
      (hvalid : Identifier.invalidSegment? path = none)
      (hreached : l.reachable m.referenced = .ok routines) (hr : r ∈ routines)
      (h : 1 < r.outputs.length) :
      Refused path m l
        (.model (.multipleOutputs (m.component.raw ++ "::" ++ r.raw) r.outputs.length))

theorem collected (h : collect path m l records = .ok b) : Collected path m l records b := by
  unfold collect at h
  obtain ⟨_, hvalid, h⟩ := bind_eq_ok.1 h
  obtain ⟨routines, hreached, h⟩ := bind_eq_ok.1 h
  obtain ⟨_, houtputs, h⟩ := bind_eq_ok.1 h
  cases h
  exact ⟨checkNamespace_eq_ok.1 hvalid, rfl, rfl, mapError_eq_ok.1 hreached,
    checkOutputs_eq_ok.1 houtputs, rfl⟩

theorem Collected.collect_eq (h : Collected path m l records b) :
    collect path m l records = .ok b := by
  have hb : (⟨m, b.routines, records.filter (·.name.ident ∈ b.routines.flatMap (·.recordNames)),
      Identifier.segments path⟩ : Bundle) = b := by
    rw [← h.records, ← h.namespaces, ← h.machine]
  unfold collect
  refine bind_eq_ok.2 ⟨(), checkNamespace_eq_ok.2 h.valid, ?_⟩
  refine bind_eq_ok.2 ⟨b.routines, mapError_eq_ok.2 h.reached, ?_⟩
  exact bind_eq_ok.2 ⟨(), checkOutputs_eq_ok.2 h.outputs, congrArg Except.ok hb⟩

theorem refused (h : collect path m l records = .error e) : Refused path m l e := by
  unfold collect at h
  obtain h | ⟨_, hvalid, h⟩ := bind_eq_error.1 h
  · unfold checkNamespace at h
    split at h
    · rename_i segment hsegment
      cases h
      exact .path hsegment
    · cases h
  have hvalid := checkNamespace_eq_ok.1 hvalid
  obtain h | ⟨routines, hreached, h⟩ := bind_eq_error.1 h
  · unfold reachableRoutines at h
    cases hreached : l.reachable m.referenced with
    | ok routines => simp [hreached, Except.mapError] at h
    | error name =>
      rw [hreached] at h
      cases h
      exact .missing hvalid hreached
  obtain h | ⟨-, -, h⟩ := bind_eq_error.1 h
  · obtain ⟨r, hr, hmany, rfl⟩ := checkOutputs_eq_error h
    exact .outputs hvalid (mapError_eq_ok.1 hreached) hr hmany
  · cases h

/-- A routine is reported as missing exactly if the namespace is valid and calls lead to a name that
the library lacks. -/
theorem exists_missing_iff :
    (∃ component activity,
      collect path m l records = .error (.missingActivity component activity)) ↔
      Identifier.invalidSegment? path = none ∧ ∃ name, l.Lacks m.referenced name := by
  rw [← Library.exists_reachable_error_iff]
  constructor
  · rintro ⟨component, activity, h⟩
    cases refused h with
    | missing hvalid h => exact ⟨hvalid, activity, h⟩
  · rintro ⟨hvalid, name, hname⟩
    refine ⟨m.component.raw, name, ?_⟩
    rw [collect, checkNamespace, hvalid, reachableRoutines, hname]
    rfl

end Bundle

end FlightGen
