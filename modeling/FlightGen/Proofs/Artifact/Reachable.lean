import FlightGen.Artifact.Bundle
import FlightGen.Proofs.Fallible

/-! The routines that a component reaches. The bound on following calls is never felt, so that
libraries with the same routines under the names that turn up reach the same. -/

namespace FlightGen.Library

/-- The names of some routines. -/
def namesOf (entries : List (String × Routine)) : List String :=
  entries.map (·.1)

/-- Following calls from `pending`, with no bound. -/
inductive Closes (l : Library) : List (String × Routine) → List String →
    Except String (List (String × Routine)) → Prop
  | done {seen : List (String × Routine)} : Closes l seen [] (.ok seen)
  | known {seen : List (String × Routine)} {name : String} {pending : List String}
      {x : Except String (List (String × Routine))} (hseen : name ∈ namesOf seen)
      (h : Closes l seen pending x) : Closes l seen (name :: pending) x
  | found {seen : List (String × Routine)} {name : String} {pending : List String} {r : Routine}
      {x : Except String (List (String × Routine))} (hseen : name ∉ namesOf seen)
      (hr : l.find? name = some r)
      (h : Closes l ((name, r) :: seen) (r.calls.reverse ++ pending) x) :
      Closes l seen (name :: pending) x
  | missing {seen : List (String × Routine)} {name : String} {pending : List String}
      (hseen : name ∉ namesOf seen) (hr : l.find? name = none) :
      Closes l seen (name :: pending) (.error name)

theorem Closes.unique {l : Library} {seen : List (String × Routine)} {pending : List String}
    {x y : Except String (List (String × Routine))} (hx : l.Closes seen pending x)
    (hy : l.Closes seen pending y) : x = y := by
  induction hx with
  | done =>
    cases hy
    rfl
  | known hseen _ ih =>
    cases hy with
    | known _ h => exact ih h
    | found hnot | missing hnot => exact absurd hseen hnot
  | found hseen hr _ ih =>
    cases hy with
    | known hmem => exact absurd hmem hseen
    | found _ hr' h =>
      cases hr.symm.trans hr'
      exact ih h
    | missing _ hr' => cases hr.symm.trans hr'
  | missing hseen hr =>
    cases hy with
    | known hmem => exact absurd hmem hseen
    | found _ hr' => cases hr.symm.trans hr'
    | missing => rfl

/-- Only the routines under names that turn up matter. -/
theorem Closes.congr {l l' : Library} {P : String → Prop}
    (hfind : ∀ name, P name → l.find? name = l'.find? name)
    (hcalls : ∀ name r, P name → l.find? name = some r → ∀ name' ∈ r.calls, P name')
    {seen : List (String × Routine)} {pending : List String}
    {x : Except String (List (String × Routine))} (h : l.Closes seen pending x)
    (hpending : ∀ name ∈ pending, P name) : l'.Closes seen pending x := by
  induction h with
  | done => exact .done
  | known hseen _ ih => exact .known hseen (ih (List.forall_mem_cons.1 hpending).2)
  | @found seen name pending r x hseen hr _ ih =>
    obtain ⟨hname, hrest⟩ := List.forall_mem_cons.1 hpending
    refine .found hseen (hfind name hname ▸ hr) (ih fun name' hname' => ?_)
    obtain hname' | hname' := List.mem_append.1 hname'
    · exact hcalls name r hname hr name' (List.mem_reverse.1 hname')
    · exact hrest name' hname'
  | @missing seen name pending hseen hr =>
    exact .missing hseen (hfind name (List.forall_mem_cons.1 hpending).1 ▸ hr)

/-! ### The bound -/

def isUnseen (seen : List (String × Routine)) (e : String × Routine) : Bool :=
  decide (e.1 ∉ namesOf seen)

/-- How many calls there are in routines that are not seen yet. -/
def unseenCalls (l : Library) (seen : List (String × Routine)) : Nat :=
  ((l.entries.filter (isUnseen seen)).flatMap (·.2.calls)).length

theorem unseenCalls_nil (l : Library) : l.unseenCalls [] = l.callCount := by
  have hfold (n : Nat) (es : List (String × Routine)) :
      es.foldl (fun n e => n + e.2.calls.length) n = n + (es.flatMap (·.2.calls)).length := by
    induction es generalizing n with
    | nil => rfl
    | cons e es ih =>
      rw [List.foldl_cons, ih, List.flatMap_cons, List.length_append, Nat.add_assoc]
  have hall : l.entries.filter (isUnseen []) = l.entries :=
    List.filter_eq_self.2 fun e _ => rfl
  rw [unseenCalls, hall, callCount, hfold, Nat.zero_add]

theorem isUnseen_cons {seen : List (String × Routine)} {e e' : String × Routine} :
    isUnseen (e :: seen) e' = (decide (e.1 ≠ e'.1) && isUnseen seen e') := by
  rw [Bool.eq_iff_iff, Bool.and_eq_true, isUnseen, isUnseen, decide_eq_true_iff,
    decide_eq_true_iff, decide_eq_true_iff, namesOf, List.map_cons, List.mem_cons, not_or, ne_comm]
  rfl

/-- Seeing a routine takes its calls from those that may turn up. -/
theorem unseenCalls_cons {l : Library} {seen : List (String × Routine)} {e : String × Routine}
    (he : e ∈ l.entries) (hseen : isUnseen seen e = true) :
    l.unseenCalls (e :: seen) + e.2.calls.length ≤ l.unseenCalls seen := by
  have hmono (es : List (String × Routine)) :
      ((es.filter (isUnseen (e :: seen))).flatMap (·.2.calls)).length ≤
        ((es.filter (isUnseen seen)).flatMap (·.2.calls)).length := by
    induction es with
    | nil => exact Nat.le_refl _
    | cons e' es ih =>
      rw [List.filter_cons, List.filter_cons, isUnseen_cons]
      by_cases hname : e.1 = e'.1 <;> cases hunseen : isUnseen seen e' <;>
        simp only [hname, ne_eq, not_true_eq_false, not_false_eq_true, decide_false, decide_true,
          Bool.and_false, Bool.and_true, Bool.false_eq_true, if_false, if_true, List.flatMap_cons,
          List.length_append] <;> omega
  -- The routine itself counts on one side only.
  obtain ⟨before, after, hentries⟩ := List.append_of_mem he
  have hbefore := hmono before
  have hafter := hmono after
  have hself : ¬ isUnseen (e :: seen) e = true := by simp [isUnseen_cons]
  rw [unseenCalls, unseenCalls, hentries, List.filter_append, List.filter_append,
    List.filter_cons_of_pos hseen, List.filter_cons_of_neg hself, List.flatMap_append,
    List.flatMap_append, List.flatMap_cons, List.length_append, List.length_append,
    List.length_append]
  omega

theorem closes_closeWithin {l : Library} {count : Nat} {seen : List (String × Routine)}
    {pending : List String} (h : pending.length + l.unseenCalls seen ≤ count) :
    l.Closes seen pending (l.closeWithin count seen pending) := by
  induction count generalizing seen pending with
  | zero =>
    cases pending with
    | nil => exact .done
    | cons name pending => simp at h
  | succ count ih =>
    cases pending with
    | nil => exact .done
    | cons name pending =>
      rw [List.length_cons] at h
      rw [closeWithin]
      split
      · rename_i hseen
        exact .known hseen (ih (by omega))
      · rename_i hseen
        split
        · rename_i r hr
          have hunseen : isUnseen seen (name, r) = true := decide_eq_true hseen
          have hcalls := unseenCalls_cons (mem_of_lookup hr) hunseen
          refine .found hseen hr (ih ?_)
          rw [List.length_append, List.length_reverse]
          dsimp only at hcalls
          omega
        · rename_i hr
          exact .missing hseen hr

/-- The bound of `reachable` suffices. -/
theorem closes_start (l : Library) (names : List String) : l.Closes [] names.reverse
    (l.closeWithin (names.length + l.callCount) [] names.reverse) := by
  refine closes_closeWithin (Nat.le_of_eq ?_)
  rw [List.length_reverse, unseenCalls_nil]

/-- Libraries that agree on all names that turn up reach the same routines. -/
theorem reachable_congr {l l' : Library} {P : String → Prop}
    (hfind : ∀ name, P name → l.find? name = l'.find? name)
    (hcalls : ∀ name r, P name → l.find? name = some r → ∀ name' ∈ r.calls, P name')
    {names : List String} (hnames : ∀ name ∈ names, P name) :
    l.reachable names = l'.reachable names := by
  have hreverse : ∀ name ∈ names.reverse, P name := fun name hname =>
    hnames name (List.mem_reverse.1 hname)
  have hcloses := (l.closes_start names).congr hfind hcalls hreverse
  rw [reachable, reachable, hcloses.unique (l'.closes_start names)]

end FlightGen.Library
