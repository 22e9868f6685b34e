import FlightGen.Proofs.Naming.Ledger

/-! Scopes and kinds kept apart. A call reads and changes the names of one place only, its scope
and kind. In a sequence of calls each is therefore answered as if those about other places had
not been made, and calls about different places can change their turns. -/

namespace FlightGen

namespace NameTable

/-- The scope and the kind that a call is about. -/
def Call.place : Call → String × NameKind
  | .assign scope kind _ => (scope, kind)
  | .assignFresh scope kind _ => (scope, kind)
  | .reserve scope kind _ => (scope, kind)
  | .lookup scope kind _ => (scope, kind)

def namesAt (t : NameTable) (place : String × NameKind) : Names :=
  t.names place.1 place.2

/-- The calls about one place, in their order. -/
def callsAt (place : String × NameKind) (calls : List Call) : List Call :=
  calls.filter (·.place = place)

/-- The answers to calls that come after others. -/
def answersAfter (before calls : List Call) : List Answer :=
  (answerAll (before ++ calls)).1.drop before.length

/-! ### One call -/

variable {t t' : NameTable} {place : String × NameKind} {call : Call}

/-- Two outcomes of a call that cannot be told apart at a place. -/
structure Alike (place : String × NameKind) (out out' : Answer × NameTable) : Prop where
  answer : out.1 = out'.1
  names : out.2.namesAt place = out'.2.namesAt place

theorem namesAt_put (t : NameTable) (scope : String) (kind : NameKind) (names : Names) :
    (t.put scope kind names).namesAt (scope, kind) = names := by
  rw [namesAt, names_put, if_pos ⟨rfl, rfl⟩]

theorem namesAt_put_of_ne {scope : String} {kind : NameKind} (h : place ≠ (scope, kind))
    (names : Names) : (t.put scope kind names).namesAt place = t.namesAt place := by
  rw [namesAt, names_put, if_neg fun heq => h (Prod.ext heq.1 heq.2), namesAt]

theorem alike_assign {scope : String} {kind : NameKind}
    (h : t.namesAt (scope, kind) = t'.namesAt (scope, kind)) (raw : String) :
    Alike (scope, kind) (t.settle (t.assign scope kind raw)) (t'.settle (t'.assign scope kind raw)) := by
  have hnames : t'.names scope kind = t.names scope kind := h.symm
  have hlookup : t'.lookup scope kind raw = t.lookup scope kind raw := by
    rw [NameTable.lookup, NameTable.lookup, hnames]
  cases hident : t.lookup scope kind raw with
  | some ident =>
    simp only [assign, hlookup, hident, settle]
    exact ⟨rfl, h⟩
  | none =>
    cases hbase : Identifier.render? raw with
    | none =>
      simp only [assign, hlookup, hident, hbase, settle]
      exact ⟨rfl, h⟩
    | some base =>
      simp only [assign, hlookup, hident, hbase, settle, hnames]
      exact ⟨rfl, by rw [namesAt_put, namesAt_put]⟩

/-- Tables with the same names at its place answer a call alike. -/
theorem alike_answer (h : t.namesAt call.place = t'.namesAt call.place) :
    Alike call.place (t.answer call) (t'.answer call) := by
  cases call with
  | assign scope kind raw => exact alike_assign h raw
  | assignFresh scope kind raw =>
    refine alike_assign ?_ raw
    rw [namesAt_put, namesAt_put]
    exact congrArg (Names.forget raw) h
  | reserve scope kind ident =>
    refine ⟨rfl, ?_⟩
    show (t.put _ _ _).namesAt (scope, kind) = (t'.put _ _ _).namesAt (scope, kind)
    rw [namesAt_put, namesAt_put]
    exact congrArg (Names.reserve kind ident) h
  | lookup scope kind raw =>
    exact ⟨congrArg (fun names : Names => Except.ok (names.assigned.lookup raw)) h, h⟩

theorem namesAt_settle_of_ne {scope : String} {kind : NameKind} (h : place ≠ (scope, kind))
    (raw : String) : (t.settle (t.assign scope kind raw)).2.namesAt place = t.namesAt place := by
  cases hassign : t.assign scope kind raw with
  | ok out => exact names_assign hassign fun heq => h (Prod.ext heq.1 heq.2)
  | error e => rfl

/-- A call leaves the names of all other places as they are. -/
theorem namesAt_answer_of_ne (h : place ≠ call.place) :
    (t.answer call).2.namesAt place = t.namesAt place := by
  cases call with
  | assign scope kind raw => exact namesAt_settle_of_ne h raw
  | assignFresh scope kind raw => exact (namesAt_settle_of_ne h raw).trans (namesAt_put_of_ne h _)
  | reserve scope kind ident => exact namesAt_put_of_ne h _
  | lookup scope kind raw => rfl

/-! ### Calls in turn -/

variable {before before' calls calls' : List Call}

theorem callsAt_append (place : String × NameKind) (calls calls' : List Call) :
    callsAt place (calls ++ calls') = callsAt place calls ++ callsAt place calls' :=
  List.filter_append ..

theorem callsAt_eq_nil (h : ∀ call ∈ calls, call.place ≠ place) : callsAt place calls = [] := by
  simpa [callsAt] using h

theorem callsAt_cons_self (call : Call) (calls : List Call) :
    callsAt call.place (call :: calls) = call :: callsAt call.place calls :=
  List.filter_cons_of_pos (by simp)

theorem length_answerAll (calls : List Call) : (answerAll calls).1.length = calls.length := by
  induction calls using List.reverseRecOn with
  | nil => rfl
  | append_singleton calls call ih => simp [answerAll_concat, ih]

/-- The names of a place come from the calls about it. -/
theorem namesAt_answerAll (place : String × NameKind) (calls : List Call) :
    (answerAll calls).2.namesAt place = (answerAll (callsAt place calls)).2.namesAt place := by
  induction calls using List.reverseRecOn with
  | nil => rfl
  | append_singleton calls call ih =>
    rw [answerAll_concat, callsAt_append]
    -- The last call is made in both runs, or it leaves the place alone.
    by_cases hplace : call.place = place
    · subst hplace
      have hself : callsAt call.place [call] = [call] := callsAt_cons_self call []
      rw [hself, answerAll_concat]
      exact (alike_answer ih).names
    · have hnone : callsAt place [call] = [] := callsAt_eq_nil (by simpa using hplace)
      rw [hnone, List.append_nil, ← ih]
      exact namesAt_answer_of_ne (Ne.symm hplace)

theorem namesAt_eq_of_callsAt (h : callsAt place calls = callsAt place calls') :
    (answerAll calls).2.namesAt place = (answerAll calls').2.namesAt place := by
  rw [namesAt_answerAll, h, ← namesAt_answerAll]

theorem answersAfter_concat (before calls : List Call) (call : Call) :
    answersAfter before (calls ++ [call]) =
      answersAfter before calls ++ [((answerAll (before ++ calls)).2.answer call).1] := by
  rw [answersAfter, ← List.append_assoc, answerAll_concat, List.drop_append_of_le_length]
  · rfl
  · simp [length_answerAll]

/-- Of what came before, calls notice only what was about their own places. -/
theorem answersAfter_congr
    (h : ∀ call ∈ calls, callsAt call.place before = callsAt call.place before') :
    answersAfter before calls = answersAfter before' calls := by
  induction calls using List.reverseRecOn with
  | nil => simp [answersAfter, ← length_answerAll]
  | append_singleton calls call ih =>
    have hnames : (answerAll (before ++ calls)).2.namesAt call.place =
        (answerAll (before' ++ calls)).2.namesAt call.place := by
      apply namesAt_eq_of_callsAt
      rw [callsAt_append, callsAt_append, h call (by simp)]
    rw [answersAfter_concat, answersAfter_concat, ih fun c hc => h c (List.mem_append_left _ hc),
      (alike_answer hnames).answer]

/-- What a call is answered does not depend on later ones. -/
theorem getElem?_answerAll (before after : List Call) (call : Call) :
    (answerAll (before ++ call :: after)).1[before.length]? =
      some ((answerAll before).2.answer call).1 := by
  induction after using List.reverseRecOn with
  | nil =>
    rw [answerAll_concat, List.getElem?_append_right (by rw [length_answerAll])]
    simp [length_answerAll]
  | append_singleton after next ih =>
    rw [← List.cons_append, ← List.append_assoc, answerAll_concat,
      List.getElem?_append_left (by simp [length_answerAll]), ih]

/-! ### Calls about different places -/

variable {xs ys : List Call}

/-- Calls are answered as if those about other places had not come before. -/
theorem answersAfter_append (h : ∀ x ∈ xs, ∀ y ∈ ys, x.place ≠ y.place) (before : List Call) :
    answersAfter (before ++ ys) xs = answersAfter before xs := by
  apply answersAfter_congr
  intro x hx
  have hnone : callsAt x.place ys = [] := callsAt_eq_nil fun y hy => (h x hx y hy).symm
  rw [callsAt_append, hnone, List.append_nil]

/-- No place can tell in which order calls about different places were made. -/
theorem callsAt_comm (h : ∀ x ∈ xs, ∀ y ∈ ys, x.place ≠ y.place) (place : String × NameKind) :
    callsAt place (xs ++ ys) = callsAt place (ys ++ xs) := by
  rw [callsAt_append, callsAt_append]
  by_cases hplace : ∃ x ∈ xs, x.place = place
  · obtain ⟨x, hx, rfl⟩ := hplace
    have hnone : callsAt x.place ys = [] := callsAt_eq_nil fun y hy => (h x hx y hy).symm
    rw [hnone, List.append_nil, List.nil_append]
  · have hnone : callsAt place xs = [] := callsAt_eq_nil fun x hx heq => hplace ⟨x, hx, heq⟩
    rw [hnone, List.append_nil, List.nil_append]

/-- Calls about different places do not interfere. Each call is answered as if only those about
its own place had been made; so calls about some places and calls about others can change their
turns, with the same answers to them and to all later calls, and with the same names. -/
theorem answerAll_separate (before after : List Call) :
    (∀ call, ∃ answer, (answerAll (before ++ call :: after)).1[before.length]? = some answer ∧
      (answerAll (callsAt call.place (before ++ call :: after))).1[
        (callsAt call.place before).length]? = some answer) ∧
    ∀ xs ys, (∀ x ∈ xs, ∀ y ∈ ys, x.place ≠ y.place) →
      answersAfter (before ++ ys) xs = answersAfter before xs ∧
      answersAfter (before ++ xs) ys = answersAfter before ys ∧
      answersAfter (before ++ (xs ++ ys)) after = answersAfter (before ++ (ys ++ xs)) after ∧
      ∀ scope kind, (answerAll (before ++ (xs ++ ys) ++ after)).2.names scope kind =
        (answerAll (before ++ (ys ++ xs) ++ after)).2.names scope kind := by
  refine ⟨fun call => ⟨_, getElem?_answerAll before after call, ?_⟩, fun xs ys hplaces => ?_⟩
  · have hnames := namesAt_answerAll call.place before
    rw [callsAt_append, callsAt_cons_self, getElem?_answerAll, (alike_answer hnames).answer]
  · have hcomm : ∀ place, callsAt place (before ++ (xs ++ ys)) =
        callsAt place (before ++ (ys ++ xs)) := by
      intro place
      rw [callsAt_append, callsAt_comm hplaces, ← callsAt_append]
    refine ⟨answersAfter_append hplaces before,
      answersAfter_append (fun y hy x hx => (hplaces x hx y hy).symm) before,
      answersAfter_congr fun call _ => hcomm call.place, fun scope kind => ?_⟩
    have hafter : callsAt (scope, kind) (before ++ (xs ++ ys) ++ after) =
        callsAt (scope, kind) (before ++ (ys ++ xs) ++ after) := by
      rw [callsAt_append, hcomm, ← callsAt_append]
    exact namesAt_eq_of_callsAt hafter

end NameTable

namespace Sample

open NameTable

/-- Variables of one activity. -/
def driveCalls : List Call :=
  [.assignFresh "Rover::Drive" .localVar "x", .assignFresh "Rover::Drive" .localVar "x"]

/-- A parameter of the same activity and a variable of another, with the same text. -/
def otherCalls : List Call :=
  [.reserve "Rover::Drive" .parameter "x", .assign "Rover::Park" .localVar "x"]

theorem answerAll_separate_drive :
    answersAfter [] driveCalls = [.ok (some "x"), .ok (some "x_2")] ∧
    (∀ x ∈ driveCalls, ∀ y ∈ otherCalls, x.place ≠ y.place) ∧
    answersAfter otherCalls driveCalls = [.ok (some "x"), .ok (some "x_2")] := by
  have halone : answersAfter [] driveCalls = [.ok (some "x"), .ok (some "x_2")] := by
    decide +kernel
  have hplaces : ∀ x ∈ driveCalls, ∀ y ∈ otherCalls, x.place ≠ y.place := by
    simp [driveCalls, otherCalls, Call.place]
  refine ⟨halone, hplaces, ?_⟩
  rw [← halone]
  exact ((answerAll_separate [] []).2 driveCalls otherCalls hplaces).1

end Sample

end FlightGen
