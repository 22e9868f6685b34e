import FlightGen.Proofs.Precedence
import FlightGen.Proofs.Record
import FlightGen.Proofs.Run.Change

/-! Steps in another order. Steps that do not touch each other's variables commute, and
lists of steps that differ only in the order of commuting steps have the same outcome. -/

namespace FlightGen

/-- Two states that no step can tell apart. -/
structure Progress.Same (p q : Progress) : Prop where
  lookup : ∀ x, p.env.lookup x = q.env.lookup x
  outputs : p.outputs = q.outputs

theorem Progress.Same.refl (p : Progress) : p.Same p := ⟨fun _ => rfl, rfl⟩

theorem Progress.Same.symm {p q : Progress} (h : p.Same q) : q.Same p :=
  ⟨fun x => (h.lookup x).symm, h.outputs.symm⟩

theorem Progress.Same.trans {p q o : Progress} (h : p.Same q) (h' : q.Same o) : p.Same o :=
  ⟨fun x => (h.lookup x).trans (h'.lookup x), h.outputs.trans h'.outputs⟩

/-- Two outcomes: both fail, or both end in states that no step can tell apart. -/
inductive Agree : Except RunError Progress → Except RunError Progress → Prop
  | ok {p q : Progress} (h : p.Same q) : Agree (.ok p) (.ok q)
  | error (e e' : RunError) : Agree (.error e) (.error e')

namespace Agree

theorem refl : ∀ x, Agree x x
  | .ok p => .ok (.refl p)
  | .error e => .error e e

theorem symm {x y : Except RunError Progress} (h : Agree x y) : Agree y x := by
  cases h with
  | ok h => exact .ok h.symm
  | error e e' => exact .error e' e

theorem trans {x y z : Except RunError Progress} (h : Agree x y) (h' : Agree y z) : Agree x z := by
  cases h with
  | ok h =>
    cases h' with
    | ok h' => exact .ok (h.trans h')
  | error e =>
    cases h' with
    | error _ e' => exact .error e e'

theorem of_ok {x y : Except RunError Progress} (h : ∀ p, x = .ok p → ∃ q, y = .ok q ∧ p.Same q)
    (h' : ∀ q, y = .ok q → ∃ p, x = .ok p) : Agree x y := by
  cases x with
  | ok p =>
    obtain ⟨q, rfl, hpq⟩ := h p rfl
    exact .ok hpq
  | error e =>
    cases y with
    | ok q =>
      obtain ⟨p, hp⟩ := h' q rfl
      cases hp
    | error e' => exact .error e e'

theorem bind {x y : Except RunError Progress} {f g : Progress → Except RunError Progress}
    (h : Agree x y) (hfg : ∀ p q, p.Same q → Agree (f p) (g q)) : Agree (x >>= f) (y >>= g) := by
  cases h with
  | ok h => exact hfg _ _ h
  | error e e' => exact .error e e'

theorem toOption_bind {α : Type} {x y : Except RunError Progress} {f : Progress → Except RunError α}
    (h : Agree x y) (hf : ∀ p q, p.Same q → f p = f q) :
    (x >>= f).toOption = (y >>= f).toOption := by
  cases h with
  | ok h => exact congrArg Except.toOption (hf _ _ h)
  | error e e' => rfl

end Agree

theorem lookup_append {α : Type} (xs ys : Env α) (x : String) :
    (xs ++ ys).lookup x = (xs.lookup x).or (ys.lookup x) := by
  induction xs with
  | nil => rfl
  | cons b xs ih =>
    rw [List.cons_append, List.lookup_cons, List.lookup_cons]
    cases x == b.1 with
    | false => exact ih
    | true => rfl

theorem lookup_eq_none {α : Type} {xs : Env α} {x : String} (h : x ∉ xs.map Prod.fst) :
    xs.lookup x = none := by
  rw [List.lookup_eq_none_iff]
  intro b hb
  simp only [bne_iff_ne, ne_eq]
  rintro rfl
  exact h (List.mem_map.2 ⟨b, hb, rfl⟩)

theorem lookup_append_of_notMem {α : Type} {xs ys : Env α} {x : String}
    (h : x ∉ xs.map Prod.fst) : (xs ++ ys).lookup x = ys.lookup x := by
  rw [lookup_append, lookup_eq_none h, Option.none_or]

theorem Progress.Same.apply {p q : Progress} (h : p.Same q) (e : Change) :
    (e.apply p).Same (e.apply q) where
  lookup x := by simp [Change.apply, lookup_append, h.lookup x]
  outputs := by simp [Change.apply, h.outputs]

section

variable {call : Callee} {r : Routine} {arguments : List Datum}

theorem agree_execute {p q : Progress} (h : p.Same q) (s : Step) :
    Agree (s.execute call r arguments p) (s.execute call r arguments q) := by
  rw [Step.execute_eq, Step.execute_eq, Step.change_congr fun x _ => h.lookup x]
  cases s.change call r arguments q.env with
  | error e => exact .error e e
  | ok e => exact .ok (h.apply e)

theorem agree_foldlM {p q : Progress} (h : p.Same q) (steps : List Step) :
    Agree (steps.foldlM (Step.execute call r arguments) p)
      (steps.foldlM (Step.execute call r arguments) q) := by
  induction steps generalizing p q with
  | nil => exact .ok h
  | cons s steps ih =>
    rw [List.foldlM_cons, List.foldlM_cons]
    exact (agree_execute h s).bind fun _ _ => ih

/-! ### Commuting steps -/

variable (call r arguments) in
/-- Two steps whose order does not matter. -/
def Commutes (s t : Step) : Prop := ∀ p,
  Agree (s.execute call r arguments p >>= (t.execute call r arguments ·))
    (t.execute call r arguments p >>= (s.execute call r arguments ·))

/-- Neither step changes what the other one uses or changes. -/
structure Apart (o o' : Operation) : Prop where
  defines : ∀ x ∈ o.defines, x ∉ o'.defines
  uses : ∀ x ∈ o.defines, x ∉ o'.uses
  used : ∀ x ∈ o'.defines, x ∉ o.uses
  slots : ∀ i ∈ o.slot?, i ∉ o'.slot?

theorem Change.same_apply {e e' : Change} (hkeys : ∀ x ∈ e.bindings.map Prod.fst,
    x ∉ e'.bindings.map Prod.fst) (hslots : ∀ i ∈ e.output.map Prod.fst, i ∉ e'.output.map Prod.fst)
    (p : Progress) : (e'.apply (e.apply p)).Same (e.apply (e'.apply p)) where
  lookup x := by
    simp only [Change.apply, lookup_append]
    by_cases hx : x ∈ e.bindings.map Prod.fst
    · rw [lookup_eq_none (hkeys x hx), Option.none_or, Option.none_or]
    · rw [lookup_eq_none hx, Option.none_or, Option.none_or]
  outputs := by
    obtain ⟨bindings, output⟩ := e
    obtain ⟨bindings', output'⟩ := e'
    cases output with
    | none => rfl
    | some o =>
      cases output' with
      | none => rfl
      | some o' =>
        have hne : o.1 ≠ o'.1 := fun heq => hslots o.1 (by simp) (by simp [heq])
        simp only [Change.apply]
        exact List.set_comm _ _ hne

/-- After a step that is apart, a step makes the same change as before it. -/
theorem Apart.change_eq {s t : Step} (h : Apart s.operation t.operation) {p : Progress} {e : Change}
    (he : s.change call r arguments p.env = .ok e) :
    t.change call r arguments (e.apply p).env = t.change call r arguments p.env := by
  refine Step.change_congr fun x hx => lookup_append_of_notMem fun hmem => ?_
  exact h.uses x ((Step.change_eq_ok he).1 x hmem) hx

theorem Apart.symm {o o' : Operation} (h : Apart o o') : Apart o' o :=
  ⟨fun x hx hx' => h.defines x hx' hx, h.used, h.uses, fun i hi hi' => h.slots i hi' hi⟩

theorem Apart.commutes {s t : Step} (h : Apart s.operation t.operation) :
    Commutes call r arguments s t := by
  intro p
  simp only [Step.execute_eq]
  cases hs : s.change call r arguments p.env with
  | error e =>
    cases ht : t.change call r arguments p.env with
    | error e' => exact .error e e'
    | ok e' =>
      show Agree (.error e) ((·.apply (e'.apply p)) <$> s.change call r arguments (e'.apply p).env)
      rw [h.symm.change_eq ht, hs]
      exact .error e e
  | ok e =>
    show Agree ((·.apply (e.apply p)) <$> t.change call r arguments (e.apply p).env) _
    rw [h.change_eq hs]
    cases ht : t.change call r arguments p.env with
    | error e' => exact .error e' e'
    | ok e' =>
      show Agree (.ok (e'.apply (e.apply p)))
        ((·.apply (e'.apply p)) <$> s.change call r arguments (e'.apply p).env)
      rw [h.symm.change_eq ht, hs]
      obtain ⟨hkeys, hslot⟩ := Step.change_eq_ok hs
      obtain ⟨hkeys', hslot'⟩ := Step.change_eq_ok ht
      refine .ok (Change.same_apply (fun x hx hx' => ?_) (fun i hi hi' => ?_) p)
      · exact h.defines x (hkeys x hx) (hkeys' x hx')
      · exact h.slots i (hslot ▸ hi) (hslot' ▸ hi')

theorem Commutes.symm {s t : Step} (h : Commutes call r arguments s t) :
    Commutes call r arguments t s :=
  fun p => (h p).symm

theorem Commutes.of_ok {s t : Step}
    (h : ∀ p q o, s.execute call r arguments p = .ok q → t.execute call r arguments q = .ok o →
      ∃ q' o', t.execute call r arguments p = .ok q' ∧ s.execute call r arguments q' = .ok o' ∧
        o.Same o')
    (h' : ∀ p q o, t.execute call r arguments p = .ok q → s.execute call r arguments q = .ok o →
      ∃ q' o', s.execute call r arguments p = .ok q' ∧ t.execute call r arguments q' = .ok o') :
    Commutes call r arguments s t := by
  intro p
  refine .of_ok (fun o ho => ?_) fun o ho => ?_
  · obtain ⟨q, hq, ho⟩ := bind_eq_ok.1 ho
    obtain ⟨q', o', hq', ho', hsame⟩ := h p q o hq ho
    exact ⟨o', bind_eq_ok.2 ⟨q', hq', ho'⟩, hsame⟩
  · obtain ⟨q, hq, ho⟩ := bind_eq_ok.1 ho
    obtain ⟨q', o', hq', ho'⟩ := h' p q o hq ho
    exact ⟨o', bind_eq_ok.2 ⟨q', hq', ho'⟩⟩

theorem execute_read {s : Step} {x object feature : String} {scalar : Scalar}
    (hs : s.operation = .read x object feature scalar) {p q : Progress} :
    s.execute call r arguments p = .ok q ↔ ∃ record v, p.env.lookup object = some (.record record) ∧
      record.get? feature = some v ∧ q = p.bind x (.scalar v) := by
  unfold Step.execute
  rw [hs]
  simp only [bind_eq_ok, readFeature_eq_ok, pure_eq_ok]
  constructor
  · rintro ⟨v, ⟨record, hrecord, hget⟩, rfl⟩
    exact ⟨record, v, hrecord, hget, rfl⟩
  · rintro ⟨record, v, hrecord, hget, rfl⟩
    exact ⟨v, ⟨record, hrecord, hget⟩, rfl⟩

theorem execute_write {s : Step} {object feature x : String}
    (hs : s.operation = .write object feature x) {p q : Progress} :
    s.execute call r arguments p = .ok q ↔ ∃ v record record', p.env.lookup x = some (.scalar v) ∧
      p.env.lookup object = some (.record record) ∧ record.set? feature v = some record' ∧
      q = p.bind object (.record record') := by
  unfold Step.execute
  rw [hs]
  simp only [bind_eq_ok, scalar_eq_ok, writeFeature_eq_ok, pure_eq_ok]
  constructor
  · rintro ⟨v, hv, record', ⟨record, hrecord, hset⟩, rfl⟩
    exact ⟨v, record, record', hv, hrecord, hset, rfl⟩
  · rintro ⟨v, record, record', hv, hrecord, hset, rfl⟩
    exact ⟨v, hv, record', ⟨record, hrecord, hset⟩, rfl⟩

theorem lookup_bind (p : Progress) (x y : String) (d : Datum) :
    (p.bind x d).env.lookup y = if y = x then some d else p.env.lookup y := by
  simp only [Progress.bind, List.lookup_cons]
  by_cases h : y = x
  · simp [h]
  · have hne : (y == x) = false := by simpa using h
    simp [h, hne]

theorem same_bind_bind (p : Progress) {x y : String} (hne : x ≠ y) (d d' : Datum) :
    ((p.bind x d).bind y d').Same ((p.bind y d').bind x d) where
  lookup z := by
    simp only [lookup_bind]
    grind
  outputs := rfl

/-- Reading a feature and writing another one. -/
theorem commutes_read_write {s t : Step} {x object feature feature' v : String} {scalar : Scalar}
    (hs : s.operation = .read x object feature scalar)
    (ht : t.operation = .write object feature' v) (hfeature : feature ≠ feature')
    (hobject : x ≠ object) (hv : x ≠ v) : Commutes call r arguments s t := by
  refine .of_ok (fun p q o hq ho => ?_) fun p q o hq ho => ?_
  · obtain ⟨record, w, hrecord, hget, rfl⟩ := (execute_read hs).1 hq
    obtain ⟨u, record₁, record', hu, hrecord₁, hset, rfl⟩ := (execute_write ht).1 ho
    rw [lookup_bind, if_neg (Ne.symm hv)] at hu
    rw [lookup_bind, if_neg hobject.symm, hrecord] at hrecord₁
    cases hrecord₁
    refine ⟨p.bind object (.record record'), _, (execute_write ht).2
      ⟨u, record, record', hu, hrecord, hset, rfl⟩, (execute_read hs).2 ⟨record', w, ?_, ?_, rfl⟩,
      same_bind_bind p hobject _ _⟩
    · rw [lookup_bind, if_pos rfl]
    · rw [Record.get?_set? hset, if_neg hfeature, hget]
  · obtain ⟨u, record, record', hu, hrecord, hset, rfl⟩ := (execute_write ht).1 hq
    obtain ⟨record₁, w, hrecord₁, hget, rfl⟩ := (execute_read hs).1 ho
    rw [lookup_bind, if_pos rfl] at hrecord₁
    cases hrecord₁
    rw [Record.get?_set? hset, if_neg hfeature] at hget
    refine ⟨p.bind x (.scalar w), _, (execute_read hs).2 ⟨record, w, hrecord, hget, rfl⟩,
      (execute_write ht).2 ⟨u, record, record', ?_, ?_, hset, rfl⟩⟩
    · rw [lookup_bind, if_neg (Ne.symm hv), hu]
    · rw [lookup_bind, if_neg hobject.symm, hrecord]

theorem execute_write_write {s t : Step} {object feature feature' x x' : String}
    (hs : s.operation = .write object feature x) (ht : t.operation = .write object feature' x')
    (hfeature : feature ≠ feature') (hx : x ≠ object) (hx' : x' ≠ object) {p q o : Progress}
    (hq : s.execute call r arguments p = .ok q) (ho : t.execute call r arguments q = .ok o) :
    ∃ q' o', t.execute call r arguments p = .ok q' ∧ s.execute call r arguments q' = .ok o' ∧
      o.Same o' := by
  obtain ⟨v, record, record₁, hv, hrecord, hset, rfl⟩ := (execute_write hs).1 hq
  obtain ⟨v', record₁', record₂, hv', hrecord₁, hset', rfl⟩ := (execute_write ht).1 ho
  rw [lookup_bind, if_neg hx'] at hv'
  rw [lookup_bind, if_pos rfl] at hrecord₁
  cases hrecord₁
  have hcomm := Record.set?_comm hfeature v v' record
  rw [hset, Option.bind_some, hset'] at hcomm
  obtain ⟨record₁', hfirst, hsecond⟩ := Option.bind_eq_some_iff.1 hcomm.symm
  refine ⟨p.bind object (.record record₁'), _, (execute_write ht).2
    ⟨v', record, record₁', hv', hrecord, hfirst, rfl⟩, (execute_write hs).2
    ⟨v, record₁', record₂, ?_, ?_, hsecond, rfl⟩, ?_, rfl⟩
  · rw [lookup_bind, if_neg hx, hv]
  · rw [lookup_bind, if_pos rfl]
  · intro y
    simp only [lookup_bind]
    split <;> rfl

/-- Writing two features of one object. -/
theorem commutes_write_write {s t : Step} {object feature feature' x x' : String}
    (hs : s.operation = .write object feature x) (ht : t.operation = .write object feature' x')
    (hfeature : feature ≠ feature') (hx : x ≠ object) (hx' : x' ≠ object) :
    Commutes call r arguments s t := by
  refine .of_ok (fun p q o => execute_write_write hs ht hfeature hx hx') fun p q o hq ho => ?_
  obtain ⟨q', o', hq', ho', -⟩ := execute_write_write ht hs hfeature.symm hx' hx hq ho
  exact ⟨q', o', hq', ho'⟩

/-! ### Permutations -/

/-- A step moves to the front past steps with which it commutes. -/
theorem agree_move {s : Step} {front : List Step} (h : ∀ t ∈ front, Commutes call r arguments t s)
    (rest : List Step) (p : Progress) :
    Agree ((front ++ s :: rest).foldlM (Step.execute call r arguments) p)
      ((s :: front ++ rest).foldlM (Step.execute call r arguments) p) := by
  induction front generalizing p with
  | nil => exact .refl _
  | cons t front ih =>
    obtain ⟨ht, hfront⟩ := List.forall_mem_cons.1 h
    have hmove : Agree ((t :: (front ++ s :: rest)).foldlM (Step.execute call r arguments) p)
        ((t :: s :: (front ++ rest)).foldlM (Step.execute call r arguments) p) := by
      rw [List.foldlM_cons, List.foldlM_cons]
      refine (Agree.refl _).bind fun q q' hq => ?_
      exact (agree_foldlM hq _).trans (ih hfront q')
    refine hmove.trans ?_
    simp only [List.cons_append, List.foldlM_cons, ← bind_assoc]
    exact (ht p).bind fun q q' hq => agree_foldlM hq _

/-- Lists that differ only in the order of commuting steps have the same outcome. -/
theorem agree_of_perm {xs ys : List Step} (hperm : xs.Perm ys)
    (h : ∀ s t, [s, t].Sublist xs → [t, s].Sublist ys → Commutes call r arguments s t)
    (p : Progress) :
    Agree (xs.foldlM (Step.execute call r arguments) p)
      (ys.foldlM (Step.execute call r arguments) p) := by
  induction xs generalizing ys p with
  | nil =>
    cases hperm.nil_eq
    exact .refl _
  | cons s xs ih =>
    obtain ⟨front, rest, rfl⟩ := List.append_of_mem (hperm.subset List.mem_cons_self)
    have hperm' : xs.Perm (front ++ rest) := (List.perm_cons s).1 (hperm.trans List.perm_middle)
    have hfront : ∀ t ∈ front, Commutes call r arguments t s := by
      intro t ht
      refine (h s t ?_ (before_append_cons ht)).symm
      exact before_cons_iff.2 (.inr ⟨rfl, hperm'.mem_iff.2 (List.mem_append_left _ ht)⟩)
    refine Agree.trans ?_ (agree_move hfront rest p).symm
    rw [List.cons_append, List.foldlM_cons, List.foldlM_cons]
    refine (Agree.refl _).bind fun q q' hq => ?_
    refine (agree_foldlM hq xs).trans (ih hperm' (fun t u htu hut => ?_) q')
    refine h t u (htu.cons s) (hut.trans ?_)
    exact (List.Sublist.refl front).append (List.sublist_cons_self s rest)

end

end FlightGen
