import Mathlib.Data.List.Nodup
import FlightGen.Proofs.Record
import FlightGen.Proofs.Run.Change

/-! Data that fit their types. A record fits if it has every declared field; what values
a field or a variable may have is left open, so that data may match in shape or exactly. -/

namespace FlightGen

/-- A datum of a type, where `ok` says which values a scalar type admits. -/
inductive Datum.Fits (records : List RecordType) (ok : Scalar → Value → Prop) :
    DataType → Datum → Prop
  | scalar {s : Scalar} {v : Value} (h : ok s v) : Fits records ok (.scalar s) (.scalar v)
  | record {r : Record}
      (h : ∀ t ∈ records, t.name.ident = r.name → ∀ field ∈ t.fields,
        ∃ v, r.get? field.name.ident = some v ∧ ok field.scalar v) :
      Fits records ok (.record r.name) (.record r)

/-- Data that fit slots, one for each. -/
def Datum.FitAll (records : List RecordType) (ok : Scalar → Value → Prop) (slots : List Slot)
    (data : List Datum) : Prop :=
  List.Forall₂ (fun slot d => Datum.Fits records ok slot.type d) slots data

/-- Data in the shapes of slots: scalars of any kind, and records with all their fields. -/
def Datum.Shaped (records : List RecordType) : List Slot → List Datum → Prop :=
  Datum.FitAll records fun _ _ => True

/-- Data of exactly the types of slots. -/
def Datum.Typed (records : List RecordType) : List Slot → List Datum → Prop :=
  Datum.FitAll records fun scalar v => scalar.accepts v

variable {records : List RecordType} {ok : Scalar → Value → Prop}

theorem Value.scalar_zero (s : Scalar) : s.zero.scalar = s := by
  cases s <;> rfl

/-! ### Records -/

theorem lookup_zeroed {fields : List Field} (hfields : (fields.map (·.name.ident)).Nodup)
    {field : Field} (h : field ∈ fields) (name : String) :
    (Record.zeroed name (fields.map fun f => (f.name.ident, f.scalar))).get? field.name.ident =
      some field.scalar.zero := by
  simp only [Record.get?, Record.zeroed, List.map_map, Function.comp_def]
  exact lookup_of_nodup hfields h

/-- A new object has all its fields. -/
theorem fits_zeroed (hok : ∀ v : Value, ok v.scalar v)
    (hrecords : (records.map (·.name.ident)).Nodup)
    (hfields : ∀ t ∈ records, (t.fields.map (·.name.ident)).Nodup) {t : RecordType}
    (ht : t ∈ records) :
    Datum.Fits records ok (.record t.name.ident) (.record (Record.zeroed t.name.ident
      (t.fields.map fun f => (f.name.ident, f.scalar)))) := by
  refine .record (r := Record.zeroed _ _) fun t' ht' hname field hfield => ?_
  have htt : t' = t := List.inj_on_of_nodup_map hrecords ht' ht hname
  subst htt
  refine ⟨field.scalar.zero, lookup_zeroed (hfields _ ht) hfield _, ?_⟩
  have hzero := hok field.scalar.zero
  rwa [Value.scalar_zero] at hzero

/-- A record that fits keeps fitting if a field gets a value of its type. -/
theorem fits_set {r : Record} {t : RecordType} {field : Field} {v : Value}
    (hrecords : (records.map (·.name.ident)).Nodup)
    (hfields : ∀ t ∈ records, (t.fields.map (·.name.ident)).Nodup) (ht : t ∈ records)
    (hfield : field ∈ t.fields)
    (hr : Datum.Fits records ok (.record t.name.ident) (.record r)) (hv : ok field.scalar v) :
    ∃ r', r.set? field.name.ident v = some r' ∧
      Datum.Fits records ok (.record t.name.ident) (.record r') := by
  generalize hident : t.name.ident = ident at hr
  cases hr with
  | record h =>
    obtain ⟨old, hold, -⟩ := h t ht hident field hfield
    have hsome : (r.set? field.name.ident v).isSome = true := by
      rw [Record.isSome_set?, hold]
      rfl
    obtain ⟨r', hr'⟩ := Option.isSome_iff_exists.1 hsome
    refine ⟨r', hr', ?_⟩
    rw [← Record.name_set? hr']
    refine .record fun t' ht' hname field' hfield' => ?_
    rw [Record.name_set? hr'] at hname
    have htt : t' = t := List.inj_on_of_nodup_map hrecords ht' ht (hname.trans hident.symm)
    subst htt
    rw [Record.get?_set? hr']
    split
    · rename_i heq
      have hff : field' = field := List.inj_on_of_nodup_map (hfields _ ht) hfield' hfield heq
      subst hff
      exact ⟨v, rfl, hv⟩
    · exact h t' ht' hname field' hfield'

/-! ### Blocks -/

/-- Errors that a block may raise: its text is unreadable, or the value of an expression
in it is not defined. -/
inductive Step.Faults (s : Step) : RunError → Prop
  | unreadable {locals : List BlockLocal} {body : List String} {exports : List BlockExport}
      {e : ParseError} (h : s.operation = .block locals body exports)
      (he : Assignment.parseAll ("\n".intercalate body) = .error e) :
      Faults s (.unreadableBody s.node e)
  | expression {locals : List BlockLocal} {body : List String} {exports : List BlockExport}
      {assignments : List Assignment} {a : Assignment} {scope : Env Value} {e : EvalError}
      (h : s.operation = .block locals body exports)
      (hbody : Assignment.parseAll ("\n".intercalate body) = .ok assignments)
      (ha : a ∈ assignments) (he : a.value.eval (scope.lookup ·) = .error e) :
      Faults s (.expression e)

theorem lookup_isSome {α : Type} {env : Env α} {x : String} (h : x ∈ env.map Prod.fst) :
    ∃ a, env.lookup x = some a := by
  cases hlookup : env.lookup x with
  | some a => exact ⟨a, rfl⟩
  | none =>
    obtain ⟨entry, hentry, rfl⟩ := List.mem_map.1 h
    simpa using List.lookup_eq_none_iff.1 hlookup entry hentry

/-- Variables of a block with values of their types. -/
def Env.Holds (ok : Scalar → Value → Prop) (locals : List BlockLocal) (scope : Env Value) : Prop :=
  List.Forall₂ (fun l entry => entry.1 = l.name ∧ ok l.scalar entry.2) locals scope

/-- What outlives a block, the latest first: a scalar of its type for each export. -/
def Env.Exports (ok : Scalar → Value → Prop) (exports : List BlockExport) (bindings : Env Datum) :
    Prop :=
  List.Forall₂ (fun e b => ∃ v, b = (e.outer, .scalar v) ∧ ok e.scalar v) exports bindings.reverse

/-- A block that yields scalars of the right types wherever it starts from such, unless it fails
with one of the errors `E`. -/
def BlockYields (ok : Scalar → Value → Prop) (E : RunError → Prop) (node : String)
    (locals : List BlockLocal) (body : List String) (exports : List BlockExport) : Prop :=
  ∀ env : Env Datum,
    (∀ l ∈ locals, ∀ source ∈ l.source, ∃ v, env.lookup source = some (.scalar v) ∧ ok l.scalar v) →
    (∀ e ∈ exports, e.name ∈ locals.map (·.name)) →
    Yields E (Env.Exports ok exports) (blockBindings node locals body exports env)

section

variable {s : Step} {locals : List BlockLocal} {body : List String} {exports : List BlockExport}
  {env : Env Datum} {scope : Env Value}

theorem BlockYields.mono {E E' : RunError → Prop} {node : String}
    (h : BlockYields ok E node locals body exports) (hE : ∀ e, E e → E' e) :
    BlockYields ok E' node locals body exports :=
  fun env hlocals hexports => (h env hlocals hexports).mono hE fun _ hbindings => hbindings

theorem Env.Holds.names (h : scope.Holds ok locals) :
    scope.map Prod.fst = locals.map (·.name) :=
  map_eq_of_forall₂ h fun _ _ hentry => hentry.1

theorem Env.Exports.outer {bindings : Env Datum} (h : bindings.Exports ok exports) :
    bindings.map Prod.fst = (exports.map (·.outer)).reverse := by
  rw [← List.reverse_inj, ← List.map_reverse, List.reverse_reverse]
  refine map_eq_of_forall₂ h ?_
  rintro e b ⟨v, rfl, -⟩
  rfl

theorem exists_scope (hok : ∀ v : Value, ok v.scalar v)
    (h : ∀ l ∈ locals, ∀ source ∈ l.source, ∃ v, env.lookup source = some (.scalar v) ∧
      ok l.scalar v) :
    ∃ scope, locals.mapM (·.initial env) = .ok scope ∧ Env.Holds ok locals scope := by
  have hinitial : ∀ l ∈ locals, ∃ entry, l.initial env = .ok entry ∧ entry.1 = l.name ∧
      ok l.scalar entry.2 := by
    intro l hl
    unfold BlockLocal.initial
    cases hsource : l.source with
    | none => exact ⟨_, rfl, rfl, by simpa [Value.scalar_zero] using hok l.scalar.zero⟩
    | some source =>
      obtain ⟨v, hv, hfits⟩ := h l hl source hsource
      exact ⟨(l.name, v), bind_eq_ok.2 ⟨v, scalar_eq_ok.2 hv, rfl⟩, rfl, hfits⟩
  obtain ⟨scope, hscope⟩ := exists_forall₂_iff.2 hinitial
  exact ⟨scope, mapM_eq_ok.2 (hscope.imp fun _ _ h => h.1), hscope.imp fun _ _ h => h.2⟩

/-- Assignments fail only over their expressions, and no variable is lost. -/
theorem yields_assignments (ho : s.operation = .block locals body exports)
    {assignments : List Assignment}
    (hbody : Assignment.parseAll ("\n".intercalate body) = .ok assignments)
    {rest : List Assignment} (hrest : rest ⊆ assignments) {names : List String}
    (hnames : names ⊆ scope.map Prod.fst) :
    Yields s.Faults (fun scope' => names ⊆ scope'.map Prod.fst)
      (rest.foldlM Assignment.execute scope) := by
  induction rest generalizing scope with
  | nil => exact hnames
  | cons a rest ih =>
    obtain ⟨ha, hrest⟩ := List.cons_subset.1 hrest
    rw [List.foldlM_cons]
    unfold Assignment.execute
    cases heval : a.value.eval (scope.lookup ·) with
    | error e => exact .expression ho hbody ha heval
    | ok v => exact ih hrest fun x hx => List.mem_cons_of_mem _ (hnames hx)

theorem exists_bindings
    (h : ∀ e ∈ exports, ∃ v, scope.lookup e.name = some v ∧ ok e.scalar v) :
    ∃ bindings, exports.mapM (BlockExport.binding scope) = .ok bindings ∧
      Env.Exports ok exports bindings.reverse := by
  have hbinding : ∀ e ∈ exports, ∃ b, BlockExport.binding scope e = .ok b ∧
      ∃ v, b = (e.outer, .scalar v) ∧ ok e.scalar v := by
    intro e he
    obtain ⟨v, hv, hfits⟩ := h e he
    exact ⟨_, by rw [BlockExport.binding, hv], v, rfl, hfits⟩
  obtain ⟨bindings, hbindings⟩ := exists_forall₂_iff.2 hbinding
  refine ⟨bindings, mapM_eq_ok.2 (hbindings.imp fun _ _ h => h.1), ?_⟩
  rw [Env.Exports, List.reverse_reverse]
  exact hbindings.imp fun _ _ h => h.2

/-- A block with bound inputs binds all its exports to scalars, unless it faults. -/
theorem blockYields_of_operation (ho : s.operation = .block locals body exports)
    (hok : ∀ t v, ok t v) : BlockYields ok s.Faults s.node locals body exports := by
  intro env hlocals hexports
  obtain ⟨scope, hscope, hholds⟩ := exists_scope (fun v => hok _ v) hlocals
  unfold blockBindings
  refine .bind (Q := (· = scope)) (.of_eq_ok hscope rfl) ?_
  rintro scope rfl
  cases hbody : Assignment.parseAll ("\n".intercalate body) with
  | error e =>
    unfold readBody
    rw [hbody]
    exact .unreadable ho hbody
  | ok assignments =>
    have hread : readBody s.node body = .ok assignments := mapError_eq_ok.2 hbody
    have hstart : locals.map (·.name) ⊆ scope.reverse.map Prod.fst := by
      rw [← hholds.names, List.map_reverse]
      exact List.subset_reverse.2 (List.Subset.refl _)
    refine .bind (Q := (· = assignments)) (.of_eq_ok hread rfl) ?_
    rintro assignments rfl
    refine .bind (yields_assignments ho hbody (List.Subset.refl _) hstart) fun final hfinal => ?_
    have hbound : ∀ e ∈ exports, ∃ v, final.lookup e.name = some v ∧ ok e.scalar v := by
      intro e he
      obtain ⟨v, hv⟩ := lookup_isSome (hfinal (hexports e he))
      exact ⟨v, hv, hok _ v⟩
    obtain ⟨bindings, hbindings, hfits⟩ := exists_bindings hbound
    rw [hbindings]
    exact hfits

end

end FlightGen
