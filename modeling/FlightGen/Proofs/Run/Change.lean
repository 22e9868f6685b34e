import FlightGen.Proofs.Fallible
import FlightGen.Run

/-! Steps by what they change. What a step does depends only on the variables it uses, and it
changes only the variables it defines and at most one output. -/

namespace FlightGen

/-- New values of variables, the latest first, and of an output. -/
structure Change where
  bindings : Env Datum
  output : Option (Nat × Datum)

def Change.apply (e : Change) (p : Progress) : Progress :=
  ⟨e.bindings ++ p.env,
    match e.output with
    | some (slot, d) => p.outputs.set slot (some d)
    | none => p.outputs⟩

/-! ### Variables -/

section

variable {env : Env Datum} {x feature : String}

theorem datum_eq_ok {d : Datum} : env.datum x = .ok d ↔ env.lookup x = some d := by
  unfold Env.datum
  cases env.lookup x <;> simp

theorem scalar_eq_ok {v : Value} : env.scalar x = .ok v ↔ env.lookup x = some (.scalar v) := by
  unfold Env.scalar Env.datum
  cases env.lookup x with
  | none => simp [bind, Except.bind]
  | some d => cases d <;> simp [bind, Except.bind, pure, Except.pure]

theorem readFeature_eq_ok {v : Value} :
    readFeature env x feature = .ok v ↔
      ∃ r, env.lookup x = some (.record r) ∧ r.get? feature = some v := by
  unfold readFeature Env.record Env.datum
  cases env.lookup x with
  | none => simp [bind, Except.bind]
  | some d =>
    cases d with
    | scalar => simp [bind, Except.bind]
    | record r =>
      cases hget : r.get? feature <;> simp [bind, Except.bind, pure, Except.pure, hget]

theorem writeFeature_eq_ok {v : Value} {r' : Record} :
    writeFeature env x feature v = .ok r' ↔
      ∃ r, env.lookup x = some (.record r) ∧ r.set? feature v = some r' := by
  unfold writeFeature
  cases env.lookup x with
  | none => simp
  | some d =>
    cases d with
    | scalar => simp
    | record r => cases hset : r.set? feature v <;> simp [hset]

end

/-! ### Blocks -/

def BlockExport.binding (scope : Env Value) (e : BlockExport) : Except RunError (String × Datum) :=
  match scope.lookup e.name with
  | some v => .ok (e.outer, .scalar v)
  | none => .error (.unboundVar e.name)

/-- The values that outlive a block, the latest first. -/
def blockBindings (node : String) (locals : List BlockLocal) (body : List String)
    (exports : List BlockExport) (env : Env Datum) : Except RunError (Env Datum) := do
  let scope ← locals.mapM (·.initial env)
  let assignments ← readBody node body
  let scope ← assignments.foldlM Assignment.execute scope.reverse
  return (← exports.mapM (BlockExport.binding scope)).reverse

theorem foldlM_apply (scope : Env Value) (exports : List BlockExport) (env : Env Datum) :
    exports.foldlM (BlockExport.apply scope) env =
      (·.reverse ++ env) <$> exports.mapM (BlockExport.binding scope) := by
  induction exports generalizing env with
  | nil => rfl
  | cons e exports ih =>
    rw [List.foldlM_cons, List.mapM_cons]
    unfold BlockExport.apply BlockExport.binding
    cases scope.lookup e.name with
    | none => rfl
    | some v =>
      show exports.foldlM (BlockExport.apply scope) ((e.outer, .scalar v) :: env) =
        (·.reverse ++ env) <$> (exports.mapM (BlockExport.binding scope) >>= fun bindings =>
          pure ((e.outer, .scalar v) :: bindings))
      rw [ih, map_bind]
      cases exports.mapM (BlockExport.binding scope) with
      | error _ => rfl
      | ok bindings => simp [Functor.map, Except.map, bind, Except.bind, pure, Except.pure]

theorem runBlock_eq (node : String) (locals : List BlockLocal) (body : List String)
    (exports : List BlockExport) (env : Env Datum) :
    runBlock node locals body exports env =
      (· ++ env) <$> blockBindings node locals body exports env := by
  unfold runBlock blockBindings
  simp only [map_bind]
  refine bind_congr fun scope => bind_congr fun assignments => bind_congr fun scope => ?_
  rw [foldlM_apply]
  cases exports.mapM (BlockExport.binding scope) <;> rfl

/-! ### Steps -/

/-- What a step does, given the values of the variables. -/
def Step.change (call : Callee) (r : Routine) (arguments : List Datum) (env : Env Datum)
    (s : Step) : Except RunError Change :=
  match s.operation with
  | .receive parameter var _ _ => do return ⟨[(var, ← receive r arguments parameter)], none⟩
  | .create var record fields => .ok ⟨[(var, .record (Record.zeroed record fields))], none⟩
  | .literal var value => .ok ⟨[(var, .scalar value)], none⟩
  | .read var object feature _ => do
    return ⟨[(var, .scalar (← readFeature env object feature))], none⟩
  | .write object feature value => do
    let v ← env.scalar value
    return ⟨[(object, .record (← writeFeature env object feature v))], none⟩
  | .block locals body exports => do
    return ⟨← blockBindings s.node locals body exports env, none⟩
  | .call result target _ names => do
    let results ← call target (← names.mapM env.datum)
    match result, results with
    | none, _ => return ⟨[], none⟩
    | some (var, _), d :: _ => return ⟨[(var, d)], none⟩
    | some (var, _), [] => .error (.unboundVar var)
  | .fork _ | .join _ => .ok ⟨[], none⟩
  | .output slot var => do return ⟨[], some (slot, ← env.datum var)⟩

theorem Step.execute_eq (call : Callee) (r : Routine) (arguments : List Datum) (p : Progress)
    (s : Step) :
    s.execute call r arguments p = (·.apply p) <$> s.change call r arguments p.env := by
  unfold Step.execute Step.change
  cases s.operation with
  | receive parameter var type copy =>
    dsimp only
    cases receive r arguments parameter <;> rfl
  | create => rfl
  | literal => rfl
  | read var object feature scalar =>
    dsimp only
    cases readFeature p.env object feature <;> rfl
  | write object feature value =>
    dsimp only
    simp only [map_bind]
    rfl
  | block locals body exports =>
    dsimp only
    rw [runBlock_eq]
    cases blockBindings s.node locals body exports p.env <;> rfl
  | call result target method names =>
    dsimp only
    simp only [map_bind]
    refine bind_congr fun values => bind_congr fun results => ?_
    cases result with
    | none => rfl
    | some result => cases results <;> rfl
  | fork => rfl
  | join => rfl
  | output slot var =>
    dsimp only
    cases p.env.datum var <;> rfl

/-! ### Footprints -/

namespace Operation

/-- The variables whose values matter. -/
def uses : Operation → List String
  | .read _ object _ _ => [object]
  | .write object _ value => [object, value]
  | .block locals _ _ => locals.filterMap (·.source)
  | .call _ _ _ names => names
  | .output _ var => [var]
  | _ => []

/-- The variables that get new values. -/
def defines : Operation → List String
  | .receive _ var _ _ | .create var _ _ | .literal var _ | .read var _ _ _ => [var]
  | .write object _ _ => [object]
  | .block _ _ exports => exports.map (·.outer)
  | .call result _ _ _ => (result.map (·.1)).toList
  | _ => []

/-- The output that gets a value. -/
def slot? : Operation → Option Nat
  | .output slot _ => some slot
  | _ => none

end Operation

section

variable {env env' : Env Datum}

theorem datum_congr {x : String} (h : env.lookup x = env'.lookup x) :
    env.datum x = env'.datum x := by
  unfold Env.datum
  rw [h]

theorem scalar_congr {x : String} (h : env.lookup x = env'.lookup x) :
    env.scalar x = env'.scalar x := by
  unfold Env.scalar
  rw [datum_congr h]

theorem readFeature_congr {x feature : String} (h : env.lookup x = env'.lookup x) :
    readFeature env x feature = readFeature env' x feature := by
  unfold readFeature Env.record
  rw [datum_congr h]

theorem writeFeature_congr {x feature : String} {v : Value} (h : env.lookup x = env'.lookup x) :
    writeFeature env x feature v = writeFeature env' x feature v := by
  unfold writeFeature
  rw [h]

theorem mapM_congr {α β : Type} {f g : α → Except RunError β} {xs : List α}
    (h : ∀ x ∈ xs, f x = g x) : xs.mapM f = xs.mapM g := by
  induction xs with
  | nil => rfl
  | cons x xs ih =>
    obtain ⟨hx, hxs⟩ := List.forall_mem_cons.1 h
    rw [List.mapM_cons, List.mapM_cons, hx, ih hxs]

/-- A step makes the same change wherever the used variables have the same values. -/
theorem Step.change_congr {call : Callee} {r : Routine} {arguments : List Datum} {s : Step}
    (h : ∀ x ∈ s.operation.uses, env.lookup x = env'.lookup x) :
    s.change call r arguments env = s.change call r arguments env' := by
  unfold Step.change
  cases ho : s.operation with
  | read var object feature scalar =>
    rw [ho] at h
    dsimp only
    rw [readFeature_congr (h object (by simp [Operation.uses]))]
  | write object feature value =>
    rw [ho] at h
    dsimp only
    rw [scalar_congr (h value (by simp [Operation.uses]))]
    refine bind_congr fun v => ?_
    rw [writeFeature_congr (h object (by simp [Operation.uses]))]
  | block locals body exports =>
    rw [ho] at h
    have hlocals : locals.mapM (·.initial env) = locals.mapM (·.initial env') := by
      refine mapM_congr fun l hl => ?_
      unfold BlockLocal.initial
      cases hsource : l.source with
      | none => rfl
      | some source =>
        dsimp only
        rw [scalar_congr (h source (List.mem_filterMap.2 ⟨l, hl, hsource⟩))]
    dsimp only
    unfold blockBindings
    rw [hlocals]
  | call result target method names =>
    rw [ho] at h
    have hnames : names.mapM env.datum = names.mapM env'.datum :=
      mapM_congr fun x hx => datum_congr (h x hx)
    dsimp only
    rw [hnames]
  | output slot var =>
    rw [ho] at h
    dsimp only
    rw [datum_congr (h var (by simp [Operation.uses]))]
  | _ => rfl

theorem Step.change_eq_ok {call : Callee} {r : Routine} {arguments : List Datum} {s : Step}
    {e : Change} (h : s.change call r arguments env = .ok e) :
    (∀ x, x ∈ e.bindings.map Prod.fst → x ∈ s.operation.defines) ∧
      e.output.map Prod.fst = s.operation.slot? := by
  unfold Step.change at h
  cases ho : s.operation with
  | receive parameter var type copy =>
    rw [ho] at h
    obtain ⟨d, -, h⟩ := bind_eq_ok.1 h
    cases h
    simp [Operation.defines, Operation.slot?]
  | read var object feature scalar =>
    rw [ho] at h
    obtain ⟨v, -, h⟩ := bind_eq_ok.1 h
    cases h
    simp [Operation.defines, Operation.slot?]
  | write object feature value =>
    rw [ho] at h
    obtain ⟨v, -, h⟩ := bind_eq_ok.1 h
    obtain ⟨record, -, h⟩ := bind_eq_ok.1 h
    cases h
    simp [Operation.defines, Operation.slot?]
  | block locals body exports =>
    rw [ho] at h
    obtain ⟨bindings, hb, h⟩ := bind_eq_ok.1 h
    cases h
    obtain ⟨_, -, hb⟩ := bind_eq_ok.1 hb
    obtain ⟨_, -, hb⟩ := bind_eq_ok.1 hb
    obtain ⟨scope, -, hb⟩ := bind_eq_ok.1 hb
    obtain ⟨bs, hbs, hb⟩ := bind_eq_ok.1 hb
    cases hb
    refine ⟨fun x hx => ?_, rfl⟩
    rw [List.map_reverse, List.mem_reverse, List.mem_map] at hx
    obtain ⟨b, hb, rfl⟩ := hx
    obtain ⟨e, he, hbinding⟩ := (mem_of_mapM hbs).1 hb
    unfold BlockExport.binding at hbinding
    split at hbinding
    · cases hbinding
      exact List.mem_map.2 ⟨e, he, rfl⟩
    · cases hbinding
  | call result target method names =>
    rw [ho] at h
    obtain ⟨values, -, h⟩ := bind_eq_ok.1 h
    obtain ⟨results, -, h⟩ := bind_eq_ok.1 h
    split at h <;> cases h <;> simp [Operation.defines, Operation.slot?]
  | output slot var =>
    rw [ho] at h
    obtain ⟨d, -, h⟩ := bind_eq_ok.1 h
    cases h
    simp [Operation.slot?]
  | _ =>
    rw [ho] at h
    cases h
    simp [Operation.defines, Operation.slot?]

end

end FlightGen
