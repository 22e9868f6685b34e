import FlightGen.Proofs.Flow.Operation

/-! Lowering an activity uses no more of the routines it calls than their interfaces: their
names and their parameters. -/

namespace FlightGen

/-- What callers know of a routine. -/
def Routine.interface (r : Routine) : Routine := { r with steps := [], calls := [] }

namespace Flow

variable {f : Flow} {callees : List (Nat × Routine)}

/-- The same activity with other routines behind its calls. -/
def withCallees (f : Flow) (callees : List (Nat × Routine)) : Flow := { f with callees }

/-- The routines in `callees` look to the activity like its own. -/
def Alike (f : Flow) (callees : List (Nat × Routine)) : Prop :=
  ∀ n target arguments, f.action n = .call target arguments →
    (callees.lookup n).map Routine.interface = (f.callees.lookup n).map Routine.interface

theorem action_withCallees (n : Nat) : (f.withCallees callees).action n = f.action n := rfl

/-! ### Objects and their order -/

theorem rootWithin_withCallees (steps n : Nat) :
    (f.withCallees callees).rootWithin steps n = f.rootWithin steps n := by
  induction steps generalizing n with
  | zero =>
    unfold rootWithin
    rw [action_withCallees]
    cases f.action n <;> rfl
  | succ steps ih =>
    unfold rootWithin
    rw [action_withCallees]
    cases f.action n with
    | write object feature value => exact ih object.node
    | _ => rfl

theorem root_withCallees : (f.withCallees callees).root = f.root := by
  funext o
  simp only [root, rootWithin_withCallees]
  rfl

theorem writes_withCallees : (f.withCallees callees).writes = f.writes := by
  have hwrite : (f.withCallees callees).write? = f.write? := by
    funext n
    unfold write?
    rw [root_withCallees]
    rfl
  unfold writes
  rw [hwrite]
  rfl

theorem order_withCallees : (f.withCallees callees).order = f.order := by
  have huse : (f.withCallees callees).use? = f.use? := by
    funext n
    unfold use?
    rw [root_withCallees]
    rfl
  unfold order graph uses
  rw [writes_withCallees, huse]
  rfl

theorem outletVar_withCallees : (f.withCallees callees).outletVar = f.outletVar := by
  funext vars o
  unfold outletVar
  rw [root_withCallees]

/-! ### Types -/

theorem Alike.head? (h : f.Alike callees) {n target : Nat} {arguments : List Argument}
    (hn : f.action n = .call target arguments) :
    ((f.withCallees callees).callees.lookup n).bind (·.outputs.head?) =
      (f.callees.lookup n).bind (·.outputs.head?) := by
  have houtputs := congrArg (Option.bind · (·.outputs.head?)) (h n target arguments hn)
  rw [Option.bind_map, Option.bind_map] at houtputs
  exact houtputs

theorem typeWithin_withCallees (h : f.Alike callees) (depth : Nat) (o : Outlet) :
    (f.withCallees callees).typeWithin depth o = f.typeWithin depth o := by
  induction depth generalizing o with
  | zero =>
    unfold typeWithin
    rw [action_withCallees]
    cases haction : f.action o.node with
    | call target arguments =>
      dsimp only
      rw [h.head? haction]
      rfl
    | parameter direction => cases direction <;> rfl
    | _ => rfl
  | succ depth ih =>
    unfold typeWithin
    rw [action_withCallees, root_withCallees]
    cases haction : f.action o.node with
    | call target arguments =>
      dsimp only
      rw [h.head? haction]
      rfl
    | parameter direction => cases direction <;> rfl
    | read object feature =>
      dsimp only
      rw [ih]
      rfl
    | write object feature value => exact bind_congr fun r => ih ⟨r, none⟩
    | _ => rfl

theorem typeOf_withCallees (h : f.Alike callees) : (f.withCallees callees).typeOf = f.typeOf :=
  funext fun o => typeWithin_withCallees h (f.size + 1) o

theorem feature_withCallees (h : f.Alike callees) : (f.withCallees callees).feature = f.feature := by
  funext n object name
  unfold feature
  rw [typeOf_withCallees h]
  rfl

theorem checkTypes_withCallees (h : f.Alike callees) :
    (f.withCallees callees).checkTypes = f.checkTypes := by
  have hexpect : (f.withCallees callees).expectType = f.expectType := by
    funext n o expected
    unfold expectType
    rw [typeOf_withCallees h]
    rfl
  have hcheck : (f.withCallees callees).checkNode = f.checkNode := by
    funext n
    unfold checkNode checkPin checkArgument
    rw [feature_withCallees h, hexpect]
    rfl
  unfold checkTypes
  rw [hcheck]
  rfl

/-! ### Steps -/

theorem operation_withCallees (h : f.Alike callees) (vars : List NodeVars) (written : List Nat)
    {n : Nat} {node : Node} (hnode : f.activity.nodes[n]? = some node) :
    (f.withCallees callees).operation vars written n node = f.operation vars written n node := by
  unfold operation inputLocal callArgument
  rw [outletVar_withCallees, feature_withCallees h]
  cases haction : node.action with
  | call target arguments =>
    have halike : (callees.lookup n).map Routine.interface =
        (f.callees.lookup n).map Routine.interface := by
      refine h n target arguments ?_
      simp [action, Activity.action, hnode, haction]
    dsimp only [withCallees]
    generalize callees.lookup n = found at halike
    generalize f.callees.lookup n = found' at halike
    cases found with
    | none =>
      cases found' with
      | none => rfl
      | some => cases halike
    | some r =>
      cases found' with
      | none => cases halike
      | some r' =>
        obtain ⟨component, raw, ident, inputs, outputs, steps⟩ := r
        obtain ⟨component', raw', ident', inputs', outputs', steps'⟩ := r'
        cases halike
        rfl
  | parameter direction => cases direction <;> rfl
  | _ => rfl

theorem steps_withCallees (h : f.Alike callees) : (f.withCallees callees).steps = f.steps := by
  have hstep : (f.withCallees callees).step = f.step := by
    funext vars written n
    unfold step
    have hnodes : (f.withCallees callees).activity.nodes[n]? = f.activity.nodes[n]? := rfl
    rw [hnodes]
    cases hnode : f.activity.nodes[n]? with
    | none => rfl
    | some node =>
      dsimp only
      rw [operation_withCallees h vars written hnode]
  funext order
  unfold steps
  rw [writes_withCallees, hstep]
  rfl

/-- Routines that look alike to an activity do not change what it is lowered to. -/
theorem lower_withCallees (h : f.Alike callees) : (f.withCallees callees).lower = f.lower := by
  unfold lower
  rw [order_withCallees, checkTypes_withCallees h, steps_withCallees h]
  rfl

/-- What is known of the routine of an activity before it is lowered. -/
def interface (f : Flow) : Routine where
  component := f.component.name.ident
  raw := f.activity.name.raw
  ident := f.activity.name.ident
  inputs := f.slots .input
  outputs := f.slots .output
  steps := []
  calls := []

theorem interface_of_lower {r : Routine} (h : f.lower = .ok r) : r.interface = f.interface := by
  obtain ⟨_, -, h⟩ := bind_eq_ok.1 h
  obtain ⟨_, -, h⟩ := bind_eq_ok.1 h
  obtain ⟨_, -, h⟩ := bind_eq_ok.1 h
  cases h
  rfl

end Flow

end FlightGen
