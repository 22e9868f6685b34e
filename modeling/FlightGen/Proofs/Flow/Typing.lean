import FlightGen.Flow.Lowering
import FlightGen.Proofs.Flow.Root

/-! Types of outlets. A type that was found is found at every greater depth, and an
object has the type of its root. -/

namespace FlightGen.Flow

variable {f : Flow}

theorem typeWithin_read {depth : Nat} {o object : Outlet} {feature : String}
    (h : f.action o.node = .read object feature) :
    f.typeWithin (depth + 1) o = (do
      let field ← f.featureOf o.node feature (← f.typeWithin depth object)
      return .scalar field.scalar) := by
  conv_lhs => unfold typeWithin
  rw [h]

theorem typeWithin_write {depth : Nat} {o object value : Outlet} {feature : String}
    (h : f.action o.node = .write object feature value) :
    f.typeWithin (depth + 1) o = (do f.typeWithin depth ⟨← f.root o, none⟩) := by
  conv_lhs => unfold typeWithin
  rw [h]

/-- Other nodes have a type of their own. -/
theorem typeWithin_own {o : Outlet} (hread : ∀ object feature, f.action o.node ≠ .read object feature)
    (hwrite : ∀ object feature value, f.action o.node ≠ .write object feature value) (depth : Nat) :
    f.typeWithin depth o = f.typeWithin 0 o := by
  unfold typeWithin
  cases haction : f.action o.node with
  | read object feature => exact absurd haction (hread _ _)
  | write object feature value => exact absurd haction (hwrite _ _ _)
  | parameter direction => cases direction <;> rfl
  | _ => rfl

theorem typeWithin_mono {depth depth' : Nat} {o : Outlet} {type : DataType}
    (h : f.typeWithin depth o = .ok type) (hle : depth ≤ depth') : f.typeWithin depth' o = .ok type := by
  induction depth generalizing depth' o type with
  | zero =>
    cases haction : f.action o.node with
    | read | write =>
      unfold typeWithin at h
      rw [haction] at h
      cases h
    | _ => rwa [typeWithin_own (by simp [haction]) (by simp [haction])]
  | succ depth ih =>
    obtain ⟨depth', rfl⟩ := Nat.exists_eq_add_one_of_ne_zero (show depth' ≠ 0 by omega)
    cases haction : f.action o.node with
    | read object feature =>
      rw [typeWithin_read haction] at h ⊢
      obtain ⟨objectType, hobject, h⟩ := bind_eq_ok.1 h
      exact bind_eq_ok.2 ⟨objectType, ih hobject (by omega), h⟩
    | write object feature value =>
      rw [typeWithin_write haction] at h ⊢
      obtain ⟨r, hr, h⟩ := bind_eq_ok.1 h
      exact bind_eq_ok.2 ⟨r, hr, ih h (by omega)⟩
    | _ =>
      rw [typeWithin_own (by simp [haction]) (by simp [haction])] at h ⊢
      exact h

/-! ### Types of outlets -/

/-- The type at an outlet of a node whose action refers to no other type. -/
def ownType (f : Flow) (o : Outlet) : Action → Option DataType
  | .parameter .input _ type _ => some (f.dataType type)
  | .create record => some (f.dataType (.record record))
  | .literal value => some (.scalar value.scalar)
  | .opaqueAction _ _ _ outputs => (o.pin.bind (outputs[·]?)).map (.scalar ·.scalar)
  | .call .. => ((f.callees.lookup o.node).bind (·.outputs.head?)).map (·.type)
  | _ => none

theorem typeOf_own {n : Nat} {pin : Option Nat} {action : Action} {type : DataType}
    (h : f.action n = action) (hread : ∀ object feature, action ≠ .read object feature)
    (hwrite : ∀ object feature value, action ≠ .write object feature value) :
    f.typeOf ⟨n, pin⟩ = .ok type ↔ f.ownType ⟨n, pin⟩ action = some type := by
  unfold typeOf typeWithin
  rw [h]
  cases action with
  | read object feature => exact absurd rfl (hread _ _)
  | write object feature value => exact absurd rfl (hwrite _ _ _)
  | parameter direction => cases direction <;> simp [ownType]
  | opaqueAction body language inputs outputs =>
    dsimp only [ownType]
    cases pin.bind (outputs[·]?) <;> simp
  | call target arguments =>
    dsimp only [ownType]
    cases (f.callees.lookup n).bind (·.outputs.head?) <;> simp
  | _ => simp [ownType]

theorem typeOf_ne_ok {n : Nat} {pin : Option Nat} {action : Action} (h : f.action n = action)
    (hread : ∀ object feature, action ≠ .read object feature)
    (hwrite : ∀ object feature value, action ≠ .write object feature value)
    (hown : f.ownType ⟨n, pin⟩ action = none) (type : DataType) : f.typeOf ⟨n, pin⟩ ≠ .ok type := by
  intro htype
  rw [typeOf_own h hread hwrite, hown] at htype
  cases htype

theorem typeOf_write {o object value : Outlet} {feature : String} {type : DataType}
    (haction : f.action o.node = .write object feature value) (h : f.typeOf o = .ok type) :
    ∃ r, f.root o = .ok r ∧ f.typeOf ⟨r, none⟩ = .ok type := by
  unfold typeOf at h
  rw [typeWithin_write haction] at h
  obtain ⟨r, hr, h⟩ := bind_eq_ok.1 h
  exact ⟨r, hr, typeWithin_mono h (by omega)⟩

theorem typeOf_read {o object : Outlet} {feature : String} {type : DataType}
    (haction : f.action o.node = .read object feature) (h : f.typeOf o = .ok type) :
    ∃ field, f.feature o.node object feature = .ok field ∧ type = .scalar field.scalar := by
  unfold typeOf at h
  rw [typeWithin_read haction] at h
  obtain ⟨objectType, hobject, h⟩ := bind_eq_ok.1 h
  obtain ⟨field, hfield, h⟩ := bind_eq_ok.1 h
  cases h
  exact ⟨field, bind_eq_ok.2 ⟨objectType, typeWithin_mono hobject (by omega), hfield⟩, rfl⟩

/-- Only opaque actions have several outlets. -/
theorem typeOf_value {o : Outlet} (h : ∀ body language inputs outputs,
    f.action o.node ≠ .opaqueAction body language inputs outputs) :
    f.typeOf o = f.typeOf ⟨o.node, none⟩ := by
  unfold typeOf typeWithin
  cases haction : f.action o.node with
  | opaqueAction => exact absurd haction (h _ _ _ _)
  | parameter direction => cases direction <;> rfl
  | _ => rfl

theorem typeOf_opaqueAction {o : Outlet} {body : String} {language : Option String}
    {inputs outputs : List Pin} {type : DataType}
    (haction : f.action o.node = .opaqueAction body language inputs outputs)
    (h : f.typeOf o = .ok type) :
    ∃ i pin, o.pin = some i ∧ outputs[i]? = some pin ∧ type = .scalar pin.scalar := by
  obtain ⟨pin, hpin, htype⟩ := Option.map_eq_some_iff.1 ((typeOf_own haction (by simp) (by simp)).1 h)
  obtain ⟨i, hi, houtput⟩ := Option.bind_eq_some_iff.1 hpin
  exact ⟨i, pin, hi, houtput, htype.symm⟩

end FlightGen.Flow
