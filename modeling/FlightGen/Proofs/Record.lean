import FlightGen.Datum

/-! Reading and writing the fields of a record. -/

namespace FlightGen.Record

theorem setField?_eq_some {field : String} {value : Value} {fields fields' : List (String × Value)}
    (h : setField? field value fields = some fields') (other : String) :
    fields'.lookup other = if other = field then some value else fields.lookup other := by
  induction fields generalizing fields' with
  | nil => cases h
  | cons entry rest ih =>
    obtain ⟨name, old⟩ := entry
    rw [setField?] at h
    split at h
    · rename_i hname
      cases h
      grind
    · rename_i hname
      obtain ⟨rest', hrest, rfl⟩ := Option.map_eq_some_iff.1 h
      have := ih hrest
      grind

theorem isSome_setField? {field : String} {value : Value} {fields : List (String × Value)} :
    (setField? field value fields).isSome = (fields.lookup field).isSome := by
  induction fields with
  | nil => rfl
  | cons entry rest ih =>
    obtain ⟨name, old⟩ := entry
    rw [setField?]
    split
    · rename_i hname
      simp [hname]
    · rename_i hname
      have hne : (field == name) = false := by simpa using Ne.symm hname
      simp [List.lookup_cons, hne, ih]

/-- Writes to different fields commute. -/
theorem setField?_comm {field field' : String} (hne : field ≠ field') (value value' : Value)
    (fields : List (String × Value)) :
    (setField? field value fields).bind (setField? field' value') =
      (setField? field' value' fields).bind (setField? field value) := by
  induction fields with
  | nil => rfl
  | cons entry rest ih =>
    obtain ⟨name, old⟩ := entry
    by_cases h : name = field
    · subst h
      simp only [setField?, if_true, Option.bind_some, if_neg hne]
      cases setField? field' value' rest <;> simp [setField?]
    · by_cases h' : name = field'
      · subst h'
        simp only [setField?, if_true, Option.bind_some, if_neg h]
        cases setField? field value rest <;> simp [setField?]
      · have hcons := congrArg (Option.map ((name, old) :: ·)) ih
        simp only [Option.map_bind, Function.comp_def] at hcons
        simpa only [setField?, if_neg h, if_neg h', Option.bind_map, Function.comp_def] using hcons

theorem get?_set? {r r' : Record} {field : String} {value : Value}
    (h : r.set? field value = some r') (other : String) :
    r'.get? other = if other = field then some value else r.get? other := by
  obtain ⟨fields, hfields, rfl⟩ := Option.map_eq_some_iff.1 h
  exact setField?_eq_some hfields other

theorem name_set? {r r' : Record} {field : String} {value : Value}
    (h : r.set? field value = some r') : r'.name = r.name := by
  obtain ⟨fields, -, rfl⟩ := Option.map_eq_some_iff.1 h
  rfl

theorem isSome_set? {r : Record} {field : String} {value : Value} :
    (r.set? field value).isSome = (r.get? field).isSome := by
  rw [set?, Option.isSome_map, isSome_setField?, get?]

theorem set?_comm {field field' : String} (hne : field ≠ field') (value value' : Value)
    (r : Record) :
    (r.set? field value).bind (·.set? field' value') =
      (r.set? field' value').bind (·.set? field value) := by
  have h := congrArg (Option.map (Record.mk r.name)) (setField?_comm hne value value' r.fields)
  simpa [set?, Option.map_bind, Option.bind_map, Function.comp_def] using h

end FlightGen.Record
