import FlightGen.Model.Basic

/-! Data that routines work on: scalars and flat records. -/

namespace FlightGen

/-- A record with its fields in the order of their declaration. -/
structure Record where
  name : String
  fields : List (String × Value)
deriving DecidableEq

namespace Record

/-- The record of a type in which every field is zero. -/
def zeroed (name : String) (fields : List (String × Scalar)) : Record :=
  ⟨name, fields.map fun (field, scalar) => (field, scalar.zero)⟩

def get? (r : Record) (field : String) : Option Value :=
  r.fields.lookup field

def setField? (field : String) (value : Value) :
    List (String × Value) → Option (List (String × Value))
  | [] => none
  | (name, old) :: rest =>
    if name = field then some ((name, value) :: rest)
    else (setField? field value rest).map ((name, old) :: ·)

/-- The record with another value in a field that it has. -/
def set? (r : Record) (field : String) (value : Value) : Option Record :=
  (setField? field value r.fields).map (⟨r.name, ·⟩)

end Record

def RecordType.zeroed (r : RecordType) : Record :=
  Record.zeroed r.name.ident (r.fields.map fun f => (f.name.ident, f.scalar))

inductive Datum where
  | scalar (value : Value)
  | record (record : Record)
deriving DecidableEq

end FlightGen
