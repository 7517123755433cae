import KeyTransparency.Wire.Basic

/-!
# Records as JSON

A record is written as an object with a member for each field.  It may also be read from an array
with its fields in order, of which the last ones may be missing.  Members that are no field are
passed over, but no field may occur twice.  A field that is not there may have a value all the same:
an option is absent, and some fields have a default.
-/

namespace KeyTransparency.Wire

variable {α : Type}

/-- The fields of a record that are there, by name. -/
structure Fields where
  entries : List (String × Json)

namespace Fields

/-- The members of an object that are fields. -/
def ofMembers? (names : List String) (members : List (Option String × Json)) : Option Fields := do
  let named ← members.mapM fun (name, value) => name.map fun name => (name, value)
  let known := named.filter fun (name, _) => names.contains name
  if (known.map (·.1)).Nodup then some ⟨known⟩ else none

/-- The fields of a record with the given field names. -/
def ofJson? (names : List String) : Json → Option Fields
  | .object members => ofMembers? names members
  | .array items => if items.length ≤ names.length then some ⟨names.zip items⟩ else none
  | _ => none

/-- The value of a field, if it is there. -/
def find? (fields : Fields) (name : String) : Option Json := fields.entries.lookup name

/-- A field that must be there. -/
def required? [Wire α] (fields : Fields) (name : String) : Option α := do
  Wire.ofJson? (← fields.find? name)

/-- A field that may be absent or null. -/
def optional? [Wire α] (fields : Fields) (name : String) : Option (Option α) :=
  match fields.find? name with
  | none | some .null => some none
  | some value => (Wire.ofJson? value).map some

/-- A field that has a default. -/
def withDefault? [Wire α] (fields : Fields) (name : String) (default : α) : Option α :=
  match fields.find? name with
  | none => some default
  | some value => Wire.ofJson? value

end Fields

/-- The member of an object for a field that may be absent. -/
def optionalMember [Wire α] (name : String) : Option α → List (String × Json)
  | none => []
  | some value => [(name, toJson value)]

/-- A value that may be absent, as null if it is. -/
def nullable [Wire α] : Option α → Json
  | none => .null
  | some value => toJson value

end KeyTransparency.Wire
