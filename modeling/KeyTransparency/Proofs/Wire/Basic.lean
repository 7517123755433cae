import KeyTransparency.Proofs.Hash.Text
import KeyTransparency.Proofs.Json.Text
import KeyTransparency.Wire.Fields

/-!
# Values are read back from what is written for them

A type is lawful if each of its values is read back from the JSON that is written for it.  Since
nothing but integers is written as a number, the value is then read back from the text too, however
it is laid out.  What is written for a value is never null, so that an option which is there is not
taken for one that is not.

The values that records are made of are shown to be lawful here.  A record is lawful if the members
that are written for it describe it: no field occurs twice, and reading the fields off the members
gives the record again.  The lemmas on fields read them one member at a time.
-/

namespace KeyTransparency

/-- A type whose values are read back from what is written for them. -/
class LawfulWire (α : Type) [Wire α] : Prop where
  integral : ∀ value : α, (toJson value).Integral
  ne_null : ∀ value : α, toJson value ≠ .null
  ofJson?_toJson : ∀ value : α, ofJson? (toJson value) = some value

namespace Wire

variable {α : Type} [Wire α] [LawfulWire α]

/-- A value is read back from its indented text. -/
theorem ofText?_prettyText (value : α) : ofText? (prettyText value) = some value := by
  rw [ofText?, prettyText, (LawfulWire.integral value).read?_pretty]
  exact LawfulWire.ofJson?_toJson value

/-- A value is read back from its compact text. -/
theorem ofText?_compact (value : α) : ofText? (toJson value).compact = some value := by
  rw [ofText?, (LawfulWire.integral value).read?_compact]
  exact LawfulWire.ofJson?_toJson value

/-- The values of a type are read back from both of their texts. -/
def ReadBack (β : Type) [Wire β] : Prop :=
  ∀ value : β, ofText? (toJson value).compact = some value ∧
    ofText? (prettyText value) = some value

theorem readBack : ReadBack α := fun value => ⟨ofText?_compact value, ofText?_prettyText value⟩

/-! ## Numbers -/

theorem intWithin?_int {least greatest n : Int} (hleast : least ≤ n) (hgreatest : n ≤ greatest) :
    intWithin? least greatest (.int n) = some n := by
  have hint : (Json.int n).int? = some n := Numeral.toInt?_ofInt n
  rw [intWithin?, hint, Option.filter_some]
  exact if_pos (decide_eq_true ⟨hleast, hgreatest⟩)

instance : LawfulWire UInt64 where
  integral n := .int n.toNat
  ne_null _ := by rintro ⟨⟩
  ofJson?_toJson n := by
    have hlt : n.toNat < UInt64.size := n.toNat_lt
    have hread : intWithin? 0 (UInt64.size - 1) (.nat n.toNat) = some (n.toNat : Int) :=
      intWithin?_int (Int.natCast_nonneg _) (by omega)
    change (intWithin? 0 (UInt64.size - 1) (.nat n.toNat)).map _ = some n
    rw [hread]
    exact congrArg some UInt64.ofNat_toNat

instance : LawfulWire UInt32 where
  integral n := .int n.toNat
  ne_null _ := by rintro ⟨⟩
  ofJson?_toJson n := by
    have hlt : n.toNat < UInt32.size := n.toNat_lt
    have hread : intWithin? 0 (UInt32.size - 1) (.nat n.toNat) = some (n.toNat : Int) :=
      intWithin?_int (Int.natCast_nonneg _) (by omega)
    change (intWithin? 0 (UInt32.size - 1) (.nat n.toNat)).map _ = some n
    rw [hread]
    exact congrArg some UInt32.ofNat_toNat

instance : LawfulWire Int64 where
  integral n := .int n.toInt
  ne_null _ := by rintro ⟨⟩
  ofJson?_toJson n := by
    have hread : intWithin? Int64.minValue.toInt Int64.maxValue.toInt (.int n.toInt) =
        some n.toInt :=
      intWithin?_int n.le_toInt (Int.le_of_lt_add_one n.toInt_lt)
    change (intWithin? Int64.minValue.toInt Int64.maxValue.toInt (.int n.toInt)).map _ = some n
    rw [hread]
    exact congrArg some n.ofInt_toInt

/-! ## Texts and byte strings -/

instance : LawfulWire String where
  integral text := .string (some text)
  ne_null _ := by rintro ⟨⟩
  ofJson?_toJson _ := rfl

theorem bytesOfJson?_bytesToJson (bytes : Bytes) :
    bytesOfJson? (bytesToJson bytes) = some bytes := by
  change Text.Base64.decode? .optional (String.ofList (Text.Base64.encode bytes)).toList = _
  rw [String.toList_ofList, Text.Base64.decode?_encode]

instance : LawfulWire Bytes where
  integral _ := .string (some _)
  ne_null _ := by rintro ⟨⟩
  ofJson?_toJson := bytesOfJson?_bytesToJson

instance {n : Nat} : LawfulWire (Octets n) where
  integral _ := .string (some _)
  ne_null _ := by rintro ⟨⟩
  ofJson?_toJson octets := by
    change (bytesOfJson? (bytesToJson octets.bytes)).bind (Octets.ofBytes? n) = some octets
    rw [bytesOfJson?_bytesToJson, Option.bind_some, Octets.ofBytes?_bytes]

instance : LawfulWire CommitmentIndex where
  integral _ := .string (some _)
  ne_null _ := by rintro ⟨⟩
  ofJson?_toJson index :=
    congrArg (Option.map CommitmentIndex.mk) (LawfulWire.ofJson?_toJson index.toOctets)

instance : LawfulWire Hash where
  integral hash := .string (some hash.toText)
  ne_null _ := by rintro ⟨⟩
  ofJson?_toJson hash := congrArg Except.toOption (Hash.parse_eq_ok_iff.mpr rfl)

/-! ## Lists -/

instance : LawfulWire (List α) where
  integral values := by
    refine .array fun item hitem => ?_
    obtain ⟨value, -, rfl⟩ := List.mem_map.mp hitem
    exact LawfulWire.integral value
  ne_null _ := by rintro ⟨⟩
  ofJson?_toJson _ := mapM_map_eq_some fun value _ => LawfulWire.ofJson?_toJson value

/-! ## Fields -/

namespace Fields

variable {β : Type} [Wire β] {name other : String}

theorem find?_cons_self (json : Json) (rest : List (String × Json)) :
    (⟨(name, json) :: rest⟩ : Fields).find? name = some json :=
  List.lookup_cons_self

theorem find?_cons_of_ne (h : name ≠ other) (json : Json) (rest : List (String × Json)) :
    (⟨(other, json) :: rest⟩ : Fields).find? name = (⟨rest⟩ : Fields).find? name := by
  have hother : (name == other) = false := beq_eq_false_iff_ne.mpr h
  rw [find?, List.lookup_cons, hother]
  rfl

@[simp]
theorem required?_cons_self (value : α) (rest : List (String × Json)) :
    (⟨(name, toJson value) :: rest⟩ : Fields).required? name = some value := by
  rw [required?, find?_cons_self]
  exact LawfulWire.ofJson?_toJson value

@[simp]
theorem required?_cons_of_ne (h : name ≠ other) (json : Json) (rest : List (String × Json)) :
    ((⟨(other, json) :: rest⟩ : Fields).required? name : Option β) =
      (⟨rest⟩ : Fields).required? name := by
  rw [required?, required?, find?_cons_of_ne h]

@[simp]
theorem optional?_nil : ((⟨[]⟩ : Fields).optional? name : Option (Option β)) = some none := by
  rw [optional?, find?, List.lookup_nil]

@[simp]
theorem optional?_cons_self (value : α) (rest : List (String × Json)) :
    (⟨(name, toJson value) :: rest⟩ : Fields).optional? name = some (some value) := by
  have hread := congrArg (Option.map some) (LawfulWire.ofJson?_toJson value)
  rw [optional?, find?_cons_self]
  split
  · contradiction
  · rename_i hnull
    exact absurd (Option.some.inj hnull) (LawfulWire.ne_null value)
  · rename_i hfound
    cases hfound
    exact hread

@[simp]
theorem optional?_cons_null (rest : List (String × Json)) :
    ((⟨(name, .null) :: rest⟩ : Fields).optional? name : Option (Option β)) = some none := by
  rw [optional?, find?_cons_self]

@[simp]
theorem optional?_cons_of_ne (h : name ≠ other) (json : Json) (rest : List (String × Json)) :
    ((⟨(other, json) :: rest⟩ : Fields).optional? name : Option (Option β)) =
      (⟨rest⟩ : Fields).optional? name := by
  rw [optional?, optional?, find?_cons_of_ne h]

@[simp]
theorem withDefault?_cons_self (value default : α) (rest : List (String × Json)) :
    (⟨(name, toJson value) :: rest⟩ : Fields).withDefault? name default = some value := by
  rw [withDefault?, find?_cons_self]
  exact LawfulWire.ofJson?_toJson value

@[simp]
theorem withDefault?_cons_of_ne (h : name ≠ other) (default : β) (json : Json)
    (rest : List (String × Json)) :
    (⟨(other, json) :: rest⟩ : Fields).withDefault? name default =
      (⟨rest⟩ : Fields).withDefault? name default := by
  rw [withDefault?, withDefault?, find?_cons_of_ne h]

end Fields

/-! ## Records -/

theorem integral_record {members : List (String × Json)}
    (h : ∀ member ∈ members, member.2.Integral) : (Json.record members).Integral := by
  refine .object fun member hmember => ?_
  obtain ⟨given, hgiven, rfl⟩ := List.mem_map.mp hmember
  exact h given hgiven

/-- A record is read back if each of its members is a field of its own. -/
theorem Fields.ofJson?_record {names : List String} {members : List (String × Json)}
    (hnames : ∀ member ∈ members, member.1 ∈ names) (hnodup : (members.map (·.1)).Nodup) :
    Fields.ofJson? names (.record members) = some ⟨members⟩ := by
  rw [Json.record, Fields.ofJson?, ofMembers?, mapM_map_eq_some fun _ _ => by rfl]
  simp only [Option.bind_eq_bind, Option.bind_some]
  rw [List.filter_eq_self.mpr ?known, if_pos hnodup]
  case known => exact fun member hmember => List.contains_iff_mem.mpr (hnames member hmember)

/-- The members are those of a record with the given field names, and the value is read off
them. -/
structure Describes {β : Type} (names : List String) (read : Fields → Option β)
    (members : List (String × Json)) (value : β) : Prop where
  nodup : (members.map (·.1)).Nodup
  mem_names : ∀ member ∈ members, member.1 ∈ names
  integral : ∀ member ∈ members, member.2.Integral
  read_eq : read ⟨members⟩ = some value

/-- A type is lawful if its values are written as records that describe them. -/
theorem lawfulWire_of_describes {β : Type} [Wire β] {names : List String}
    {read : Fields → Option β} {members : β → List (String × Json)}
    (htoJson : ∀ value : β, toJson value = .record (members value))
    (hofJson? : ∀ json, ofJson? json = Fields.ofJson? names json >>= read)
    (h : ∀ value, Describes names read (members value) value) : LawfulWire β where
  integral value := htoJson value ▸ integral_record (h value).integral
  ne_null value := by
    rw [htoJson]
    rintro ⟨⟩
  ofJson?_toJson value := by
    rw [htoJson, hofJson?, Fields.ofJson?_record (h value).mem_names (h value).nodup]
    exact (h value).read_eq

end Wire

end KeyTransparency
