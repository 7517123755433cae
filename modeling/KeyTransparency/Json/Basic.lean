/-!
# JSON values

The values that a JSON text denotes.  Two things are kept that a plain tree of values would lose.  A
number keeps its digits, because `1`, `1.0` and `1e0` are read differently where an integer is
wanted, and integers of any size occur.  A string may be one that denotes no text, because a text
with half of a surrogate pair is valid JSON and may be passed over, but not read.
-/

namespace KeyTransparency

/-- A number as it is spelled. -/
structure Numeral where
  negative : Bool
  /-- The part before the point. -/
  whole : Nat
  /-- The digits after the point; a numeral without a point has none. -/
  places : List Nat
  /-- The power of ten, if one is written. -/
  exponent : Option Int
deriving DecidableEq

namespace Numeral

/-- The plain spelling of an integer. -/
def ofInt (n : Int) : Numeral := ⟨decide (n < 0), n.natAbs, [], none⟩

/-- The integer that a numeral spells plainly.  A point, an exponent or a minus sign before zero
makes a numeral something else than an integer. -/
def toInt? (x : Numeral) : Option Int :=
  if x.places = [] ∧ x.exponent = none ∧ ¬(x.negative = true ∧ x.whole = 0) then
    some (if x.negative then -(x.whole : Int) else x.whole)
  else none

@[simp]
theorem toInt?_ofInt (n : Int) : (ofInt n).toInt? = some n := by
  have plain : ¬((ofInt n).negative = true ∧ (ofInt n).whole = 0) := by
    change ¬(decide (n < 0) = true ∧ n.natAbs = 0)
    rw [decide_eq_true_iff]
    omega
  rw [toInt?, if_pos ⟨rfl, rfl, plain⟩]
  change some (if decide (n < 0) = true then -(n.natAbs : Int) else (n.natAbs : Int)) = some n
  split
  · rename_i negative
    have := of_decide_eq_true negative
    exact congrArg some (by omega)
  · rename_i positive
    have : ¬n < 0 := fun negative => positive (decide_eq_true negative)
    exact congrArg some (by omega)

end Numeral

/-- A JSON value.  A string or a member name is `none` if it denotes no text. -/
inductive Json where
  | null
  | bool (value : Bool)
  | number (value : Numeral)
  | string (text : Option String)
  | array (items : List Json)
  | object (members : List (Option String × Json))

namespace Json

/-- A string value. -/
def text (s : String) : Json := .string (some s)

/-- An integer value. -/
def int (n : Int) : Json := .number (Numeral.ofInt n)

/-- A value that is a natural number. -/
def nat (n : Nat) : Json := int n

/-- An object with the given members. -/
def record (members : List (String × Json)) : Json :=
  .object (members.map fun (name, value) => (some name, value))

/-- The text of a string value. -/
def text? : Json → Option String
  | .string text => text
  | _ => none

/-- The integer that a number spells. -/
def int? : Json → Option Int
  | .number value => value.toInt?
  | _ => none

/-- The items of an array. -/
def items? : Json → Option (List Json)
  | .array items => some items
  | _ => none

mutual

/-- The value in which an object keeps, of members with one name, only the last. -/
def collapse : Json → Json
  | .array items => .array (collapseItems items)
  | .object members => .object (collapseMembers members)
  | value => value

/-- Collapses the items of an array. -/
def collapseItems : List Json → List Json
  | [] => []
  | item :: rest => collapse item :: collapseItems rest

/-- Collapses the members of an object, dropping those whose name comes again. -/
def collapseMembers : List (Option String × Json) → List (Option String × Json)
  | [] => []
  | (name, value) :: rest =>
    if rest.any (fun later => later.1 == name) then collapseMembers rest
    else (name, collapse value) :: collapseMembers rest

end

end Json

end KeyTransparency
