import KeyTransparency.Json.Double
import KeyTransparency.Json.Token

/-!
# Reading JSON texts

A value is built from its tokens by one pass that keeps the containers still open.  There are two
ways of reading.  The lenient one takes every well-formed text.  The plain one is for texts of which
every part is wanted: it refuses strings that denote no text, numbers beyond the range of a double,
and deep nesting, and of members with one name it keeps the last.
-/

namespace KeyTransparency.Json

/-- A container that is still open, with what it holds so far, last first. -/
inductive OpenContainer where
  | array (items : List Json)
  /-- An object together with the name whose value comes next. -/
  | object (members : List (Option String × Json)) (name : Option String)

/-- The value of a token sequence.  `complete` is the value that has just ended, and is absent where
one is about to begin. -/
def build : (complete : Option Json) → List OpenContainer → List Token → Option Json
  | none, stack, .null :: rest => build (some .null) stack rest
  | none, stack, .bool value :: rest => build (some (.bool value)) stack rest
  | none, stack, .number value :: rest => build (some (.number value)) stack rest
  | none, stack, .string text :: rest => build (some (.string text)) stack rest
  | none, stack, .openArray :: .closeArray :: rest => build (some (.array [])) stack rest
  | none, stack, .openArray :: rest => build none (.array [] :: stack) rest
  | none, stack, .openObject :: .closeObject :: rest => build (some (.object [])) stack rest
  | none, stack, .openObject :: .string name :: .colon :: rest =>
    build none (.object [] name :: stack) rest
  | some value, [], [] => some value
  | some value, .array items :: stack, .comma :: rest =>
    build none (.array (value :: items) :: stack) rest
  | some value, .array items :: stack, .closeArray :: rest =>
    build (some (.array (value :: items).reverse)) stack rest
  | some value, .object members name :: stack, .comma :: .string next :: .colon :: rest =>
    build none (.object ((name, value) :: members) next :: stack) rest
  | some value, .object members name :: stack, .closeObject :: rest =>
    build (some (.object ((name, value) :: members).reverse)) stack rest
  | _, _, _ => none

/-- The value of a text, if the text is one well-formed value with nothing around it but blanks. -/
def read? (text : String) : Option Json := do build none [] (← tokens? text)

/-- The greatest number of containers that enclose a token, `depth` of them being open. -/
def nesting : (depth : Nat) → List Token → Nat
  | depth, [] => depth
  | depth, .openArray :: rest => nesting (depth + 1) rest
  | depth, .openObject :: rest => nesting (depth + 1) rest
  | depth, .closeArray :: rest => max depth (nesting (depth - 1) rest)
  | depth, .closeObject :: rest => max depth (nesting (depth - 1) rest)
  | depth, _ :: rest => nesting depth rest

/-- The number of enclosing containers up to which a text is read plainly. -/
def plainNesting : Nat := 127

/-- Whether a token may stand in a text that is read plainly. -/
def Token.isPlain : Token → Bool
  | .string text => text.isSome
  | .number value => value.toDouble?.isSome
  | _ => true

/-- The value of a text that is read plainly. -/
def readPlain? (text : String) : Option Json := do
  let tokens ← tokens? text
  guard (tokens.all Token.isPlain)
  guard (nesting 0 tokens ≤ plainNesting)
  return collapse (← build none [] tokens)

end Json

end KeyTransparency
