import KeyTransparency.Json.Token

/-!
# Writing JSON texts

A value is laid out as tokens, line breaks and spaces.  The compact form keeps only the tokens; the
indented form puts every item and member on a line of its own, two spaces further in than what
encloses it, and leaves empty containers closed up.
-/

namespace KeyTransparency.Json

/-- A piece of a laid-out value. -/
inductive Piece where
  | token (token : Token)
  /-- A new line that begins with the indentation of a level. -/
  | lineBreak (level : Nat)
  | space

namespace Piece

/-- The characters of a piece. -/
def chars : Piece → List Char
  | .token t => t.chars
  | .lineBreak level => '\n' :: List.replicate (2 * level) ' '
  | .space => [' ']

/-- The token that a piece is, if it is one. -/
def token? : Piece → Option Token
  | .token t => some t
  | _ => none

end Piece

mutual

/-- The pieces of a value that begins at a level. -/
def pieces (level : Nat) : Json → List Piece
  | .null => [.token .null]
  | .bool value => [.token (.bool value)]
  | .number value => [.token (.number value)]
  | .string text => [.token (.string text)]
  | .array [] => [.token .openArray, .token .closeArray]
  | .array (item :: rest) =>
    [.token .openArray, .lineBreak (level + 1)] ++ pieces (level + 1) item
      ++ laterItems (level + 1) rest ++ [.lineBreak level, .token .closeArray]
  | .object [] => [.token .openObject, .token .closeObject]
  | .object ((name, value) :: rest) =>
    [.token .openObject, .lineBreak (level + 1), .token (.string name), .token .colon, .space]
      ++ pieces (level + 1) value ++ laterMembers (level + 1) rest
      ++ [.lineBreak level, .token .closeObject]

/-- The pieces of all items but the first. -/
def laterItems (level : Nat) : List Json → List Piece
  | [] => []
  | item :: rest =>
    [.token .comma, .lineBreak level] ++ pieces level item ++ laterItems level rest

/-- The pieces of all members but the first. -/
def laterMembers (level : Nat) : List (Option String × Json) → List Piece
  | [] => []
  | (name, value) :: rest =>
    [.token .comma, .lineBreak level, .token (.string name), .token .colon, .space]
      ++ pieces level value ++ laterMembers level rest

end

/-- The members of an object with one more in its place, by name. -/
def insertMember (new : Option String × Json) :
    List (Option String × Json) → List (Option String × Json)
  | [] => [new]
  | old :: rest =>
    if old.1.getD "" < new.1.getD "" then old :: insertMember new rest else new :: old :: rest

mutual

/-- The value in which the members of every object are in order of their names. -/
def sorted : Json → Json
  | .array items => .array (sortedItems items)
  | .object members => .object (sortedMembers members)
  | value => value

/-- The items of an array with the members of their objects in order. -/
def sortedItems : List Json → List Json
  | [] => []
  | item :: rest => sorted item :: sortedItems rest

/-- The members of an object in order. -/
def sortedMembers : List (Option String × Json) → List (Option String × Json)
  | [] => []
  | (name, value) :: rest => insertMember (name, sorted value) (sortedMembers rest)

end

/-- The compact text of a value. -/
def compact (value : Json) : String :=
  String.ofList (((pieces 0 value).filterMap Piece.token?).flatMap Token.chars)

/-- The indented text of a value. -/
def pretty (value : Json) : String := String.ofList ((pieces 0 value).flatMap Piece.chars)

end KeyTransparency.Json
