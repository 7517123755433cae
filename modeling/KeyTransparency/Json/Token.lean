import KeyTransparency.Json.Numeral
import KeyTransparency.Json.Quoted

/-!
# JSON tokens

A JSON text is a sequence of tokens with blanks between them.  This module splits a text into its
tokens and spells a token.  The main statement, that a token takes up at least one character, is
what makes the splitting end.
-/

namespace KeyTransparency.Json

/-- A token of a JSON text.  A string is `none` if it denotes no text. -/
inductive Token where
  | openObject
  | closeObject
  | openArray
  | closeArray
  | colon
  | comma
  | null
  | bool (value : Bool)
  | number (value : Numeral)
  | string (text : Option String)
deriving DecidableEq

/-- Whether a character may stand between tokens. -/
def isBlank (c : Char) : Bool := c == ' ' || c == '\t' || c == '\n' || c == '\r'

namespace Token

/-- The first token of a text that starts with one, and what follows it. -/
def next? : List Char → Option (Token × List Char)
  | '{' :: rest => some (.openObject, rest)
  | '}' :: rest => some (.closeObject, rest)
  | '[' :: rest => some (.openArray, rest)
  | ']' :: rest => some (.closeArray, rest)
  | ':' :: rest => some (.colon, rest)
  | ',' :: rest => some (.comma, rest)
  | 'n' :: 'u' :: 'l' :: 'l' :: rest => some (.null, rest)
  | 't' :: 'r' :: 'u' :: 'e' :: rest => some (.bool true, rest)
  | 'f' :: 'a' :: 'l' :: 's' :: 'e' :: rest => some (.bool false, rest)
  | '"' :: rest => (Quoted.read? rest).map fun (text, rest) => (.string text, rest)
  | c :: rest =>
    if c == '-' || c.isDigit then
      (Numeral.ofChars? (c :: rest.takeWhile Numeral.isNumeralChar)).map fun value =>
        (.number value, rest.dropWhile Numeral.isNumeralChar)
    else none
  | [] => none

/-- How a token is spelled.  A string that denotes no text is spelled with half of a pair. -/
def chars : Token → List Char
  | openObject => ['{']
  | closeObject => ['}']
  | openArray => ['[']
  | closeArray => [']']
  | colon => [':']
  | comma => [',']
  | null => ['n', 'u', 'l', 'l']
  | bool true => ['t', 'r', 'u', 'e']
  | bool false => ['f', 'a', 'l', 's', 'e']
  | number value => value.chars
  | string (some text) => Quoted.write text
  | string none => ['"', '\\', 'u', 'd', '8', '0', '0', '"']

end Token

theorem Quoted.length_scan_le {units : List Nat} {text : List Char} {found : List Nat}
    {rest : List Char} (h : Quoted.scan units text = some (found, rest)) :
    rest.length ≤ text.length := by
  fun_induction Quoted.scan units text with
  | case1 => simp_all
  | case2 =>
    rename_i ih
    have := ih h
    simp only [List.length_cons]
    omega
  | case3 => simp_all
  | case4 =>
    rename_i ih
    have := ih h
    simp only [List.length_cons]
    omega
  | case5 => simp_all
  | case6 => simp_all
  | case7 =>
    rename_i ih
    have := ih h
    simp only [List.length_cons]
    omega
  | case8 => simp_all

theorem Token.length_next?_lt {text rest : List Char} {token : Token}
    (h : Token.next? text = some (token, rest)) : rest.length < text.length := by
  unfold Token.next? at h
  split at h <;> try (simp only [Option.some.injEq, Prod.mk.injEq, reduceCtorEq] at h)
  all_goals try (obtain ⟨_, rfl⟩ := h; simp only [List.length_cons]; omega)
  · simp only [Option.map_eq_some_iff, Quoted.read?, Prod.mk.injEq] at h
    obtain ⟨⟨text, after⟩, ⟨⟨units, left⟩, scanned, _, rfl⟩, _, rfl⟩ := h
    have := Quoted.length_scan_le scanned
    simp only [List.length_cons]
    omega
  · split at h
    · simp only [Option.map_eq_some_iff, Prod.mk.injEq] at h
      obtain ⟨_, _, _, rfl⟩ := h
      have := (List.dropWhile_sublist Numeral.isNumeralChar (l := ‹List Char›)).length_le
      simp only [List.length_cons]
      omega
    · cases h

/-- The tokens of a text, after those found so far, which are given last first. -/
def tokensFrom (found : List Token) (text : List Char) : Option (List Token) :=
  match _blanks : text.dropWhile isBlank with
  | [] => some found.reverse
  | c :: rest =>
    match _first : Token.next? (c :: rest) with
    | none => none
    | some (token, after) => tokensFrom (token :: found) after
termination_by text.length
decreasing_by
  have shorter := Token.length_next?_lt _first
  have kept := (List.dropWhile_sublist isBlank (l := text)).length_le
  rw [_blanks] at kept
  omega

/-- The tokens of a text, unless part of it is no token. -/
def tokens? (text : String) : Option (List Token) := tokensFrom [] text.toList

end KeyTransparency.Json
