import KeyTransparency.Json.Token

/-!
# What is spelled is read

A text that is written between quotes is read back as it was, whatever characters it has.  From this
it follows that every token that shows where it ends is read back from its spelling, and so is a
whole sequence of such tokens.
-/

namespace KeyTransparency.Json

namespace Quoted

/-! ## Quoted texts -/

theorem scan_letter (units : List Nat) {letter : Char} {code : Nat}
    (h : escaped? letter = some code) (rest : List Char) :
    scan units ('\\' :: letter :: rest) = scan (code :: units) rest := by
  have hletter : letter ≠ 'u' := by
    rintro rfl
    cases h
  rw [scan, h]
  rintro a b c d after rfl -
  exact hletter rfl

theorem scan_char (units : List Nat) {c : Char} (hquote : c ≠ '"') (hbackslash : c ≠ '\\')
    (hcontrol : ¬c.toNat < 0x20) (rest : List Char) :
    scan units (c :: rest) = scan (c.toNat :: units) rest := by
  rw [scan, if_neg hcontrol]
  · exact hquote
  · rintro a b d e after rfl
    exact absurd rfl hbackslash
  · rintro next after rfl
    exact absurd rfl hbackslash

theorem unit?_hexDigits : ∀ code < 0x20,
    unit? '0' '0' (hexDigit (code / 16)) (hexDigit (code % 16)) = some code := by
  decide

/-- A character is read back from the way it is written inside quotes. -/
theorem scan_escape (units : List Nat) (c : Char) (rest : List Char) :
    scan units (escape c ++ rest) = scan (c.toNat :: units) rest := by
  unfold escape
  split
  · rename_i hquote
    subst hquote
    exact scan_letter units rfl rest
  split
  · rename_i hbackslash
    subst hbackslash
    exact scan_letter units rfl rest
  -- the control characters that have a letter of their own
  iterate 5
    split
    · rename_i hcode
      exact hcode ▸ scan_letter units rfl rest
  split
  · rename_i hcontrol
    simp only [List.cons_append, List.nil_append]
    rw [scan, unit?_hexDigits c.toNat hcontrol]
  · rename_i hquote hbackslash _ _ _ _ _ hcontrol
    exact scan_char units hquote hbackslash hcontrol rest

theorem scan_flatMap_escape (units : List Nat) (chars rest : List Char) :
    scan units (chars.flatMap escape ++ '"' :: rest) =
      some (units.reverse ++ chars.map Char.toNat, rest) := by
  induction chars generalizing units with
  | nil => simp [scan]
  | cons c chars ih =>
    rw [List.flatMap_cons, List.append_assoc, scan_escape, ih]
    simp

theorem surrogate_eq_false (c : Char) :
    (isHighSurrogate c.toNat || isLowSurrogate c.toNat) = false := by
  have hvalid : c.toNat < 0xd800 ∨ 0xdfff < c.toNat ∧ c.toNat < 0x110000 := c.valid
  simp only [isHighSurrogate, isLowSurrogate, Bool.or_eq_false_iff, Bool.and_eq_false_iff,
    decide_eq_false_iff_not]
  omega

/-- The codes of characters stand for these characters, since no character is half of a pair. -/
theorem join?_map_toNat (found chars : List Char) :
    join? found (chars.map Char.toNat) = some (found.reverse ++ chars) := by
  induction chars generalizing found with
  | nil => simp [join?]
  | cons c chars ih =>
    have hwhole := surrogate_eq_false c
    cases chars with
    | nil => simp [join?, hwhole]
    | cons next chars =>
      obtain ⟨hhigh, hlow⟩ := Bool.or_eq_false_iff.mp hwhole
      rw [List.map_cons, List.map_cons, join?, hhigh, hlow, ← List.map_cons, ih]
      simp

/-- A text is read back from the way it is written between quotes. -/
theorem read?_write (text : String) (rest : List Char) :
    read? (text.toList.flatMap escape ++ '"' :: rest) = some (some text, rest) := by
  rw [read?, scan_flatMap_escape]
  simp [join?_map_toNat]

end Quoted

namespace Token

/-! ## Tokens -/

/-- Whether a token shows where it ends.  A number goes on as long as there are digits. -/
def isClosed : Token → Bool
  | number _ => false
  | _ => true

/-- A token is read back from its spelling, whatever follows it. -/
theorem next?_chars_append {token : Token} (hclosed : token.isClosed) (rest : List Char) :
    next? (token.chars ++ rest) = some (token, rest) := by
  cases token with
  | number value => cases hclosed
  | bool value => cases value <;> rfl
  | string text =>
    cases text with
    | none => rfl
    | some text => simp [chars, Quoted.write, next?, Quoted.read?_write]
  | openObject | closeObject | openArray | closeArray | colon | comma | null => rfl

/-- The spelling of a token does not begin with a blank. -/
theorem dropWhile_isBlank_chars_append {token : Token} (hclosed : token.isClosed)
    (rest : List Char) : (token.chars ++ rest).dropWhile isBlank = token.chars ++ rest := by
  cases token with
  | number value => cases hclosed
  | bool value => cases value <;> rfl
  | string text => cases text <;> rfl
  | openObject | closeObject | openArray | closeArray | colon | comma | null => rfl

end Token

theorem tokensFrom_of_blank {found : List Token} {text : List Char}
    (hblank : text.dropWhile isBlank = []) : tokensFrom found text = some found.reverse := by
  rw [tokensFrom]
  split
  · rfl
  · rename_i htext
    rw [hblank] at htext
    cases htext

/-- The token that a text begins with is split off. -/
theorem tokensFrom_of_next? {found : List Token} {text after : List Char} {token : Token}
    (hnext : Token.next? (text.dropWhile isBlank) = some (token, after)) :
    tokensFrom found text = tokensFrom (token :: found) after := by
  rw [tokensFrom]
  split
  · rename_i hblank
    rw [hblank] at hnext
    cases hnext
  · rename_i htext
    rw [htext] at hnext
    split
    · rename_i hnone
      rw [hnone] at hnext
      cases hnext
    · rename_i hsome
      rw [hsome] at hnext
      cases hnext
      rfl

/-- Tokens are read back from their spellings, one after the other. -/
theorem tokensFrom_flatMap_chars (found : List Token) {tokens : List Token}
    (hclosed : ∀ token ∈ tokens, token.isClosed) :
    tokensFrom found (tokens.flatMap Token.chars) = some (found.reverse ++ tokens) := by
  induction tokens generalizing found with
  | nil => rw [List.flatMap_nil, List.append_nil, tokensFrom_of_blank rfl]
  | cons token tokens ih =>
    obtain ⟨hfirst, hrest⟩ := List.forall_mem_cons.mp hclosed
    have hnext : Token.next? (((token :: tokens).flatMap Token.chars).dropWhile isBlank) =
        some (token, tokens.flatMap Token.chars) := by
      rw [List.flatMap_cons, Token.dropWhile_isBlank_chars_append hfirst,
        Token.next?_chars_append hfirst]
    rw [tokensFrom_of_next? hnext, ih _ hrest]
    simp

end KeyTransparency.Json
