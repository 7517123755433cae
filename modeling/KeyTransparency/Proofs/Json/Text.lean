import KeyTransparency.Json.Printer
import KeyTransparency.Json.Reader
import KeyTransparency.Proofs.Json.Numeral
import KeyTransparency.Proofs.Json.Token

/-!
# Values are read back from their texts

A value whose numbers are integers is read back from its compact and from its indented text.  The
two differ in what stands between tokens, so both are shown at once, for any way of spelling line
breaks and spaces by blanks.  A number does not show where it ends, and in both forms something
follows it that no number goes on with.
-/

namespace KeyTransparency.Json

/-! ## Splitting off numbers and blanks -/

/-- A number that is written before a text ends where the text begins. -/
def EndsNumber (text : List Char) : Prop := ∀ c ∈ text.head?, Numeral.isNumeralChar c = false

theorem endsNumber_nil : EndsNumber [] := by
  rintro c ⟨⟩

theorem EndsNumber.takeWhile_eq {text : List Char} (h : EndsNumber text) :
    text.takeWhile Numeral.isNumeralChar = [] := by
  cases text with
  | nil => rfl
  | cons c rest => exact List.takeWhile_cons_of_neg (by simp [h c rfl])

theorem EndsNumber.dropWhile_eq {text : List Char} (h : EndsNumber text) :
    text.dropWhile Numeral.isNumeralChar = text := by
  cases text with
  | nil => rfl
  | cons c rest => exact List.dropWhile_cons_of_neg (by simp [h c rfl])

theorem Token.next?_numeral {first : Char} (h : first = '-' ∨ first.isDigit) (rest : List Char) :
    next? (first :: rest) =
      (Numeral.ofChars? (first :: rest.takeWhile Numeral.isNumeralChar)).map fun value =>
        (.number value, rest.dropWhile Numeral.isNumeralChar) := by
  have hnumeral : (first == '-' || first.isDigit) = true := by simpa using h
  rw [next?, if_pos hnumeral]
  -- the characters that other tokens begin with are no digits
  all_goals
    intros
    subst_vars
    simp at h

theorem Token.next?_chars_number (n : Int) {rest : List Char} (hrest : EndsNumber rest) :
    next? ((number (.ofInt n)).chars ++ rest) = some (.number (.ofInt n), rest) := by
  obtain ⟨first, later, hchars, hfirst, hlater⟩ := Numeral.exists_chars_ofInt n
  have hread := Numeral.ofChars?_chars_ofInt n
  rw [hchars] at hread
  rw [chars, hchars, List.cons_append, next?_numeral hfirst, List.takeWhile_append_of_pos hlater,
    List.dropWhile_append_of_pos hlater, hrest.takeWhile_eq, hrest.dropWhile_eq, List.append_nil,
    hread]
  rfl

theorem tokensFrom_of_next?_none {found : List Token} {text : List Char} {c : Char}
    {rest : List Char} (htext : text.dropWhile isBlank = c :: rest)
    (hnext : Token.next? (c :: rest) = none) : tokensFrom found text = none := by
  rw [tokensFrom]
  split
  · rename_i hblank
    rw [hblank] at htext
    cases htext
  · rename_i hother
    cases hother.symm.trans htext
    split
    · rfl
    · rename_i hsome
      rw [hnext] at hsome
      cases hsome

/-- Blanks before a token do not matter. -/
theorem tokensFrom_blanks_append (found : List Token) {blanks : List Char}
    (hblanks : ∀ c ∈ blanks, isBlank c) (text : List Char) :
    tokensFrom found (blanks ++ text) = tokensFrom found text := by
  have hdrop : (blanks ++ text).dropWhile isBlank = text.dropWhile isBlank :=
    List.dropWhile_append_of_pos hblanks
  cases htext : text.dropWhile isBlank with
  | nil => rw [tokensFrom_of_blank htext, tokensFrom_of_blank (hdrop.trans htext)]
  | cons c rest =>
    cases hnext : Token.next? (c :: rest) with
    | none =>
      rw [tokensFrom_of_next?_none htext hnext,
        tokensFrom_of_next?_none (hdrop.trans htext) hnext]
    | some next =>
      rw [← htext] at hnext
      rw [tokensFrom_of_next? hnext, tokensFrom_of_next? (hdrop ▸ hnext)]

/-! ## Layouts -/

@[simp]
theorem Piece.token?_token (token : Token) : (Piece.token token).token? = some token := rfl

@[simp]
theorem Piece.token?_lineBreak (level : Nat) : (Piece.lineBreak level).token? = none := rfl

@[simp]
theorem Piece.token?_space : Piece.space.token? = none := rfl

theorem isNumeralChar_eq_false_of_isBlank {c : Char} (h : isBlank c) :
    Numeral.isNumeralChar c = false := by
  simp only [isBlank, Bool.or_eq_true, beq_iff_eq] at h
  rcases h with ((rfl | rfl) | rfl) | rfl <;> rfl

/-- A way of spelling pieces, with nothing but blanks for what is no token. -/
structure IsLayout (spell : Piece → List Char) : Prop where
  spell_token : ∀ token, spell (.token token) = token.chars
  isBlank_of_mem : ∀ piece, piece.token? = none → ∀ c ∈ spell piece, isBlank c

/-- Pieces that no number runs into. -/
def Stops (spell : Piece → List Char) (pieces : List Piece) : Prop :=
  ∀ rest, EndsNumber rest → EndsNumber (pieces.flatMap spell ++ rest)

/-- Pieces whose tokens are read back, if nothing follows that a number runs into. -/
def Legible (spell : Piece → List Char) (pieces : List Piece) : Prop :=
  ∀ found rest, EndsNumber rest →
    tokensFrom found (pieces.flatMap spell ++ rest) =
      tokensFrom ((pieces.filterMap Piece.token?).reverse ++ found) rest

section Layout

variable {spell : Piece → List Char} {pieces pieces' : List Piece} {token : Token} {piece : Piece}

theorem Stops.nil : Stops spell [] := fun _ hrest => hrest

theorem Stops.closed (hspell : IsLayout spell) (hclosed : token.isClosed) :
    Stops spell (.token token :: pieces) := by
  intro rest _
  rw [List.flatMap_cons, hspell.spell_token, List.append_assoc]
  cases token with
  | number value => cases hclosed
  | bool value => cases value <;> rintro c ⟨⟩ <;> rfl
  | string text => cases text <;> rintro c ⟨⟩ <;> rfl
  | openObject | closeObject | openArray | closeArray | colon | comma | null =>
    rintro c ⟨⟩
    rfl

theorem Stops.blank (hspell : IsLayout spell) (hpiece : piece.token? = none)
    (h : Stops spell pieces) : Stops spell (piece :: pieces) := by
  intro rest hrest
  have hblank := hspell.isBlank_of_mem piece hpiece
  rw [List.flatMap_cons, List.append_assoc]
  cases hspelled : spell piece with
  | nil => exact h rest hrest
  | cons first later =>
    rintro c ⟨⟩
    exact isNumeralChar_eq_false_of_isBlank (hblank first (hspelled ▸ List.mem_cons_self))

theorem Stops.append (h : Stops spell pieces) (h' : Stops spell pieces') :
    Stops spell (pieces ++ pieces') := by
  intro rest hrest
  rw [List.flatMap_append, List.append_assoc]
  exact h _ (h' rest hrest)

theorem Legible.nil : Legible spell [] := fun _ _ _ => rfl

theorem Legible.closed (hspell : IsLayout spell) (hclosed : token.isClosed)
    (h : Legible spell pieces) : Legible spell (.token token :: pieces) := by
  intro found rest hrest
  have hnext : Token.next? (((Piece.token token :: pieces).flatMap spell ++ rest).dropWhile
      isBlank) = some (token, pieces.flatMap spell ++ rest) := by
    rw [List.flatMap_cons, hspell.spell_token, List.append_assoc,
      Token.dropWhile_isBlank_chars_append hclosed, Token.next?_chars_append hclosed]
  rw [tokensFrom_of_next? hnext, h _ rest hrest]
  simp

theorem Legible.number (hspell : IsLayout spell) (n : Int) :
    Legible spell [.token (.number (.ofInt n))] := by
  intro found rest hrest
  have hfirst : ((Token.number (.ofInt n)).chars ++ rest).dropWhile isBlank =
      (Token.number (.ofInt n)).chars ++ rest := by
    obtain ⟨first, later, hchars, hsign, -⟩ := Numeral.exists_chars_ofInt n
    rw [Token.chars, hchars, List.cons_append]
    refine List.dropWhile_cons_of_neg fun hblank => ?_
    simp only [isBlank, Bool.or_eq_true, beq_iff_eq] at hblank
    rcases hblank with ((rfl | rfl) | rfl) | rfl <;> simp at hsign
  have hnext : Token.next? (([Piece.token (.number (.ofInt n))].flatMap spell ++ rest).dropWhile
      isBlank) = some (.number (.ofInt n), rest) := by
    rw [List.flatMap_singleton, hspell.spell_token, hfirst, Token.next?_chars_number n hrest]
  rw [tokensFrom_of_next? hnext]
  rfl

theorem Legible.blank (hspell : IsLayout spell) (hpiece : piece.token? = none)
    (h : Legible spell pieces) : Legible spell (piece :: pieces) := by
  intro found rest hrest
  rw [List.flatMap_cons, List.append_assoc,
    tokensFrom_blanks_append found (hspell.isBlank_of_mem piece hpiece), h found rest hrest,
    List.filterMap_cons_none hpiece]

theorem Legible.append (h : Legible spell pieces) (h' : Legible spell pieces')
    (hstops : Stops spell pieces') : Legible spell (pieces ++ pieces') := by
  intro found rest hrest
  rw [List.flatMap_append, List.append_assoc, h found _ (hstops rest hrest), h' _ rest hrest]
  simp

/-! ## Values -/

/-- A value whose numbers are integers. -/
inductive Integral : Json → Prop where
  | null : Integral .null
  | bool (value : Bool) : Integral (.bool value)
  | int (n : Int) : Integral (.int n)
  | string (text : Option String) : Integral (.string text)
  | array {items : List Json} (hitems : ∀ item ∈ items, Integral item) : Integral (.array items)
  | object {members : List (Option String × Json)}
      (hmembers : ∀ member ∈ members, Integral member.2) : Integral (.object members)

theorem stops_laterItems (hspell : IsLayout spell) (level : Nat) (items : List Json) :
    Stops spell (laterItems level items) := by
  cases items with
  | nil => exact .nil
  | cons item rest => exact .closed hspell rfl

theorem stops_laterMembers (hspell : IsLayout spell) (level : Nat)
    (members : List (Option String × Json)) : Stops spell (laterMembers level members) := by
  cases members with
  | nil => exact .nil
  | cons member rest => exact .closed hspell rfl

theorem legible_laterItems (hspell : IsLayout spell) {level : Nat} {items : List Json}
    (h : ∀ item ∈ items, Legible spell (item.pieces level)) :
    Legible spell (laterItems level items) := by
  induction items with
  | nil => exact .nil
  | cons item rest ih =>
    obtain ⟨hitem, hrest⟩ := List.forall_mem_cons.mp h
    rw [laterItems]
    simp only [List.cons_append, List.nil_append]
    exact .closed hspell rfl (.blank hspell rfl
      (hitem.append (ih hrest) (stops_laterItems hspell level rest)))

theorem legible_laterMembers (hspell : IsLayout spell) {level : Nat}
    {members : List (Option String × Json)}
    (h : ∀ member ∈ members, Legible spell (member.2.pieces level)) :
    Legible spell (laterMembers level members) := by
  induction members with
  | nil => exact .nil
  | cons member rest ih =>
    obtain ⟨hmember, hrest⟩ := List.forall_mem_cons.mp h
    rw [laterMembers]
    simp only [List.cons_append, List.nil_append]
    exact .closed hspell rfl (.blank hspell rfl (.closed hspell rfl (.closed hspell rfl
      (.blank hspell rfl (hmember.append (ih hrest) (stops_laterMembers hspell level rest))))))

/-- The tokens of a value are read back, whatever stands between them. -/
theorem Integral.legible (hspell : IsLayout spell) {value : Json} (h : value.Integral)
    (level : Nat) : Legible spell (value.pieces level) := by
  induction h generalizing level with
  | null => exact .closed hspell rfl .nil
  | bool value => exact .closed hspell rfl .nil
  | int n => exact .number hspell n
  | string text => exact .closed hspell rfl .nil
  | @array items _ ih =>
    cases items with
    | nil => exact .closed hspell rfl (.closed hspell rfl .nil)
    | cons item rest =>
      obtain ⟨hitem, hrest⟩ := List.forall_mem_cons.mp ih
      have hlater := legible_laterItems hspell fun later hlater => hrest later hlater (level + 1)
      have hend : Legible spell [.lineBreak level, .token .closeArray] :=
        .blank hspell rfl (.closed hspell rfl .nil)
      have hstops : Stops spell [.lineBreak level, .token .closeArray] :=
        .blank hspell rfl (.closed hspell rfl)
      rw [pieces]
      simp only [List.cons_append, List.nil_append, List.append_assoc]
      exact .closed hspell rfl (.blank hspell rfl ((hitem _).append (hlater.append hend hstops)
        ((stops_laterItems hspell _ _).append hstops)))
  | @object members _ ih =>
    cases members with
    | nil => exact .closed hspell rfl (.closed hspell rfl .nil)
    | cons member rest =>
      obtain ⟨hmember, hrest⟩ := List.forall_mem_cons.mp ih
      have hlater := legible_laterMembers hspell fun later hlater =>
        hrest later hlater (level + 1)
      have hend : Legible spell [.lineBreak level, .token .closeObject] :=
        .blank hspell rfl (.closed hspell rfl .nil)
      have hstops : Stops spell [.lineBreak level, .token .closeObject] :=
        .blank hspell rfl (.closed hspell rfl)
      rw [pieces]
      simp only [List.cons_append, List.nil_append, List.append_assoc]
      exact .closed hspell rfl (.blank hspell rfl (.closed hspell rfl (.closed hspell rfl
        (.blank hspell rfl ((hmember _).append (hlater.append hend hstops)
          ((stops_laterMembers hspell _ _).append hstops))))))

end Layout

/-! ## Building values -/

/-- The tokens of a value. -/
def tokensAt (level : Nat) (value : Json) : List Token :=
  (value.pieces level).filterMap Piece.token?

/-- An array that is not empty does not begin like an empty one. -/
theorem exists_tokensAt (level : Nat) (value : Json) :
    ∃ first rest, value.tokensAt level = first :: rest ∧ first ≠ .closeArray := by
  cases value with
  | null | bool | number | string => exact ⟨_, _, rfl, by rintro ⟨⟩⟩
  | array items => cases items <;> exact ⟨_, _, rfl, by rintro ⟨⟩⟩
  | object members => cases members <;> exact ⟨_, _, rfl, by rintro ⟨⟩⟩

theorem build_openArray (stack : List OpenContainer) {first : Token} (h : first ≠ .closeArray)
    (rest : List Token) :
    build none stack (.openArray :: first :: rest) =
      build none (.array [] :: stack) (first :: rest) := by
  rw [build]
  rintro later heq
  cases heq
  exact h rfl

theorem build_laterItems {level : Nat} {items : List Json}
    (h : ∀ item ∈ items, ∀ stack rest,
      build none stack (item.tokensAt level ++ rest) = build (some item) stack rest)
    (value : Json) (before : List Json) (stack : List OpenContainer) (rest : List Token) :
    build (some value) (.array before :: stack)
        ((laterItems level items).filterMap Piece.token? ++ .closeArray :: rest) =
      build (some (.array (before.reverse ++ value :: items))) stack rest := by
  induction items generalizing value before with
  | nil =>
    rw [laterItems, List.filterMap_nil, List.nil_append, build, List.reverse_cons]
  | cons item items ih =>
    obtain ⟨hitem, hitems⟩ := List.forall_mem_cons.mp h
    have htokens : (laterItems level (item :: items)).filterMap Piece.token? =
        .comma :: (item.tokensAt level ++ (laterItems level items).filterMap Piece.token?) := by
      rw [laterItems]
      simp [tokensAt, List.filterMap_cons]
    rw [htokens, List.cons_append, build, List.append_assoc, hitem, ih hitems]
    simp

theorem build_laterMembers {level : Nat} {members : List (Option String × Json)}
    (h : ∀ member ∈ members, ∀ stack rest,
      build none stack (member.2.tokensAt level ++ rest) = build (some member.2) stack rest)
    (name : Option String) (value : Json) (before : List (Option String × Json))
    (stack : List OpenContainer) (rest : List Token) :
    build (some value) (.object before name :: stack)
        ((laterMembers level members).filterMap Piece.token? ++ .closeObject :: rest) =
      build (some (.object (before.reverse ++ (name, value) :: members))) stack rest := by
  induction members generalizing name value before with
  | nil =>
    rw [laterMembers, List.filterMap_nil, List.nil_append, build, List.reverse_cons]
  | cons member members ih =>
    obtain ⟨hmember, hmembers⟩ := List.forall_mem_cons.mp h
    have htokens : (laterMembers level (member :: members)).filterMap Piece.token? =
        .comma :: .string member.1 :: .colon ::
          (member.2.tokensAt level ++ (laterMembers level members).filterMap Piece.token?) := by
      rw [laterMembers]
      simp [tokensAt, List.filterMap_cons]
    simp only [htokens, List.cons_append, List.append_assoc]
    rw [build, hmember, ih hmembers]
    simp

/-- A value is built from its tokens, whatever follows them. -/
theorem Integral.build_eq {value : Json} (h : value.Integral) (level : Nat)
    (stack : List OpenContainer) (rest : List Token) :
    build none stack (value.tokensAt level ++ rest) = build (some value) stack rest := by
  induction h generalizing level stack rest with
  | null | bool | int | string => rfl
  | @array items _ ih =>
    cases items with
    | nil => rfl
    | cons item items =>
      obtain ⟨hitem, hitems⟩ := List.forall_mem_cons.mp ih
      have htokens : (Json.array (item :: items)).tokensAt level ++ rest =
          .openArray :: (item.tokensAt (level + 1) ++
            ((laterItems (level + 1) items).filterMap Piece.token? ++ .closeArray :: rest)) := by
        rw [tokensAt, pieces]
        simp [tokensAt, List.filterMap_cons]
      obtain ⟨first, later, hfirst, hne⟩ := item.exists_tokensAt (level + 1)
      rw [htokens, hfirst, List.cons_append, build_openArray stack hne, ← List.cons_append,
        ← hfirst, hitem, build_laterItems fun later hlater => hitems later hlater (level + 1)]
      rfl
  | @object members _ ih =>
    cases members with
    | nil => rfl
    | cons member members =>
      obtain ⟨hmember, hmembers⟩ := List.forall_mem_cons.mp ih
      have htokens : (Json.object (member :: members)).tokensAt level ++ rest =
          .openObject :: .string member.1 :: .colon :: (member.2.tokensAt (level + 1) ++
            ((laterMembers (level + 1) members).filterMap Piece.token? ++
              .closeObject :: rest)) := by
        rw [tokensAt, pieces]
        simp [tokensAt, List.filterMap_cons]
      rw [htokens, build, hmember,
        build_laterMembers fun later hlater => hmembers later hlater (level + 1)]
      rfl

/-! ## Texts -/

/-- A value is read back from any layout of its tokens. -/
theorem Integral.read?_eq {spell : Piece → List Char} (hspell : IsLayout spell) {value : Json}
    (h : value.Integral) : read? (.ofList ((value.pieces 0).flatMap spell)) = some value := by
  have hlegible := h.legible hspell 0 [] [] endsNumber_nil
  have hbuild := h.build_eq 0 [] []
  simp only [List.append_nil] at hlegible hbuild
  rw [read?, tokens?, String.toList_ofList, hlegible, tokensFrom_of_blank rfl, List.reverse_reverse]
  exact hbuild

theorem isLayout_chars : IsLayout Piece.chars where
  spell_token _ := rfl
  isBlank_of_mem piece hpiece c hc := by
    cases piece with
    | token token => cases hpiece
    | lineBreak level =>
      rcases List.mem_cons.mp hc with rfl | hspace
      · rfl
      · rw [List.eq_of_mem_replicate hspace]
        rfl
    | space =>
      rw [List.mem_singleton.mp hc]
      rfl

/-- A value is read back from its indented text. -/
theorem Integral.read?_pretty {value : Json} (h : value.Integral) :
    read? value.pretty = some value :=
  h.read?_eq isLayout_chars

/-- A value is read back from its compact text. -/
theorem Integral.read?_compact {value : Json} (h : value.Integral) :
    read? value.compact = some value := by
  have hlayout : IsLayout fun piece => (piece.token?.map Token.chars).getD [] := by
    refine ⟨fun _ => rfl, fun piece hpiece c hc => ?_⟩
    simp [hpiece] at hc
  have hcompact : value.compact = .ofList ((value.pieces 0).flatMap fun piece =>
      (piece.token?.map Token.chars).getD []) := by
    rw [compact]
    congr 1
    induction value.pieces 0 with
    | nil => rfl
    | cons piece pieces ih => cases piece <;> simp [List.filterMap_cons, ih]
  rw [hcompact]
  exact h.read?_eq hlayout

end KeyTransparency.Json
