import KeyTransparency.Words.Run
import Mathlib.Data.List.Forall2

/-!
# When a computation in words goes on

A computation in words goes on where its numbers stay within what a word can hold, and then it has
the result that the numbers have.  The lemmas here say so for each operation, and take a computation
apart from the front, so that it is compared step by step with one that cannot halt.
-/

namespace KeyTransparency.Words

variable {ε α β : Type}

/-! ## Sequences -/

/-- Where the first part of a computation comes to a result, the rest decides. -/
theorem bind_eq_ofResult {first : Run ε α} {result : Except ε α} {next : α → Run ε β}
    {rest : α → Except ε β} (hfirst : first = ofResult result)
    (hnext : ∀ a, result = .ok a → next a = ofResult (rest a)) :
    first >>= next = ofResult (result >>= rest) := by
  subst hfirst
  cases result with
  | error error => rfl
  | ok a => exact hnext a rfl

theorem result_bind_eq_ofResult {result : Except ε α} {next : α → Run ε β} {rest : α → Except ε β}
    (hnext : ∀ a, result = .ok a → next a = ofResult (rest a)) :
    (liftM result >>= next : Run ε β) = ofResult (result >>= rest) :=
  bind_eq_ofResult rfl hnext

/-- A computation that is given up where something holds goes on if it does not. -/
theorem refuse_eq_ofResult {p : Prop} [Decidable p] {error : ε} {next : β → Run ε α}
    {next' : β → Except ε α} {rest : Run ε α} {rest' : Except ε α}
    (h : ¬p → rest = ofResult rest') :
    (if p then (throw error >>= next) else rest) =
      ofResult (if p then (throw error >>= next') else rest') := by
  by_cases hp : p
  · rw [if_pos hp, if_pos hp]
    rfl
  · rw [if_neg hp, if_neg hp]
    exact h hp

/-- A computation goes on from what an operation yields. -/
theorem some_bind {operation : Option α} {a : α} (h : operation = some a) (next : α → Run ε β) :
    (liftM operation >>= next : Run ε β) = next a := by
  subst h
  rfl

/-- Words are found for all members of a list of numbers, if one is found for each. -/
theorem exists_mapM_toNat {word? : α → Option UInt64} {list : List α} {numbers : List Nat}
    (h : List.Forall₂ (fun a number => ∃ word, word? a = some word ∧ word.toNat = number) list
      numbers) :
    ∃ words, list.mapM word? = some words ∧ words.map (·.toNat) = numbers := by
  induction h with
  | nil => exact ⟨[], rfl, rfl⟩
  | cons hfirst _ ih =>
    obtain ⟨word, hword, hnumber⟩ := hfirst
    obtain ⟨words, hwords, hnumbers⟩ := ih
    refine ⟨word :: words, ?_, ?_⟩
    · rw [List.mapM_cons, hword, hwords]
      rfl
    · rw [List.map_cons, hnumber, hnumbers]

/-! ## Operations -/

theorem exists_ofNat? {number : Nat} (h : number < UInt64.size) :
    ∃ word, ofNat? number = some word ∧ word.toNat = number :=
  ⟨.ofNat number, if_pos h, UInt64.toNat_ofNat_of_lt' h⟩

theorem difference?_eq {a b : Nat} (h : b ≤ a) : difference? a b = some (a - b) := if_pos h

theorem exists_add? {a b : UInt64} (h : a.toNat + b.toNat < UInt64.size) :
    ∃ sum, add? a b = some sum ∧ sum.toNat = a.toNat + b.toNat :=
  exists_ofNat? h

theorem exists_sub? {a b : UInt64} (h : b.toNat ≤ a.toNat) :
    ∃ difference, sub? a b = some difference ∧ difference.toNat = a.toNat - b.toNat := by
  have hbound : a.toNat - b.toNat < UInt64.size := Nat.lt_of_le_of_lt (Nat.sub_le _ _) a.toNat_lt
  obtain ⟨word, hword, hnumber⟩ := exists_ofNat? hbound
  refine ⟨word, ?_, hnumber⟩
  rw [sub?, difference?_eq h]
  exact hword

theorem sub?_eq {a b : UInt64} (h : b ≤ a) : sub? a b = some (a - b) := by
  obtain ⟨difference, hsub, hdifference⟩ := exists_sub? (UInt64.le_iff_toNat_le.mp h)
  rw [← UInt64.toNat_sub_of_le _ _ h, UInt64.toNat_inj] at hdifference
  rw [hsub, hdifference]

theorem exists_mul? {a b : UInt64} (h : a.toNat * b.toNat < UInt64.size) :
    ∃ product, mul? a b = some product ∧ product.toNat = a.toNat * b.toNat :=
  exists_ofNat? h

theorem exists_shiftLeft? {a : UInt64} {level : Nat} (hlevel : level < 64)
    (h : a.toNat <<< level < UInt64.size) :
    ∃ word, shiftLeft? a level = some word ∧ word.toNat = a.toNat <<< level := by
  rw [shiftLeft?, if_pos hlevel]
  exact exists_ofNat? h

theorem exists_shiftRight? (a : UInt64) {level : Nat} (hlevel : level < 64) :
    ∃ word, shiftRight? a level = some word ∧ word.toNat = a.toNat >>> level := by
  rw [shiftRight?, if_pos hlevel]
  exact exists_ofNat? (Nat.lt_of_le_of_lt (Nat.shiftRight_le _ _) a.toNat_lt)

theorem log2?_eq {a : UInt64} (h : a.toNat ≠ 0) : log2? a = some a.toNat.log2 := by
  refine if_neg ?_
  rintro rfl
  exact h rfl

theorem take?_eq {place : Nat} {list : List α} (h : place ≤ list.length) :
    take? place list = some (list.take place) := if_pos h

theorem drop?_eq {place : Nat} {list : List α} (h : place ≤ list.length) :
    drop? place list = some (list.drop place) := if_pos h

theorem zip?_eq {list : List α} {list' : List β} (h : list.length = list'.length) :
    zip? list list' = some (list.zip list') := if_pos h

end KeyTransparency.Words
