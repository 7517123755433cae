import KeyTransparency.Attempt

/-!
# What success says

A check that is a sequence of checks succeeds exactly if each of them does, and fails as the first
of them that does not.  The lemmas here take such a sequence apart from the front, so that later
proofs name what was checked and never compute with results.
-/

namespace KeyTransparency

variable {ε ε' α β : Type}

theorem bind_eq_ok_iff {first : Except ε α} {next : α → Except ε β} {b : β} :
    first >>= next = .ok b ↔ ∃ a, first = .ok a ∧ next a = .ok b := by
  cases first with
  | error error => simp [bind, Except.bind]
  | ok a => simp [bind, Except.bind]

/-- A sequence fails with the error of the first check that fails. -/
theorem bind_eq_error_iff {first : Except ε α} {next : α → Except ε β} {error : ε} :
    first >>= next = .error error ↔
      first = .error error ∨ ∃ a, first = .ok a ∧ next a = .error error := by
  cases first with
  | error other => simp [bind, Except.bind]
  | ok a => simp [bind, Except.bind]

theorem mapError_eq_ok_iff {f : ε → ε'} {result : Except ε α} {a : α} :
    result.mapError f = .ok a ↔ result = .ok a := by
  cases result with
  | error error =>
    constructor
    · intro h
      cases h
    · intro h
      cases h
  | ok a =>
    constructor
    · intro h
      cases h
      rfl
    · intro h
      cases h
      rfl

/-- A check goes on only if what it refuses does not hold. -/
theorem refuse_eq_ok_iff {p : Prop} [Decidable p] {error : ε} {next : β → Except ε α}
    {rest : Except ε α} {a : α} :
    (if p then (throw error >>= next) else rest) = .ok a ↔ ¬p ∧ rest = .ok a := by
  by_cases hp : p
  · simp [hp, bind, Except.bind, throw, throwThe, MonadExceptOf.throw]
  · simp [hp]

/-- A last test succeeds only if it holds. -/
theorem require_eq_ok_iff {p : Prop} [Decidable p] {error : ε} {a b : α} :
    (if p then (pure a : Except ε α) else throw error) = .ok b ↔ p ∧ a = b := by
  by_cases hp : p
  · simp [hp, pure, Except.pure]
  · simp [hp, throw, throwThe, MonadExceptOf.throw]

theorem refuse_last_eq_ok_iff {p : Prop} [Decidable p] {error : ε} {a b : α} :
    (if p then throw error else (pure a : Except ε α)) = .ok b ↔ ¬p ∧ a = b := by
  by_cases hp : p
  · simp [hp, throw, throwThe, MonadExceptOf.throw]
  · simp [hp, pure, Except.pure]

/-- What is read of items written one by one are the items, if each is read back. -/
theorem mapM_map_eq_some {write : α → β} {read : β → Option α} {items : List α}
    (h : ∀ item ∈ items, read (write item) = some item) :
    (items.map write).mapM read = some items := by
  induction items with
  | nil => rfl
  | cons item items ih =>
    obtain ⟨hitem, hitems⟩ := List.forall_mem_cons.mp h
    rw [List.map_cons, List.mapM_cons, hitem, ih hitems]
    rfl

/-- Items are those written for what is read of them, if each of them is. -/
theorem eq_map_of_mapM_eq_some {read : α → Option β} {write : β → α} {p : β → Prop}
    (h : ∀ item value, read item = some value → item = write value ∧ p value) {items : List α}
    {values : List β} (hread : items.mapM read = some values) :
    items = values.map write ∧ ∀ value ∈ values, p value := by
  induction items generalizing values with
  | nil =>
    cases hread
    exact ⟨rfl, fun _ hvalue => absurd hvalue List.not_mem_nil⟩
  | cons item items ih =>
    rw [List.mapM_cons, Option.bind_eq_bind, Option.bind_eq_some_iff] at hread
    obtain ⟨value, hvalue, hread⟩ := hread
    rw [Option.bind_eq_bind, Option.bind_eq_some_iff] at hread
    obtain ⟨rest, hrest, hread⟩ := hread
    cases hread
    obtain ⟨hitem, hp⟩ := h item value hvalue
    obtain ⟨hitems, hall⟩ := ih hrest
    exact ⟨by rw [hitem, hitems, List.map_cons], List.forall_mem_cons.mpr ⟨hp, hall⟩⟩

namespace Attempt

/-- An attempt that is given up where something holds goes on only if it does not. -/
theorem refuse_result_eq_ok_iff {p : Prop} [Decidable p] {error : VerificationError}
    {next : β → Attempt α} {rest : Attempt α} {a : α} :
    (if p then (Attempt.fail error >>= next) else rest).result = .ok a ↔
      ¬p ∧ rest.result = .ok a := by
  by_cases hp : p
  · rw [if_pos hp, result_bind, result_fail]
    simp [hp, bind, Except.bind]
  · simp [hp]

theorem result_map (f : α → β) (attempt : Attempt α) :
    (f <$> attempt).result = attempt.result >>= fun a => .ok (f a) :=
  result_bind attempt fun a => pure (f a)

theorem result_map_eq_ok_iff {f : α → β} {attempt : Attempt α} {b : β} :
    (f <$> attempt).result = .ok b ↔ ∃ a, attempt.result = .ok a ∧ f a = b := by
  rw [result_map, bind_eq_ok_iff]
  simp only [Except.ok.injEq]

theorem liftM_result (result : Except VerificationError α) :
    (liftM result : Attempt α).result = result := rfl

end Attempt

end KeyTransparency
