import KeyTransparency.Event

/-!
# Attempts

An attempt to verify something succeeds with a value or fails with an error, and in both cases
leaves the events on its way.  What it comes to does not depend on the events: the main statements
say that the results of attempts compose like results without events.
-/

namespace KeyTransparency

/-- The events on the way to a result, and the result. -/
structure Attempt (α : Type) where
  events : List Event
  result : Except VerificationError α

namespace Attempt

variable {α β : Type}

/-- The attempt that comes to a result at once. -/
def ofResult (result : Except VerificationError α) : Attempt α := ⟨[], result⟩

/-- The attempt that fails at once. -/
def fail (error : VerificationError) : Attempt α := ofResult (.error error)

/-- The attempt that goes on from the value of another, if it has one. -/
def andThen (first : Attempt α) (next : α → Attempt β) : Attempt β :=
  match first.result with
  | .error error => ⟨first.events, .error error⟩
  | .ok value => ⟨first.events ++ (next value).events, (next value).result⟩

instance : Monad Attempt where
  pure value := ofResult (.ok value)
  bind := andThen

instance : MonadLift (Except VerificationError) Attempt := ⟨ofResult⟩

/-- The attempt that records an event. -/
def record (event : Event) : Attempt Unit := ⟨[event], .ok ()⟩

/-- The attempt that records an event of its error, if it fails. -/
def recordError (event : VerificationError → Event) (attempt : Attempt α) : Attempt α :=
  match attempt.result with
  | .error error => { attempt with events := attempt.events ++ [event error] }
  | .ok _ => attempt

@[simp]
theorem result_fail (error : VerificationError) : (fail error : Attempt α).result = .error error :=
  rfl

@[simp]
theorem result_pure (value : α) : (pure value : Attempt α).result = .ok value := rfl

@[simp]
theorem result_bind (first : Attempt α) (next : α → Attempt β) :
    (first >>= next).result = first.result >>= fun value => (next value).result := by
  change (andThen first next).result = _
  unfold andThen
  cases first.result <;> rfl

@[simp]
theorem result_record (event : Event) : (record event).result = .ok () := rfl

@[simp]
theorem result_recordError (event : VerificationError → Event) (attempt : Attempt α) :
    (attempt.recordError event).result = attempt.result := by
  unfold recordError
  split <;> rfl

end Attempt

end KeyTransparency
