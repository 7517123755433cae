import KeyTransparency.Proofs.Words.Head

/-!
# Freshness is exact

The age of a head stops at the least and at the greatest time, and so do the limits.  As long as the
milliseconds of a limit stay below the greatest time, an age that has stopped lies beyond the limit
on its side, just as the true age does.  So the check says what the numbers say, and a limit is
negated without halting.
-/

namespace KeyTransparency

/-! ## Lengths of time -/

namespace Duration

variable {duration : Duration}

/-- All of a length of time in nanoseconds. -/
def totalNanos (duration : Duration) : Nat :=
  1000000000 * duration.seconds.toNat + duration.nanos.toNat

/-- A number of milliseconds is within a length of time if it is within its whole milliseconds. -/
theorem le_wholeMillis_iff {millis : Int} :
    millis ≤ duration.wholeMillis ↔ 1000000 * millis ≤ duration.totalNanos := by
  have hnanos := Nat.div_add_mod duration.nanos.toNat 1000000
  have hrest := Nat.mod_lt duration.nanos.toNat (show 0 < 1000000 by decide)
  rw [wholeMillis, totalNanos]
  push_cast
  omega

/-- The milliseconds of these lengths of time are below the greatest time. -/
theorem wholeMillis_lt (h : duration.totalNanos ≤ 1000000000 * 9223372036854775) :
    duration.wholeMillis < Int64.maxValue.toInt := by
  have hgreatest : Int64.maxValue.toInt = 9223372036854775807 := rfl
  rw [totalNanos] at h
  rw [wholeMillis, hgreatest]
  omega

theorem totalNanos_ofSeconds (seconds : UInt64) :
    (ofSeconds seconds).totalNanos = 1000000000 * seconds.toNat := rfl

theorem wholeMillis_ofSeconds (seconds : UInt64) :
    (ofSeconds seconds).wholeMillis = 1000 * seconds.toNat := by
  rw [wholeMillis, ofSeconds, UInt32.toNat_zero, Nat.zero_div, Nat.add_zero]

end Duration

/-! ## The check of a head -/

namespace Words

/-- With limits of up to 9223372036854775 seconds, a head is fresh just if the difference of the
times, as a number without bounds, is at most the greatest age, and the opposite difference at most
the greatest skew.  This holds of all times and of limits of whole seconds and to the nanosecond;
the check never halts, and where it fails it names the signer and both times. -/
theorem freshness_is_exact (signer : Signer) (head : TreeHead) (now : Int64) :
    (∀ maxAge maxSkew : UInt64,
      maxAge.toNat ≤ 9223372036854775 → maxSkew.toNat ≤ 9223372036854775 →
        checkFresh signer head now (.ofSeconds maxAge) (.ofSeconds maxSkew) =
          ofResult (head.checkFresh signer now (.ofSeconds maxAge) (.ofSeconds maxSkew)) ∧
        head.checkFresh signer now (.ofSeconds maxAge) (.ofSeconds maxSkew) =
          if now.toInt - head.timestamp.toInt ≤ 1000 * maxAge.toNat ∧
            head.timestamp.toInt - now.toInt ≤ 1000 * maxSkew.toNat
          then .ok () else .error (.staleTreeHead signer head.timestamp now)) ∧
    ∀ maxAge maxSkew : Duration, maxAge.totalNanos ≤ 1000000000 * 9223372036854775 →
      maxSkew.totalNanos ≤ 1000000000 * 9223372036854775 →
        checkFresh signer head now maxAge maxSkew =
          ofResult (head.checkFresh signer now maxAge maxSkew) ∧
        head.checkFresh signer now maxAge maxSkew =
          if 1000000 * (now.toInt - head.timestamp.toInt) ≤ maxAge.totalNanos ∧
            1000000 * (head.timestamp.toInt - now.toInt) ≤ maxSkew.totalNanos
          then .ok () else .error (.staleTreeHead signer head.timestamp now) := by
  constructor
  · intro maxAge maxSkew hage hskew
    have hseconds {seconds : UInt64} (h : seconds.toNat ≤ 9223372036854775) :=
      Duration.wholeMillis_lt (Duration.totalNanos_ofSeconds seconds ▸ Nat.mul_le_mul_left _ h)
    have hchecked := head.checkFresh_eq_ite signer now (hseconds hage) (hseconds hskew)
    simp only [Duration.wholeMillis_ofSeconds] at hchecked
    push_cast at hchecked
    exact ⟨checkFresh_eq signer head now _ _, hchecked⟩
  · intro maxAge maxSkew hage hskew
    have hchecked := head.checkFresh_eq_ite signer now (Duration.wholeMillis_lt hage)
      (Duration.wholeMillis_lt hskew)
    simp only [Duration.le_wholeMillis_iff] at hchecked
    exact ⟨checkFresh_eq signer head now _ _, hchecked⟩

/-- Seen from the greatest time, a head of the least time is stale even if the greatest of these
limits is allowed.  A head whose age is all the whole milliseconds of a limit is fresh. -/
theorem freshness_is_exact_at_extremes :
    (9223372036854775 : UInt64).toNat ≤ 9223372036854775 ∧
      checkFresh .service ⟨1, Int64.minValue, emptyTreeHash, []⟩ Int64.maxValue
          (.ofSeconds 9223372036854775) (.ofSeconds 9223372036854775) =
        ofResult (.error (.staleTreeHead .service Int64.minValue Int64.maxValue)) ∧
      checkFresh .auditor ⟨1, 0, emptyTreeHash, []⟩ 9223372036854774999
          ⟨9223372036854774, 999999999, by decide⟩ (.ofSeconds 0) = ofResult (.ok ()) := by
  have hlimit : (9223372036854775 : UInt64).toNat ≤ 9223372036854775 := by decide
  have hstale := freshness_is_exact .service ⟨1, Int64.minValue, emptyTreeHash, []⟩ Int64.maxValue
  have hfresh := freshness_is_exact .auditor ⟨1, 0, emptyTreeHash, []⟩ 9223372036854774999
  obtain ⟨hstaleChecked, hstaleResult⟩ := hstale.1 _ _ hlimit hlimit
  obtain ⟨hfreshChecked, hfreshResult⟩ :=
    hfresh.2 ⟨9223372036854774, 999999999, by decide⟩ (.ofSeconds 0) (by decide) (by decide)
  refine ⟨hlimit, ?_, ?_⟩
  · rw [hstaleChecked, hstaleResult, if_neg (by decide)]
  · rw [hfreshChecked, hfreshResult, if_pos (by decide)]

/-- With a limit of one second more, a head of any age is fresh. -/
example : isFresh? Int64.minValue Int64.maxValue (.ofSeconds 9223372036854776) (.ofSeconds 0) =
    some true := by decide

end Words

end KeyTransparency
