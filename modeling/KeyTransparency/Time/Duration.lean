/-!
# Lengths of time

A length of time is known to the nanosecond.  Times are counted in milliseconds, so it is its whole
milliseconds that the difference of two times is compared with.
-/

namespace KeyTransparency

/-- A length of time in whole seconds and the nanoseconds beyond them. -/
structure Duration where
  seconds : UInt64
  nanos : UInt32
  nanos_lt : nanos.toNat < 1000000000
deriving DecidableEq

namespace Duration

def ofSeconds (seconds : UInt64) : Duration := ⟨seconds, 0, by decide⟩

/-- The whole milliseconds of a length of time. -/
def wholeMillis (duration : Duration) : Nat :=
  1000 * duration.seconds.toNat + duration.nanos.toNat / 1000000

end Duration

end KeyTransparency
