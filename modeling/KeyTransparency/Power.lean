/-!
# Powers

Powers of numbers are those of the core library throughout, also in a module that sees the powers of
a monoid, so that a definition and a statement about it mean the same by `2 ^ n`.
-/

namespace KeyTransparency

/-- The powers of numbers, before all other readings of `2 ^ n`. -/
instance (priority := 2000) natPower : Pow Nat Nat := instPowNat

end KeyTransparency
