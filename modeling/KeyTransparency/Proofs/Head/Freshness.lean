import KeyTransparency.Head.Authentication
import Mathlib.Order.MinMax

/-!
# When a head is fresh

The age of a head and the limits on it are kept within what a time can hold before they are
compared.  `InWindow` says the same of the numbers themselves.  As long as the limits can be held, it
is the plain comparison on both sides.
-/

namespace KeyTransparency

variable {timestamp now : Int64} {maxAge maxSkew : Duration}

/-- A time is as close to now as the limits ask, in whole milliseconds.  In the past an age beyond
the greatest time counts as this time, and in the future a limit beyond the greatest time does. -/
structure InWindow (timestamp now : Int64) (maxAge maxSkew : Duration) : Prop where
  age_le : min (now.toInt - timestamp.toInt) Int64.maxValue.toInt ≤ maxAge.wholeMillis
  skew_le : timestamp.toInt - now.toInt ≤ min (maxSkew.wholeMillis : Int) Int64.maxValue.toInt

theorem clampMillis_natCast (millis : Nat) :
    clampMillis millis = min (millis : Int) Int64.maxValue.toInt := by
  have hleast : Int64.minValue.toInt ≤ 0 := by decide
  have hgreatest : 0 ≤ Int64.maxValue.toInt := by decide
  rw [clampMillis]
  exact max_eq_right (hleast.trans (le_min (Int.natCast_nonneg millis) hgreatest))

theorem le_clampMillis_iff {bound millis : Int} (hleast : Int64.minValue.toInt < bound)
    (hgreatest : bound ≤ Int64.maxValue.toInt) : bound ≤ clampMillis millis ↔ bound ≤ millis := by
  rw [clampMillis, le_max_iff, le_min_iff, or_iff_right (not_le_of_gt hleast),
    and_iff_left hgreatest]

theorem clampMillis_le_natCast_iff {millis : Int} {bound : Nat} :
    clampMillis millis ≤ min (bound : Int) Int64.maxValue.toInt ↔
      min millis Int64.maxValue.toInt ≤ bound := by
  have hleast : Int64.minValue.toInt ≤ 0 := by decide
  rw [clampMillis, max_le_iff, and_iff_right, le_min_iff, and_iff_left (min_le_right _ _)]
  exact le_min (hleast.trans (Int.natCast_nonneg bound)) (by decide)

/-- A head is fresh exactly if its time lies in the window. -/
theorem isFresh_iff :
    isFresh timestamp now maxAge maxSkew ↔ InWindow timestamp now maxAge maxSkew := by
  have hopposite : Int64.minValue.toInt < -Int64.maxValue.toInt := by decide
  have hgreatest : 0 ≤ Int64.maxValue.toInt := by decide
  have hskew : -min (maxSkew.wholeMillis : Int) Int64.maxValue.toInt ≤
        clampMillis (now.toInt - timestamp.toInt) ↔
      timestamp.toInt - now.toInt ≤ min (maxSkew.wholeMillis : Int) Int64.maxValue.toInt := by
    rw [le_clampMillis_iff (by omega) (by omega)]
    omega
  rw [isFresh, decide_eq_true_iff, clampMillis_natCast, clampMillis_natCast, hskew,
    clampMillis_le_natCast_iff]
  exact ⟨fun ⟨hahead, hold⟩ => ⟨hold, hahead⟩, fun h => ⟨h.skew_le, h.age_le⟩⟩

/-- Where the milliseconds of the limits are below the greatest time, the window is what the numbers
say. -/
theorem inWindow_iff (hage : maxAge.wholeMillis < Int64.maxValue.toInt)
    (hskew : maxSkew.wholeMillis < Int64.maxValue.toInt) :
    InWindow timestamp now maxAge maxSkew ↔
      now.toInt - timestamp.toInt ≤ maxAge.wholeMillis ∧
        timestamp.toInt - now.toInt ≤ maxSkew.wholeMillis := by
  have hold : min (now.toInt - timestamp.toInt) Int64.maxValue.toInt ≤ maxAge.wholeMillis ↔
      now.toInt - timestamp.toInt ≤ maxAge.wholeMillis := by
    rw [min_le_iff, or_iff_left (not_le_of_gt hage)]
  rw [← hold, ← min_eq_left hskew.le]
  exact ⟨fun h => ⟨h.age_le, h.skew_le⟩, fun h => ⟨h.1, h.2⟩⟩

theorem TreeHead.checkFresh_eq_ite (signer : Signer) (head : TreeHead) (now : Int64)
    (hage : maxAge.wholeMillis < Int64.maxValue.toInt)
    (hskew : maxSkew.wholeMillis < Int64.maxValue.toInt) :
    head.checkFresh signer now maxAge maxSkew =
      if now.toInt - head.timestamp.toInt ≤ maxAge.wholeMillis ∧
        head.timestamp.toInt - now.toInt ≤ maxSkew.wholeMillis
      then .ok () else .error (.staleTreeHead signer head.timestamp now) := by
  rw [TreeHead.checkFresh]
  exact if_congr (isFresh_iff.trans (inWindow_iff hage hskew)) rfl rfl

end KeyTransparency
