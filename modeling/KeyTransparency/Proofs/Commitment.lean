import KeyTransparency.Proofs.Collision

/-!
# A commitment opens one way

All that is hashed for a commitment before the value has a fixed length, so the opening, the
position and the value are read back from it, also if the value is longer than its written length
can say.  An opening of another length opens nothing.
-/

namespace KeyTransparency.Commitment

variable {commitment : Hash} {opening : Bytes} {position : UInt64} {value : Bytes}

/-- What opens a commitment has the right length and gives the commitment again. -/
theorem message_of_opens (h : opens commitment opening position value = true) :
    ∃ octets, Octets.ofBytes? openingSize opening = some octets ∧
      commitment = commit octets position value := by
  unfold opens at h
  split at h
  · cases h
  · rename_i octets hoctets
    exact ⟨octets, hoctets, (beq_iff_eq.mp h).symm⟩

theorem opens_commit (opening : Octets openingSize) (position : UInt64) (value : Bytes) :
    opens (commit opening position value) opening.bytes position value = true := by
  unfold opens
  rw [Octets.ofBytes?_bytes]
  exact beq_self_eq_true _

/-- A commitment opens to what it was made from.  If it opens in two ways, these are the same, or
what is hashed for them is a collision. -/
theorem opens_one_way_or_collision :
    (∀ (opening : Octets openingSize) (position : UInt64) (value : Bytes),
      opens (commit opening position value) opening.bytes position value = true) ∧
    ∀ (commitment : Hash) (opening opening' : Bytes) (position position' : UInt64)
      (value value' : Bytes), opens commitment opening position value = true →
        opens commitment opening' position' value' = true →
        ∃ octets octets' : Octets openingSize, octets.bytes = opening ∧
          octets'.bytes = opening' ∧
          ((opening = opening' ∧ position = position' ∧ value = value') ∨
            Collision [message octets position value, message octets' position' value']) := by
  refine ⟨opens_commit, ?_⟩
  intro commitment opening opening' position position' value value' h h'
  obtain ⟨octets, hoctets, hcommitment⟩ := message_of_opens h
  obtain ⟨octets', hoctets', hcommitment'⟩ := message_of_opens h'
  have hbytes := Octets.ofBytes?_eq_some_iff.mp hoctets
  have hbytes' := Octets.ofBytes?_eq_some_iff.mp hoctets'
  refine ⟨octets, octets', hbytes, hbytes', ?_⟩
  by_cases hmessage : message octets position value = message octets' position' value'
  · have hopening : opening = opening' := by
      rw [← hbytes, ← hbytes', opening_eq_of_message_eq hmessage]
    exact .inl ⟨hopening, position_eq_of_message_eq hmessage, value_eq_of_message_eq hmessage⟩
  · have hdigest : commit octets position value = commit octets' position' value' :=
      hcommitment.symm.trans hcommitment'
    exact .inr ⟨_, List.mem_cons_self, _, List.mem_cons_of_mem _ List.mem_cons_self, hmessage,
      hdigest⟩

/-- A value whose length cannot be written. -/
def overlongValue : Bytes := List.replicate (maxWrittenLength + 1) 0x61

/-- The two ways in which the commitment to an overlong value is opened here are one. -/
theorem opens_one_way_overlong :
    maxWrittenLength < overlongValue.length ∧
      opens (commit (.replicate openingSize 0x07) 3 overlongValue)
        (List.replicate openingSize 0x07) 3 overlongValue = true ∧
      ∃ octets octets' : Octets openingSize, octets.bytes = List.replicate openingSize 0x07 ∧
        octets'.bytes = List.replicate openingSize 0x07 ∧
        ((List.replicate openingSize (0x07 : UInt8) = List.replicate openingSize 0x07 ∧
            (3 : UInt64) = 3 ∧ overlongValue = overlongValue) ∨
          Collision [message octets 3 overlongValue, message octets' 3 overlongValue]) := by
  have hlength : maxWrittenLength < overlongValue.length := by
    rw [overlongValue, List.length_replicate]
    exact Nat.lt_succ_self _
  have hopens := opens_one_way_or_collision.1 (.replicate openingSize 0x07) 3 overlongValue
  exact ⟨hlength, hopens, opens_one_way_or_collision.2 _ _ _ _ _ _ _ hopens hopens⟩

end KeyTransparency.Commitment
