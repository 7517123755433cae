import KeyTransparency.Commitment
import KeyTransparency.PrefixTree
import Mathlib.Data.List.Nodup

/-!
# Collisions among hashed byte strings

No statement here assumes that SHA-256 has no collisions, since it has.  What a proof binds is
instead said relative to the byte strings that were hashed on the way: either the conclusion holds,
or two different strings of an explicit list have the same digest.

Everything that is hashed is written so that its parts can be read back.  The second half of the
module says so for nodes and entries of the log, for leaves and nodes of prefix trees, and for
commitments.
-/

namespace KeyTransparency

/-- Two different byte strings of a list have the same digest. -/
def Collision (messages : List Bytes) : Prop :=
  ∃ first ∈ messages, ∃ second ∈ messages,
    first ≠ second ∧ Hash.ofMessage first = Hash.ofMessage second

theorem Collision.mono {messages more : List Bytes} (hsub : messages ⊆ more)
    (h : Collision messages) : Collision more := by
  obtain ⟨first, hfirst, second, hsecond, hne, heq⟩ := h
  exact ⟨first, hsub hfirst, second, hsub hsecond, hne, heq⟩

/-- Without a collision, the digest of a listed byte string determines it. -/
theorem eq_of_ofMessage_eq {messages : List Bytes} (hsafe : ¬Collision messages)
    {first second : Bytes} (hfirst : first ∈ messages) (hsecond : second ∈ messages)
    (heq : Hash.ofMessage first = Hash.ofMessage second) : first = second := by
  by_contra hne
  exact hsafe ⟨first, hfirst, second, hsecond, hne, heq⟩

theorem not_collision_of_nodup {messages : List Bytes}
    (h : (messages.map Hash.ofMessage).Nodup) : ¬Collision messages := by
  rintro ⟨first, hfirst, second, hsecond, hne, heq⟩
  exact hne (List.inj_on_of_nodup_map h hfirst hsecond heq)

/-! ## Numbers and fixed-length strings -/

/-- The bytes of a number determine it up to multiples of `256 ^ width`. -/
theorem mod_eq_of_bigEndian_eq {width a b : Nat} (h : bigEndian width a = bigEndian width b) :
    a % 256 ^ width = b % 256 ^ width := by
  induction width with
  | zero => simp [Nat.mod_one]
  | succ width ih =>
    obtain ⟨hhead, htail⟩ := List.cons.inj h
    have hbyte := congrArg UInt8.toNat hhead
    simp only [UInt8.toNat_ofNat'] at hbyte
    rw [Nat.pow_succ, Nat.mod_mul, Nat.mod_mul, ih htail]
    exact congrArg (b % 256 ^ width + 256 ^ width * ·) hbyte

/-- A number that its bytes have room for is determined by them. -/
theorem eq_of_bigEndian_eq {width a b : Nat} (ha : a < 256 ^ width) (hb : b < 256 ^ width)
    (h : bigEndian width a = bigEndian width b) : a = b := by
  have hmod := mod_eq_of_bigEndian_eq h
  rwa [Nat.mod_eq_of_lt ha, Nat.mod_eq_of_lt hb] at hmod

theorem eq_of_bigEndian_four_eq {a b : UInt32}
    (h : bigEndian 4 a.toNat = bigEndian 4 b.toNat) : a = b :=
  UInt32.toNat_inj.mp (eq_of_bigEndian_eq a.toNat_lt b.toNat_lt h)

theorem eq_of_bigEndian_eight_eq {a b : UInt64}
    (h : bigEndian 8 a.toNat = bigEndian 8 b.toNat) : a = b :=
  UInt64.toNat_inj.mp (eq_of_bigEndian_eq a.toNat_lt b.toNat_lt h)

theorem eq_and_eq_of_bytes_append_eq {left right left' right' : Hash}
    (h : left.bytes ++ right.bytes = left'.bytes ++ right'.bytes) :
    left = left' ∧ right = right' := by
  have hlength : left.bytes.length = left'.bytes.length := by
    rw [left.length_bytes, left'.length_bytes]
  obtain ⟨hleft, hright⟩ := List.append_inj h hlength
  exact ⟨Hash.eq_of_bytes_eq hleft, Hash.eq_of_bytes_eq hright⟩

/-! ## What is hashed can be read back -/

theorem nodeMessage_inj {left right left' right' : Hash}
    (h : nodeMessage left right = nodeMessage left' right') : left = left' ∧ right = right' :=
  eq_and_eq_of_bytes_append_eq (List.cons.inj h).2

/-- What is hashed for an entry determines its prefix tree's root and its commitment. -/
theorem entryMessage_inj {root commitment root' commitment' : Hash}
    (h : recordMessage (entryData root commitment) = recordMessage (entryData root' commitment')) :
    root = root' ∧ commitment = commitment' :=
  eq_and_eq_of_bytes_append_eq (List.cons.inj h).2

namespace PrefixTree

theorem eq_and_eq_of_nodeMessage_eq {left right left' right' : Hash}
    (h : nodeMessage left right = nodeMessage left' right') : left = left' ∧ right = right' :=
  eq_and_eq_of_bytes_append_eq (List.cons.inj h).2

theorem leafMessage_inj {index index' : CommitmentIndex} {counter counter' : UInt32}
    (h : leafMessage index counter = leafMessage index' counter') :
    index = index' ∧ counter = counter' := by
  have hlength : index.bytes.length = index'.bytes.length := by
    rw [index.length_bytes, index'.length_bytes]
  obtain ⟨hindex, hcounter⟩ := List.append_inj (List.cons.inj h).2 hlength
  exact ⟨CommitmentIndex.eq_of_bytes_eq hindex, eq_of_bigEndian_four_eq hcounter⟩

/-- The first byte tells a leaf of a prefix tree from a node. -/
theorem leafMessage_ne_nodeMessage (index : CommitmentIndex) (counter : UInt32)
    (left right : Hash) : leafMessage index counter ≠ nodeMessage left right := by
  intro h
  exact absurd (List.cons.inj h).1 (by decide)

end PrefixTree

namespace Commitment

/-- What is hashed for a commitment determines the value.  All that stands before the value has a
fixed length, so it need not be read back from the length that is written. -/
theorem value_eq_of_message_eq {opening opening' : Octets openingSize}
    {position position' : UInt64} {value value' : Bytes}
    (h : message opening position value = message opening' position' value') :
    value = value' := by
  refine (List.append_inj h ?_).2
  simp [opening.length_bytes, opening'.length_bytes]

theorem opening_eq_of_message_eq {opening opening' : Octets openingSize}
    {position position' : UInt64} {value value' : Bytes}
    (h : message opening position value = message opening' position' value') :
    opening = opening' := by
  have hvalue := value_eq_of_message_eq h
  unfold message at h
  rw [hvalue, List.append_left_inj, List.append_left_inj] at h
  exact Octets.eq_of_bytes_eq (List.append_inj h (by simp)).2

theorem position_eq_of_message_eq {opening opening' : Octets openingSize}
    {position position' : UInt64} {value value' : Bytes}
    (h : message opening position value = message opening' position' value') :
    position = position' := by
  have hvalue := value_eq_of_message_eq h
  have hopening := opening_eq_of_message_eq h
  unfold message at h
  rw [hvalue, hopening, List.append_left_inj, List.append_left_inj, List.append_left_inj,
    List.append_right_inj] at h
  exact eq_of_bigEndian_eight_eq h

end Commitment

end KeyTransparency
