import KeyTransparency.Proofs.Collision
import KeyTransparency.Tree.Root

/-!
# Where trees divide, and what their roots hash

The tree of a list of leaves divides at `leftSize`.  A tree that is cut off beyond this point
divides at the same place, so the roots of a log and of its beginnings are computed over common
halves.  The root of a range of leaves within a list is made in the same way.  The byte strings
hashed for a root are those of its computation.
-/

namespace KeyTransparency.Tree

/-- A tree that reaches beyond the left half of a larger one has the same left half. -/
theorem leftSize_eq_of_lt {old size : Nat} (hlow : leftSize size < old) (hhigh : old ≤ size) :
    leftSize old = leftSize size := by
  have hpos : 0 < leftSize size := leftSize_pos size
  have hdouble : size ≤ 2 * leftSize size := le_two_mul_leftSize (by omega)
  have hlog : (old - 1).log2 = (size - 1).log2 := by
    rw [Nat.log2_eq_iff (by omega), Nat.pow_succ]
    unfold leftSize at hlow hdouble
    omega
  unfold leftSize
  rw [hlog]

theorem leftSize_two_pow (level : Nat) : leftSize (2 ^ (level + 1)) = 2 ^ level := by
  unfold leftSize
  congr 1
  have hpos : 0 < 2 ^ level := Nat.two_pow_pos level
  rw [Nat.log2_eq_iff (by rw [Nat.pow_succ]; omega), Nat.pow_succ]
  omega

theorem leftSize_eq_two_pow_log2 {size : Nat} (h : 2 ^ size.log2 < size) :
    leftSize size = 2 ^ size.log2 := by
  have hhigh : size < 2 ^ (size.log2 + 1) := Nat.lt_log2_self
  have hpos : 0 < 2 ^ size.log2 := Nat.two_pow_pos _
  unfold leftSize
  congr 1
  rw [Nat.log2_eq_iff (by omega)]
  omega

/-! ## The tree of two or more leaves -/

theorem ofLeaves_of_two_le {leaves : List Hash} (h : 2 ≤ leaves.length) :
    ofLeaves leaves =
      .node (ofLeaves (leaves.take (leftSize leaves.length)))
        (ofLeaves (leaves.drop (leftSize leaves.length))) := by
  match leaves, h with
  | first :: second :: rest, _ => rw [ofLeaves]

theorem root_of_two_le {leaves : List Hash} (h : 2 ≤ leaves.length) :
    root leaves =
      nodeHash (root (leaves.take (leftSize leaves.length)))
        (root (leaves.drop (leftSize leaves.length))) := by
  unfold root
  rw [ofLeaves_of_two_le h, HashTree.hash]

theorem root_singleton (leaf : Hash) : root [leaf] = leaf := by
  rw [root, ofLeaves, HashTree.hash]

theorem leftSize_two : leftSize 2 = 1 := rfl

theorem root_pair (left right : Hash) : root [left, right] = nodeHash left right := by
  have htwo : 2 ≤ [left, right].length := Nat.le_refl 2
  rw [root_of_two_le htwo]
  exact congrArg₂ nodeHash (root_singleton left) (root_singleton right)

theorem root_take_of_lt {leaves : List Hash} {old : Nat}
    (hlow : leftSize leaves.length < old) (hhigh : old ≤ leaves.length) :
    root (leaves.take old) =
      nodeHash (root (leaves.take (leftSize leaves.length)))
        (root ((leaves.drop (leftSize leaves.length)).take (old - leftSize leaves.length))) := by
  have hpos : 0 < leftSize leaves.length := leftSize_pos leaves.length
  have hlength : (leaves.take old).length = old := by
    rw [List.length_take]
    omega
  rw [root_of_two_le (by omega), hlength, leftSize_eq_of_lt hlow hhigh, List.take_take,
    Nat.min_eq_left (by omega), List.drop_take]

theorem length_take_leftSize {leaves : List Hash} (htwo : 2 ≤ leaves.length) :
    (leaves.take (leftSize leaves.length)).length = leftSize leaves.length := by
  rw [List.length_take, Nat.min_eq_left (Nat.le_of_lt (leftSize_lt htwo))]

/-- What holds of at most one leaf, and of two or more if it holds of their halves, holds of all
lists of leaves. -/
theorem halves_induction {P : List Hash → Prop} (small : ∀ leaves, leaves.length ≤ 1 → P leaves)
    (halves : ∀ leaves, 2 ≤ leaves.length → P (leaves.take (leftSize leaves.length)) →
      P (leaves.drop (leftSize leaves.length)) → P leaves) (leaves : List Hash) : P leaves := by
  induction hsize : leaves.length using Nat.strongRecOn generalizing leaves with
  | ind size ih =>
    subst hsize
    by_cases htwo : 2 ≤ leaves.length
    · have hpos := leftSize_pos leaves.length
      have hsmaller := leftSize_lt htwo
      have hleft := ih _ hsmaller _ (length_take_leftSize htwo)
      have hright := ih (leaves.length - leftSize leaves.length) (by omega) _ List.length_drop
      exact halves leaves htwo hleft hright
    · exact small leaves (by omega)

/-! ## Parts of a list of leaves -/

/-- The `size` leaves from `start` on. -/
def part (leaves : List Hash) (start size : Nat) : List Hash := (leaves.drop start).take size

theorem length_part {leaves : List Hash} {start size : Nat} (h : start + size ≤ leaves.length) :
    (part leaves start size).length = size := by
  rw [part, List.length_take, List.length_drop]
  omega

theorem part_zero (leaves : List Hash) (size : Nat) : part leaves 0 size = leaves.take size := by
  rw [part, List.drop_zero]

theorem part_one {leaves : List Hash} {start : Nat} {leaf : Hash}
    (h : leaves[start]? = some leaf) : part leaves start 1 = [leaf] := by
  rw [part, List.take_one, List.head?_drop, h]
  rfl

theorem take_part {leaves : List Hash} {start size count : Nat} (h : count ≤ size) :
    (part leaves start size).take count = part leaves start count := by
  rw [part, part, List.take_take, Nat.min_eq_left h]

theorem drop_part (leaves : List Hash) (start size count : Nat) :
    (part leaves start size).drop count = part leaves (start + count) (size - count) := by
  rw [part, part, List.drop_take, List.drop_drop]

theorem part_append {leaves : List Hash} {start size : Nat} (h : start + size ≤ leaves.length)
    (more : List Hash) : part (leaves ++ more) start size = part leaves start size := by
  rw [part, part, List.drop_append_of_le_length (by omega),
    List.take_append_of_le_length (by rw [List.length_drop]; omega)]

/-- The root of two or more leaves of a list is made from those of the halves. -/
theorem root_part {leaves : List Hash} {start size : Nat} (h : start + size ≤ leaves.length)
    (htwo : 2 ≤ size) :
    root (part leaves start size) =
      nodeHash (root (part leaves start (leftSize size)))
        (root (part leaves (start + leftSize size) (size - leftSize size))) := by
  have hlength := length_part h
  have hsmaller := leftSize_lt htwo
  rw [root_of_two_le (by omega), hlength, take_part (by omega), drop_part]

/-! ## The byte strings hashed for a root -/

/-- What is listed with all byte strings of a node is listed with the pair at its top and with both
halves. -/
theorem HashTree.node_messages_subset_iff {left right : HashTree} {messages : List Bytes} :
    (HashTree.node left right).messages ⊆ messages ↔
      nodeMessage left.hash right.hash ∈ messages ∧ left.messages ⊆ messages ∧
        right.messages ⊆ messages := by
  rw [HashTree.messages, List.cons_subset, List.append_subset]

/-- What is hashed for the root of two or more leaves: the pair of the roots of the halves, and what
is hashed for these. -/
theorem ofLeaves_messages_subset_iff {leaves : List Hash} (h : 2 ≤ leaves.length)
    {messages : List Bytes} :
    (ofLeaves leaves).messages ⊆ messages ↔
      nodeMessage (root (leaves.take (leftSize leaves.length)))
          (root (leaves.drop (leftSize leaves.length))) ∈ messages ∧
        (ofLeaves (leaves.take (leftSize leaves.length))).messages ⊆ messages ∧
          (ofLeaves (leaves.drop (leftSize leaves.length))).messages ⊆ messages := by
  rw [ofLeaves_of_two_le h, HashTree.node_messages_subset_iff, root, root]

/-- Two nodes with one hash have halves with the same hashes. -/
theorem HashTree.halves_of_hash_eq {messages : List Bytes} (hsafe : ¬Collision messages)
    {left right left' right' : HashTree}
    (hhash : (HashTree.node left right).hash = (HashTree.node left' right').hash)
    (h : (HashTree.node left right).messages ⊆ messages)
    (h' : (HashTree.node left' right').messages ⊆ messages) :
    (left.hash = left'.hash ∧ left.messages ⊆ messages ∧ left'.messages ⊆ messages) ∧
      right.hash = right'.hash ∧ right.messages ⊆ messages ∧ right'.messages ⊆ messages := by
  obtain ⟨hpair, hleft, hright⟩ := node_messages_subset_iff.mp h
  obtain ⟨hpair', hleft', hright'⟩ := node_messages_subset_iff.mp h'
  obtain ⟨hsameLeft, hsameRight⟩ := nodeMessage_inj (eq_of_ofMessage_eq hsafe hpair hpair' hhash)
  exact ⟨⟨hsameLeft, hleft, hleft'⟩, hsameRight, hright, hright'⟩

/-- A node that has the root of two or more leaves has the roots of their halves. -/
theorem halves_of_hash_eq_root {messages : List Bytes} (hsafe : ¬Collision messages)
    {left right : HashTree} {leaves : List Hash} (htwo : 2 ≤ leaves.length)
    (hroot : (HashTree.node left right).hash = root leaves)
    (hnode : (HashTree.node left right).messages ⊆ messages)
    (hleaves : (ofLeaves leaves).messages ⊆ messages) :
    (left.hash = root (leaves.take (leftSize leaves.length)) ∧ left.messages ⊆ messages ∧
        (ofLeaves (leaves.take (leftSize leaves.length))).messages ⊆ messages) ∧
      right.hash = root (leaves.drop (leftSize leaves.length)) ∧ right.messages ⊆ messages ∧
        (ofLeaves (leaves.drop (leftSize leaves.length))).messages ⊆ messages := by
  rw [root, ofLeaves_of_two_le htwo] at hroot
  rw [ofLeaves_of_two_le htwo] at hleaves
  exact HashTree.halves_of_hash_eq hsafe hroot hnode hleaves

/-- A node that has the root of two or more leaves of a list has the roots of their halves. -/
theorem halves_of_hash_eq_root_part {messages : List Bytes} (hsafe : ¬Collision messages)
    {left right : HashTree} {leaves : List Hash} {start size : Nat}
    (hend : start + size ≤ leaves.length) (htwo : 2 ≤ size)
    (hroot : (HashTree.node left right).hash = root (part leaves start size))
    (hnode : (HashTree.node left right).messages ⊆ messages)
    (hleaves : (ofLeaves (part leaves start size)).messages ⊆ messages) :
    (left.hash = root (part leaves start (leftSize size)) ∧ left.messages ⊆ messages ∧
        (ofLeaves (part leaves start (leftSize size))).messages ⊆ messages) ∧
      right.hash = root (part leaves (start + leftSize size) (size - leftSize size)) ∧
        right.messages ⊆ messages ∧
        (ofLeaves (part leaves (start + leftSize size) (size - leftSize size))).messages ⊆
          messages := by
  have hlength := length_part hend
  have hhalves := halves_of_hash_eq_root hsafe (hlength.symm ▸ htwo) hroot hnode hleaves
  rwa [hlength, take_part (Nat.le_of_lt (leftSize_lt htwo)), drop_part] at hhalves

/-- The byte strings hashed for the roots of a list of leaves and of all its beginnings. -/
def prefixMessages (leaves : List Hash) : List Bytes :=
  (List.range (leaves.length + 1)).flatMap fun size => (ofLeaves (leaves.take size)).messages

theorem messages_take_subset_prefixMessages {leaves : List Hash} {size : Nat}
    (h : size ≤ leaves.length) :
    (ofLeaves (leaves.take size)).messages ⊆ prefixMessages leaves := by
  intro message hmessage
  exact List.mem_flatMap.mpr ⟨size, List.mem_range.mpr (by omega), hmessage⟩

end KeyTransparency.Tree
