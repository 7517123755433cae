import KeyTransparency.Proofs.Success
import KeyTransparency.Proofs.Tree.Root
import KeyTransparency.Tree.Consistency

/-!
# What a consistency proof binds

A consistency proof computes an old and a new root over common subtrees.  `Extends` says how the two
computations hang together, one case for each way in which a proof goes down the tree, and all that
follows about accepted proofs is shown by induction on it.  The main statements here are that a
proof which leads to the root of a list of leaves leads from the root of the beginning of this list,
and that between two roots there is one accepted proof.
-/

namespace KeyTransparency.Tree

/-- The computations of the roots of a tree of `old` leaves and of a tree of `size` leaves that
begins with them. -/
inductive Extends : (old size : Nat) → (before after : HashTree) → Prop where
  /-- The whole tree is old, and its hash is known. -/
  | same (size : Nat) (hash : Hash) : Extends size size (.given hash) (.given hash)
  /-- The old tree ends in the left half. -/
  | left {old size : Nat} {before after : HashTree} (right : Hash) (hpos : 1 ≤ old)
      (hnew : old < size) (hend : old ≤ leftSize size)
      (hleft : Extends old (leftSize size) before after) :
      Extends old size before (.node after (.given right))
  /-- The old tree ends in the right half. -/
  | right {old size : Nat} {before after : HashTree} (left : Hash) (hnew : old < size)
      (hend : leftSize size < old)
      (hright : Extends (old - leftSize size) (size - leftSize size) before after) :
      Extends old size (.node (.given left) before) (.node (.given left) after)

/-! ## The length of a proof -/

theorem consistencyLength_self (leftmost : Bool) (size : Nat) :
    consistencyLength leftmost size size = if leftmost then 0 else 1 := by
  rw [consistencyLength, dif_pos (.inl rfl)]

theorem consistencyLength_left (leftmost : Bool) {old size : Nat} (hpos : 1 ≤ old)
    (hnew : old < size) (hend : old ≤ leftSize size) :
    consistencyLength leftmost old size = consistencyLength leftmost old (leftSize size) + 1 := by
  rw [consistencyLength.eq_def leftmost old size, dif_neg (by omega), if_pos hend]

theorem consistencyLength_right (leftmost : Bool) {old size : Nat} (hnew : old < size)
    (hend : leftSize size < old) :
    consistencyLength leftmost old size =
      consistencyLength false (old - leftSize size) (size - leftSize size) + 1 := by
  have hhalf := leftSize_pos size
  rw [consistencyLength.eq_def leftmost old size, dif_neg (by omega), if_neg (by omega)]

theorem checkSizes_eq_ok_iff {old size : Nat} :
    checkSizes old size = .ok () ↔ 1 ≤ old ∧ old ≤ size := by
  unfold checkSizes
  split
  · simp_all
  · simp_all

theorem treeProofLength_eq_ok {old size : Nat} (hpos : 1 ≤ old) (hle : old ≤ size) :
    treeProofLength old size = .ok (consistencyLength true old size) := by
  rw [treeProofLength, checkSizes_eq_ok_iff.mpr ⟨hpos, hle⟩]
  rfl

/-! ## Accepted proofs -/

theorem extends_of_consistencyTrees {known : Hash} {proof : List Hash} {leftmost : Bool}
    {old size : Nat} {before after : HashTree} (hpos : 1 ≤ old) (hle : old ≤ size)
    (h : consistencyTrees known proof leftmost old size = .ok (before, after)) :
    Extends old size before after := by
  induction proof generalizing leftmost old size before after with
  | nil =>
    unfold consistencyTrees at h
    split at h
    · rename_i hsame
      split at h
      · cases h
        exact hsame ▸ .same old known
      · cases h
    · cases h
  | cons sibling proof ih =>
    unfold consistencyTrees at h
    split at h
    · rename_i hsame
      split at h
      · cases h
      · cases h
        exact hsame ▸ .same old sibling
    · rename_i hother
      have hnew : old < size := by omega
      split at h
      · rename_i hend
        obtain ⟨⟨before', after'⟩, hleft, htrees⟩ := bind_eq_ok_iff.mp h
        cases htrees
        exact .left sibling hpos hnew hend (ih hpos hend hleft)
      · rename_i hend
        obtain ⟨⟨before', after'⟩, hright, htrees⟩ := bind_eq_ok_iff.mp h
        cases htrees
        exact .right sibling hnew (by omega) (ih (by omega) (by omega) hright)

theorem consistencyTreesOf_eq_ok_iff {proof : List Hash} {size old : Nat} {oldRoot : Hash}
    {trees : HashTree × HashTree} :
    consistencyTreesOf proof size old oldRoot = .ok trees ↔
      (1 ≤ old ∧ old ≤ size) ∧ proof.length = consistencyLength true old size ∧
        consistencyTrees oldRoot proof.reverse true old size = .ok trees := by
  unfold consistencyTreesOf treeProofLength
  constructor
  · intro h
    obtain ⟨needed, hneeded, h⟩ := bind_eq_ok_iff.mp h
    obtain ⟨_, hsizes, hlength⟩ := bind_eq_ok_iff.mp hneeded
    cases hlength
    obtain ⟨hlength, htrees⟩ := refuse_eq_ok_iff.mp h
    exact ⟨checkSizes_eq_ok_iff.mp hsizes, not_not.mp hlength, htrees⟩
  · rintro ⟨hsizes, hlength, htrees⟩
    refine bind_eq_ok_iff.mpr ⟨_, treeProofLength_eq_ok hsizes.1 hsizes.2, ?_⟩
    exact refuse_eq_ok_iff.mpr ⟨not_not.mpr hlength, htrees⟩

/-- A consistency proof is accepted exactly if it leads to both roots. -/
theorem checkTree_eq_ok_iff {proof : List Hash} {size old : Nat} {root oldRoot : Hash} :
    checkTree proof size root old oldRoot = .ok () ↔
      ∃ before after, consistencyTreesOf proof size old oldRoot = .ok (before, after) ∧
        before.hash = oldRoot ∧ after.hash = root := by
  unfold checkTree
  rw [bind_eq_ok_iff]
  constructor
  · rintro ⟨⟨before, after⟩, htrees, h⟩
    obtain ⟨⟨hafter, hbefore⟩, -⟩ := require_eq_ok_iff.mp h
    exact ⟨before, after, htrees, hbefore, hafter⟩
  · rintro ⟨before, after, htrees, hbefore, hafter⟩
    exact ⟨(before, after), htrees, require_eq_ok_iff.mpr ⟨⟨hafter, hbefore⟩, rfl⟩⟩

/-- The byte strings that are hashed when a consistency proof is checked.  A proof of a wrong length
is refused before anything is hashed. -/
def checkTreeMessages (proof : List Hash) (size old : Nat) (oldRoot : Hash) : List Bytes :=
  match consistencyTreesOf proof size old oldRoot with
  | .ok (before, after) => before.messages ++ after.messages
  | .error _ => []

/-- What is known of a consistency proof that is accepted. -/
theorem extends_of_checkTree {proof : List Hash} {size old : Nat} {root oldRoot : Hash}
    (h : checkTree proof size root old oldRoot = .ok ()) :
    1 ≤ old ∧ old ≤ size ∧ ∃ before after, Extends old size before after ∧
      before.hash = oldRoot ∧ after.hash = root ∧
      checkTreeMessages proof size old oldRoot = before.messages ++ after.messages := by
  obtain ⟨before, after, htreesOf, hbefore, hafter⟩ := checkTree_eq_ok_iff.mp h
  obtain ⟨⟨hpos, hle⟩, -, htrees⟩ := consistencyTreesOf_eq_ok_iff.mp htreesOf
  have hextends := extends_of_consistencyTrees hpos hle htrees
  refine ⟨hpos, hle, before, after, hextends, hbefore, hafter, ?_⟩
  rw [checkTreeMessages, htreesOf]

/-! ## The old root over a list of leaves -/

/-- If the new root is the root of some leaves, the old root is the root of the first of them. -/
theorem Extends.hash_eq_root_take {messages : List Bytes} (hsafe : ¬Collision messages)
    {old size : Nat} {before after : HashTree} (h : Extends old size before after)
    {leaves : List Hash} (hlength : leaves.length = size) (hroot : after.hash = root leaves)
    (hafter : after.messages ⊆ messages) (hleaves : (ofLeaves leaves).messages ⊆ messages) :
    before.hash = root (leaves.take old) := by
  induction h generalizing leaves with
  | same size hash =>
    rw [List.take_of_length_le (by omega)]
    exact hroot
  | @left old size before after right hpos hnew hend _ ih =>
    subst hlength
    have htwo : 2 ≤ leaves.length := by omega
    have hsmaller := leftSize_lt htwo
    obtain ⟨⟨hsame, hafterLeft, hleavesLeft⟩, -⟩ :=
      halves_of_hash_eq_root hsafe htwo hroot hafter hleaves
    have hlength : (leaves.take (leftSize leaves.length)).length = leftSize leaves.length := by
      rw [List.length_take]
      omega
    rw [ih hlength hsame hafterLeft hleavesLeft, List.take_take, Nat.min_eq_left hend]
  | @right old size before after left hnew hend _ ih =>
    subst hlength
    have htwo : 2 ≤ leaves.length := by
      have := leftSize_pos leaves.length
      omega
    obtain ⟨⟨hleft, -⟩, hsame, hafterRight, hleavesRight⟩ :=
      halves_of_hash_eq_root hsafe htwo hroot hafter hleaves
    have hhalf := ih List.length_drop hsame hafterRight hleavesRight
    rw [root_take_of_lt hend (Nat.le_of_lt hnew), ← hhalf, ← hleft]
    rfl

/-- An accepted proof that leads to the root of some leaves leads from the root of the first of
them. -/
theorem root_take_of_checkTree {messages : List Bytes} (hsafe : ¬Collision messages)
    {proof : List Hash} {old : Nat} {oldRoot : Hash} {leaves : List Hash}
    (h : checkTree proof leaves.length (root leaves) old oldRoot = .ok ())
    (hproof : checkTreeMessages proof leaves.length old oldRoot ⊆ messages)
    (hleaves : (ofLeaves leaves).messages ⊆ messages) :
    1 ≤ old ∧ old ≤ leaves.length ∧ oldRoot = root (leaves.take old) := by
  obtain ⟨hpos, hle, before, after, hextends, hbefore, hafter, hhashed⟩ := extends_of_checkTree h
  rw [hhashed] at hproof
  have hsub : after.messages ⊆ messages := (List.append_subset.mp hproof).2
  have hroot := hextends.hash_eq_root_take hsafe rfl hafter hsub hleaves
  exact ⟨hpos, hle, hbefore.symm.trans hroot⟩

/-! ## Two proofs between the same roots -/

/-- Two proofs of one length that lead to one new root have the same hashes. -/
theorem eq_of_consistencyTrees {messages : List Bytes} (hsafe : ¬Collision messages)
    {known : Hash} {proof proof' : List Hash} {leftmost : Bool} {old size : Nat}
    {before after before' after' : HashTree} (hlength : proof.length = proof'.length)
    (h : consistencyTrees known proof leftmost old size = .ok (before, after))
    (h' : consistencyTrees known proof' leftmost old size = .ok (before', after'))
    (hroot : after.hash = after'.hash) (hmessages : after.messages ⊆ messages)
    (hmessages' : after'.messages ⊆ messages) : proof = proof' := by
  induction proof generalizing proof' leftmost old size before after before' after' with
  | nil => exact (List.eq_nil_of_length_eq_zero hlength.symm).symm
  | cons hash proof ih =>
    cases proof' with
    | nil => cases hlength
    | cons hash' proof' =>
      have hrest : proof.length = proof'.length := Nat.succ.inj hlength
      unfold consistencyTrees at h h'
      by_cases hsame : old = size
      · rw [if_pos hsame] at h h'
        split at h
        · cases h
        · rename_i hlast
          obtain rfl : proof = [] := by simpa using fun hmore => hlast (.inr hmore)
          obtain rfl : proof' = [] := List.eq_nil_of_length_eq_zero hrest.symm
          split at h'
          · cases h'
          · cases h
            cases h'
            exact congrArg (fun hash => [hash]) hroot
      · rw [if_neg hsame] at h h'
        by_cases hend : old ≤ leftSize size
        · rw [if_pos hend] at h h'
          obtain ⟨⟨beforeLeft, afterLeft⟩, hleft, htrees⟩ := bind_eq_ok_iff.mp h
          obtain ⟨⟨beforeLeft', afterLeft'⟩, hleft', htrees'⟩ := bind_eq_ok_iff.mp h'
          cases htrees
          cases htrees'
          obtain ⟨⟨hsameLeft, hinLeft, hinLeft'⟩, hhash, -⟩ :=
            HashTree.halves_of_hash_eq hsafe hroot hmessages hmessages'
          obtain rfl : hash = hash' := hhash
          rw [ih hrest hleft hleft' hsameLeft hinLeft hinLeft']
        · rw [if_neg hend] at h h'
          obtain ⟨⟨beforeRight, afterRight⟩, hright, htrees⟩ := bind_eq_ok_iff.mp h
          obtain ⟨⟨beforeRight', afterRight'⟩, hright', htrees'⟩ := bind_eq_ok_iff.mp h'
          cases htrees
          cases htrees'
          obtain ⟨⟨hhash, -⟩, hsameRight, hinRight, hinRight'⟩ :=
            HashTree.halves_of_hash_eq hsafe hroot hmessages hmessages'
          obtain rfl : hash = hash' := hhash
          rw [ih hrest hright hright' hsameRight hinRight hinRight']

/-- Between two roots there is one accepted proof. -/
theorem eq_of_checkTree {messages : List Bytes} (hsafe : ¬Collision messages)
    {proof proof' : List Hash} {size old : Nat} {root oldRoot : Hash}
    (h : checkTree proof size root old oldRoot = .ok ())
    (h' : checkTree proof' size root old oldRoot = .ok ())
    (hproof : checkTreeMessages proof size old oldRoot ⊆ messages)
    (hproof' : checkTreeMessages proof' size old oldRoot ⊆ messages) : proof = proof' := by
  obtain ⟨before, after, htrees, -, hafter⟩ := checkTree_eq_ok_iff.mp h
  obtain ⟨before', after', htrees', -, hafter'⟩ := checkTree_eq_ok_iff.mp h'
  rw [checkTreeMessages, htrees] at hproof
  rw [checkTreeMessages, htrees'] at hproof'
  obtain ⟨-, hlength, hwalk⟩ := consistencyTreesOf_eq_ok_iff.mp htrees
  obtain ⟨-, hlength', hwalk'⟩ := consistencyTreesOf_eq_ok_iff.mp htrees'
  have hreversed : proof.reverse.length = proof'.reverse.length := by
    rw [List.length_reverse, List.length_reverse, hlength, hlength']
  exact List.reverse_injective (eq_of_consistencyTrees hsafe hreversed hwalk hwalk'
    (hafter.trans hafter'.symm) (List.append_subset.mp hproof).2 (List.append_subset.mp hproof').2)

end KeyTransparency.Tree
