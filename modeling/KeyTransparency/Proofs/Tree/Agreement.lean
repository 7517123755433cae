import KeyTransparency.Proofs.Tree.Inclusion

/-!
# Batch proofs that lead to one root agree

Two batch proofs for one tree may be about different positions, so that a hash supplied in one of
them stands for a subtree computed in the other.  Each of their leaves is contained in the common
root, which settles the leaves.  That the supplied hashes agree as well, once the positions do,
needs a comparison of the two computations half by half.
-/

namespace KeyTransparency.Tree

/-- The byte strings that are hashed when a batch proof is evaluated. -/
def batchMessages (size : Nat) (positions : List Nat) (leaves proof : List Hash) : List Bytes :=
  match batchTreeOf size positions leaves proof with
  | .ok tree => tree.messages
  | .error _ => []

theorem evaluateBatch_eq_ok_iff {size : Nat} {positions : List Nat} {leaves proof : List Hash}
    {root : Hash} :
    evaluateBatch size positions leaves proof = .ok root ↔
      ∃ tree, batchTreeOf size positions leaves proof = .ok tree ∧ tree.hash = root := by
  unfold evaluateBatch
  rw [bind_eq_ok_iff]
  simp only [pure, Except.pure, Except.ok.injEq]

/-- Two computations over the same leaves that have one result use the same hashes of their
proofs. -/
theorem eq_append_of_batchTree {messages : List Bytes} (hsafe : ¬Collision messages) {size : Nat}
    {known : List PlacedLeaf} {proof proof' rest rest' : List Hash} {tree tree' : HashTree}
    (h : batchTree size known proof = .ok (tree, rest))
    (h' : batchTree size known proof' = .ok (tree', rest')) (hhash : tree.hash = tree'.hash)
    (hmessages : tree.messages ⊆ messages) (hmessages' : tree'.messages ⊆ messages) :
    ∃ used, proof = used ++ rest ∧ proof' = used ++ rest' := by
  induction size using Nat.strongRecOn generalizing known proof proof' rest rest' tree tree' with
  | ind size ih =>
    cases known with
    | nil =>
      obtain ⟨hash, rfl, rfl⟩ := batchTree_nil_eq_ok h
      obtain ⟨hash', rfl, rfl⟩ := batchTree_nil_eq_ok h'
      obtain rfl : hash = hash' := hhash
      exact ⟨[hash], rfl, rfl⟩
    | cons first others =>
      by_cases hone : size ≤ 1
      · obtain ⟨-, rfl⟩ := batchTree_leaf_eq_ok hone h
        obtain ⟨-, rfl⟩ := batchTree_leaf_eq_ok hone h'
        exact ⟨[], rfl, rfl⟩
      · have htwo : 2 ≤ size := by omega
        have hsmaller := leftSize_lt htwo
        have hhalf := leftSize_pos size
        obtain ⟨left, between, right, hleft, hright, rfl⟩ :=
          batchTree_node_eq_ok htwo h
        obtain ⟨left', between', right', hleft', hright', rfl⟩ :=
          batchTree_node_eq_ok htwo h'
        obtain ⟨⟨hsameLeft, hinLeft, hinLeft'⟩, hsameRight, hinRight, hinRight'⟩ :=
          HashTree.halves_of_hash_eq hsafe hhash hmessages hmessages'
        obtain ⟨usedLeft, rfl, rfl⟩ := ih _ hsmaller hleft hleft' hsameLeft hinLeft hinLeft'
        obtain ⟨usedRight, rfl, rfl⟩ :=
          ih _ (by omega) hright hright' hsameRight hinRight hinRight'
        exact ⟨usedLeft ++ usedRight, by rw [List.append_assoc], by rw [List.append_assoc]⟩

theorem getElem?_of_mem_zipWith {positions : List Nat} {leaves : List Hash}
    (hlength : positions.length = leaves.length) {i position : Nat}
    (h : positions[i]? = some position) :
    ∃ leaf, leaves[i]? = some leaf ∧
      ⟨position, leaf⟩ ∈ List.zipWith PlacedLeaf.mk positions leaves := by
  obtain ⟨hbound, rfl⟩ := List.getElem?_eq_some_iff.mp h
  have hbound' : i < leaves.length := hlength ▸ hbound
  refine ⟨leaves[i], List.getElem?_eq_getElem hbound', ?_⟩
  refine List.mem_iff_getElem?.mpr ⟨i, ?_⟩
  rw [List.getElem?_zipWith, List.getElem?_eq_getElem hbound, List.getElem?_eq_getElem hbound']

/-- A leaf of an evaluated batch proof is contained in its root. -/
theorem contains_of_batchTreeOf {size : Nat} {positions : List Nat} {leaves proof : List Hash}
    {tree : HashTree} (h : batchTreeOf size positions leaves proof = .ok tree) {i position : Nat}
    (hposition : positions[i]? = some position) :
    ∃ leaf, leaves[i]? = some leaf ∧ Contains tree.messages size tree.hash position leaf := by
  obtain ⟨-, hlength, hplaced, hbatch⟩ := placed_of_batchTreeOf h
  obtain ⟨leaf, hleaf, hmem⟩ := getElem?_of_mem_zipWith hlength hposition
  exact ⟨leaf, hleaf, contains_of_batchTree hplaced hbatch (List.Subset.refl _) hmem⟩

/-- Two batch proofs that lead to one root have the same leaf at every position they share.  If they
share all positions, they have the same leaves and the same hashes.  Otherwise two different byte
strings that are hashed have the same digest. -/
theorem batch_agree_or_collision {size : Nat} {root : Hash} {positions positions' : List Nat}
    {leaves leaves' proof proof' : List Hash}
    (h : evaluateBatch size positions leaves proof = .ok root)
    (h' : evaluateBatch size positions' leaves' proof' = .ok root) :
    ((∀ i j position : Nat, positions[i]? = some position → positions'[j]? = some position →
          ∃ leaf, leaves[i]? = some leaf ∧ leaves'[j]? = some leaf) ∧
        (positions = positions' → leaves = leaves' ∧ proof = proof')) ∨
      Collision (batchMessages size positions leaves proof ++
        batchMessages size positions' leaves' proof') := by
  obtain ⟨tree, htree, rfl⟩ := evaluateBatch_eq_ok_iff.mp h
  obtain ⟨tree', htree', hsame⟩ := evaluateBatch_eq_ok_iff.mp h'
  rw [batchMessages, batchMessages, htree, htree']
  by_cases hsafe : Collision (tree.messages ++ tree'.messages)
  · exact .inr hsafe
  · have hshared : ∀ i j position : Nat, positions[i]? = some position →
        positions'[j]? = some position →
          ∃ leaf, leaves[i]? = some leaf ∧ leaves'[j]? = some leaf := by
      intro i j position hi hj
      obtain ⟨leaf, hleaf, hcontains⟩ := contains_of_batchTreeOf htree hi
      obtain ⟨leaf', hleaf', hcontains'⟩ := contains_of_batchTreeOf htree' hj
      rw [hsame] at hcontains'
      have heq := (hcontains.mono (List.subset_append_left _ _)).leaf_unique hsafe
        (hcontains'.mono (List.subset_append_right _ _))
      exact ⟨leaf, hleaf, heq ▸ hleaf'⟩
    refine .inl ⟨hshared, ?_⟩
    rintro rfl
    -- with the same positions both runs take hashes from their proofs at the same places
    obtain ⟨-, hlength, -, hbatch⟩ := placed_of_batchTreeOf htree
    obtain ⟨-, hlength', -, hbatch'⟩ := placed_of_batchTreeOf htree'
    have hleaves : leaves = leaves' := by
      refine List.ext_getElem? ?_
      intro i
      by_cases hbound : i < positions.length
      · obtain ⟨leaf, hleaf, hleaf'⟩ := hshared i i positions[i] (List.getElem?_eq_getElem hbound)
          (List.getElem?_eq_getElem hbound)
        rw [hleaf, hleaf']
      · rw [List.getElem?_eq_none (by omega), List.getElem?_eq_none (by omega)]
    subst hleaves
    obtain ⟨used, hproof, hproof'⟩ := eq_append_of_batchTree hsafe hbatch hbatch' hsame.symm
      (List.subset_append_left _ _) (List.subset_append_right _ _)
    exact ⟨rfl, hproof.trans hproof'.symm⟩

/-! ## Two proofs for three leaves -/

namespace TwoBatches

def first : Hash := recordHash [0x00]

def second : Hash := recordHash [0x01]

def third : Hash := recordHash [0x02]

def root : Hash := nodeHash (nodeHash first second) third

theorem evaluateBatch_first_third :
    evaluateBatch 3 [0, 2] [first, third] [second] = .ok root := by
  have hleft : leftSize 3 = 2 := rfl
  simp [evaluateBatch, batchTreeOf, checkPositions, batchTree, leftLeaves, rightLeaves, hleft,
    leftSize_two, HashTree.hash, root, bind, Except.bind, pure, Except.pure]

theorem evaluateBatch_second_third :
    evaluateBatch 3 [1, 2] [second, third] [first] = .ok root := by
  have hleft : leftSize 3 = 2 := rfl
  simp [evaluateBatch, batchTreeOf, checkPositions, batchTree, leftLeaves, rightLeaves, hleft,
    leftSize_two, HashTree.hash, root, bind, Except.bind, pure, Except.pure]

/-- Proofs for the outer and for the last two of three leaves agree on the leaf they share. -/
theorem agree_two_batches :
    evaluateBatch 3 [0, 2] [first, third] [second] = .ok root ∧
      evaluateBatch 3 [1, 2] [second, third] [first] = .ok root ∧
      (((∀ i j position : Nat, [0, 2][i]? = some position → [1, 2][j]? = some position →
            ∃ leaf, [first, third][i]? = some leaf ∧ [second, third][j]? = some leaf) ∧
          ([0, 2] = [1, 2] → [first, third] = [second, third] ∧ [second] = [first])) ∨
        Collision (batchMessages 3 [0, 2] [first, third] [second] ++
          batchMessages 3 [1, 2] [second, third] [first])) := by
  refine ⟨evaluateBatch_first_third, evaluateBatch_second_third, ?_⟩
  exact batch_agree_or_collision evaluateBatch_first_third evaluateBatch_second_third

end TwoBatches

end KeyTransparency.Tree
