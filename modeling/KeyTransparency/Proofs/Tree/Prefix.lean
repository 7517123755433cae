import KeyTransparency.Proofs.Tree.Consistency
import KeyTransparency.Proofs.Tree.Storage

/-!
# Consistency proofs accept true beginnings only

For a list of leaves and a size up to its length there is one consistency proof: the roots of the
halves passed by on the way down to the end of the old leaves.  It is the proof that is read from
the stored hashes, it is accepted for the root of the old leaves, and nothing else is accepted.
`Descent` is the way down, and each of these facts is shown by induction on it.
-/

namespace KeyTransparency.Tree

/-! ## The proof that is made -/

/-- The hashes beside the way to the end of the old tree, from the root down: the proof that the
part of a tree over `leaves` extends its first `old` leaves. -/
def consistencyHashes (leftmost : Bool) (old : Nat) (leaves : List Hash) : List Hash :=
  if _h : old = leaves.length ∨ leaves.length ≤ 1 then
    if leftmost then [] else [root leaves]
  else if old ≤ leftSize leaves.length then
    root (leaves.drop (leftSize leaves.length)) ::
      consistencyHashes leftmost old (leaves.take (leftSize leaves.length))
  else
    root (leaves.take (leftSize leaves.length)) ::
      consistencyHashes false (old - leftSize leaves.length)
        (leaves.drop (leftSize leaves.length))
termination_by leaves.length
decreasing_by
  all_goals
    have positive := leftSize_pos leaves.length
    have smaller := leftSize_lt (show 2 ≤ leaves.length by omega)
    simp only [List.length_take, List.length_drop]
    omega

theorem consistencyHashes_self (leftmost : Bool) (leaves : List Hash) :
    consistencyHashes leftmost leaves.length leaves = if leftmost then [] else [root leaves] := by
  rw [consistencyHashes, dif_pos (.inl rfl)]

theorem consistencyHashes_left (leftmost : Bool) {old : Nat} {leaves : List Hash} (hpos : 1 ≤ old)
    (hnew : old < leaves.length) (hend : old ≤ leftSize leaves.length) :
    consistencyHashes leftmost old leaves =
      root (leaves.drop (leftSize leaves.length)) ::
        consistencyHashes leftmost old (leaves.take (leftSize leaves.length)) := by
  rw [consistencyHashes, dif_neg (by omega), if_pos hend]

theorem consistencyHashes_right (leftmost : Bool) {old : Nat} {leaves : List Hash}
    (hnew : old < leaves.length) (hend : leftSize leaves.length < old) :
    consistencyHashes leftmost old leaves =
      root (leaves.take (leftSize leaves.length)) ::
        consistencyHashes false (old - leftSize leaves.length)
          (leaves.drop (leftSize leaves.length)) := by
  have hpos := leftSize_pos leaves.length
  rw [consistencyHashes, dif_neg (by omega), if_neg (by omega)]

/-- The way down the tree over `leaves` to the end of its first `old` leaves. -/
inductive Descent : (leftmost : Bool) → (old : Nat) → (leaves : List Hash) → Prop where
  | same (leftmost : Bool) (leaves : List Hash) : Descent leftmost leaves.length leaves
  | left {leftmost : Bool} {old : Nat} {leaves : List Hash} (hpos : 1 ≤ old)
      (hnew : old < leaves.length) (hend : old ≤ leftSize leaves.length)
      (hlength : (leaves.take (leftSize leaves.length)).length = leftSize leaves.length)
      (hleft : Descent leftmost old (leaves.take (leftSize leaves.length))) :
      Descent leftmost old leaves
  | right {leftmost : Bool} {old : Nat} {leaves : List Hash} (hnew : old < leaves.length)
      (hend : leftSize leaves.length < old)
      (hright : Descent false (old - leftSize leaves.length)
        (leaves.drop (leftSize leaves.length))) : Descent leftmost old leaves

theorem descent (leftmost : Bool) {old : Nat} {leaves : List Hash} (hpos : 1 ≤ old)
    (hle : old ≤ leaves.length) : Descent leftmost old leaves := by
  induction hsize : leaves.length using Nat.strongRecOn generalizing leftmost old leaves with
  | ind size ih =>
    subst hsize
    by_cases hsame : old = leaves.length
    · subst hsame
      exact .same leftmost leaves
    · have hnew : old < leaves.length := by omega
      have hsmaller := leftSize_lt (show 2 ≤ leaves.length by omega)
      have hhalf := leftSize_pos leaves.length
      by_cases hend : old ≤ leftSize leaves.length
      · have htake : (leaves.take (leftSize leaves.length)).length = leftSize leaves.length := by
          rw [List.length_take]
          omega
        exact .left hpos hnew hend htake (ih _ hsmaller leftmost hpos (by omega) htake)
      · have hdrop : (leaves.drop (leftSize leaves.length)).length =
            leaves.length - leftSize leaves.length := List.length_drop
        exact .right hnew (by omega) (ih _ (by omega) false (by omega) (by omega) hdrop)

namespace Descent

variable {leftmost : Bool} {old : Nat} {leaves : List Hash}

theorem length_hashes (h : Descent leftmost old leaves) :
    (consistencyHashes leftmost old leaves).length =
      consistencyLength leftmost old leaves.length := by
  induction h with
  | same leftmost leaves =>
    rw [consistencyHashes_self, consistencyLength_self]
    cases leftmost <;> rfl
  | @left leftmost old leaves hpos hnew hend hlength _ ih =>
    rw [consistencyHashes_left leftmost hpos hnew hend, List.length_cons, ih, hlength,
      consistencyLength_left leftmost hpos hnew hend]
  | @right leftmost old leaves hnew hend _ ih =>
    rw [consistencyHashes_right leftmost hnew hend, List.length_cons, ih, List.length_drop,
      consistencyLength_right leftmost hnew hend]

/-- The proof that is made leads from the root of the old leaves to the root of all. -/
theorem consistencyTrees_hashes (h : Descent leftmost old leaves) {known : Hash}
    (hknown : leftmost = true → known = root (leaves.take old)) :
    ∃ before after, consistencyTrees known (consistencyHashes leftmost old leaves) leftmost old
        leaves.length = .ok (before, after) ∧
      before.hash = root (leaves.take old) ∧ after.hash = root leaves := by
  induction h with
  | same leftmost leaves =>
    rw [List.take_length] at hknown ⊢
    rw [consistencyHashes_self]
    cases leftmost with
    | true =>
      refine ⟨.given known, .given known, ?_, hknown rfl, hknown rfl⟩
      rw [if_pos rfl, consistencyTrees, if_pos rfl, if_pos rfl]
    | false =>
      refine ⟨.given (root leaves), .given (root leaves), ?_, rfl, rfl⟩
      rw [if_neg Bool.false_ne_true, consistencyTrees, if_pos rfl, if_neg (by simp)]
  | @left leftmost old leaves hpos hnew hend hlength _ ih =>
    have htwo : 2 ≤ leaves.length := by omega
    rw [List.take_take, Nat.min_eq_left hend, hlength] at ih
    obtain ⟨before, after, htrees, hbefore, hafter⟩ := ih hknown
    refine ⟨before, .node after (.given (root (leaves.drop (leftSize leaves.length)))), ?_,
      hbefore, ?_⟩
    · rw [consistencyHashes_left leftmost hpos hnew hend, consistencyTrees,
        if_neg (Nat.ne_of_lt hnew), if_pos hend, htrees]
      rfl
    · rw [HashTree.hash, hafter, root_of_two_le htwo]
      rfl
  | @right leftmost old leaves hnew hend _ ih =>
    have hhalf := leftSize_pos leaves.length
    have htwo : 2 ≤ leaves.length := by omega
    rw [List.length_drop] at ih
    obtain ⟨before, after, htrees, hbefore, hafter⟩ := ih (by simp)
    refine ⟨.node (.given (root (leaves.take (leftSize leaves.length)))) before,
      .node (.given (root (leaves.take (leftSize leaves.length)))) after, ?_, ?_, ?_⟩
    · rw [consistencyHashes_right leftmost hnew hend, consistencyTrees,
        if_neg (Nat.ne_of_lt hnew), if_neg (by omega), htrees]
      rfl
    · rw [HashTree.hash, hbefore, root_take_of_lt hend (Nat.le_of_lt hnew)]
      rfl
    · rw [HashTree.hash, hafter, root_of_two_le htwo]
      rfl

/-- No other proof leads to the root of the leaves. -/
theorem eq_hashes_of_consistencyTrees {messages : List Bytes} (hsafe : ¬Collision messages)
    (h : Descent leftmost old leaves) {known : Hash} {proof : List Hash} {before after : HashTree}
    (htrees : consistencyTrees known proof leftmost old leaves.length = .ok (before, after))
    (hroot : after.hash = root leaves) (hafter : after.messages ⊆ messages)
    (hleaves : (ofLeaves leaves).messages ⊆ messages) :
    proof = consistencyHashes leftmost old leaves := by
  induction h generalizing proof before after with
  | same leftmost leaves =>
    rw [consistencyHashes_self]
    cases proof with
    | nil =>
      rw [consistencyTrees, if_pos rfl] at htrees
      cases leftmost with
      | true => rfl
      | false => cases htrees
    | cons hash rest =>
      rw [consistencyTrees, if_pos rfl] at htrees
      split at htrees
      · cases htrees
      · rename_i hlast
        obtain ⟨hpassed, hrest⟩ := not_or.mp hlast
        cases htrees
        rw [if_neg hpassed, not_not.mp hrest, ← hroot]
        rfl
  | @left leftmost old leaves hpos hnew hend hlength _ ih =>
    have htwo : 2 ≤ leaves.length := by omega
    rw [hlength] at ih
    rw [consistencyHashes_left leftmost hpos hnew hend]
    cases proof with
    | nil =>
      rw [consistencyTrees, if_neg (Nat.ne_of_lt hnew)] at htrees
      cases htrees
    | cons hash rest =>
      rw [consistencyTrees, if_neg (Nat.ne_of_lt hnew), if_pos hend] at htrees
      obtain ⟨⟨before', after'⟩, hrest, htrees⟩ := bind_eq_ok_iff.mp htrees
      cases htrees
      -- the node computed from the proof hashes the same pair as the root of the leaves
      obtain ⟨⟨hsame, hafterLeft, hleavesLeft⟩, hother, -⟩ :=
        halves_of_hash_eq_root hsafe htwo hroot hafter hleaves
      rw [ih hrest hsame hafterLeft hleavesLeft]
      exact congrArg (· :: _) hother
  | @right leftmost old leaves hnew hend _ ih =>
    have hhalf := leftSize_pos leaves.length
    have htwo : 2 ≤ leaves.length := by omega
    rw [List.length_drop] at ih
    rw [consistencyHashes_right leftmost hnew hend]
    cases proof with
    | nil =>
      rw [consistencyTrees, if_neg (Nat.ne_of_lt hnew)] at htrees
      cases htrees
    | cons hash rest =>
      rw [consistencyTrees, if_neg (Nat.ne_of_lt hnew), if_neg (by omega)] at htrees
      obtain ⟨⟨before', after'⟩, hrest, htrees⟩ := bind_eq_ok_iff.mp htrees
      cases htrees
      obtain ⟨⟨hother, -⟩, hsame, hafterRight, hleavesRight⟩ :=
        halves_of_hash_eq_root hsafe htwo hroot hafter hleaves
      rw [ih hrest hsame hafterRight hleavesRight]
      exact congrArg (· :: _) hother

end Descent

/-! ## Reading the proof from the stored hashes -/

/-- The plan of a consistency proof finds the hashes beside the way down. -/
theorem Stores.finds_consistencyPlan {stored : Array Hash} {leaves : List Hash}
    (h : Stores stored leaves) {leftmost : Bool} {old start : Nat} {sub : List Hash}
    (hway : Descent leftmost old sub) (haligned : Aligned start sub.length)
    (hend : start + sub.length ≤ leaves.length) (hsub : part leaves start sub.length = sub) :
    (consistencyPlan leftmost start old sub.length).Finds stored
      (consistencyHashes leftmost old sub).reverse := by
  induction hway generalizing start with
  | same leftmost sub =>
    rw [consistencyHashes_self, consistencyPlan, dif_pos (.inl rfl)]
    cases leftmost with
    | true => exact Plan.finds_pure stored []
    | false =>
      have hrange := (h.finds_rangeHash haligned hend).map fun hash => [hash]
      rw [hsub] at hrange
      exact hrange
  | @left leftmost old sub hpos hnew hold hlength _ ih =>
    have htwo : 2 ≤ sub.length := by omega
    have hsmaller := leftSize_lt htwo
    rw [hlength] at ih
    have htake : part leaves start (leftSize sub.length) = sub.take (leftSize sub.length) := by
      rw [← take_part (Nat.le_of_lt hsmaller), hsub]
    have hleft := ih (haligned.left htwo) (by omega) htake
    have hright := h.finds_rangeHash (haligned.right htwo) (by omega)
    rw [← drop_part, hsub] at hright
    rw [consistencyHashes_left leftmost hpos hnew hold, consistencyPlan, dif_neg (by omega),
      if_pos hold, List.reverse_cons]
    exact (hleft.both hright).map _
  | @right leftmost old sub hnew hold _ ih =>
    have hhalf := leftSize_pos sub.length
    have htwo : 2 ≤ sub.length := by omega
    rw [List.length_drop] at ih
    have hleft := h.finds_rangeHash (haligned.left htwo) (by omega)
    rw [← take_part (Nat.le_of_lt (leftSize_lt htwo)), hsub] at hleft
    have hdrop : part leaves (start + leftSize sub.length) (sub.length - leftSize sub.length) =
        sub.drop (leftSize sub.length) := by
      rw [← drop_part, hsub]
    have hright := ih (haligned.right htwo) (by omega) hdrop
    rw [consistencyHashes_right leftmost hnew hold, consistencyPlan, dif_neg (by omega),
      if_neg (by omega), List.reverse_cons]
    exact (hleft.both hright).map _

/-- The proof that is made between two sizes of a log whose hashes are stored. -/
theorem Stores.proveTree_eq_ok {stored : Array Hash} {leaves : List Hash}
    (h : Stores stored leaves) {old size : Nat} (hpos : 1 ≤ old) (hle : old ≤ size)
    (hsize : size ≤ leaves.length) :
    proveTree size old (.ofStored stored) =
      .ok (consistencyHashes true old (leaves.take size)).reverse := by
  have hlength : (leaves.take size).length = size := by
    rw [List.length_take]
    omega
  have hway : Descent true old (leaves.take size) := descent true hpos (by omega)
  have hfinds := h.finds_consistencyPlan hway (.zero _) (by omega) (by rw [part_zero, hlength])
  rw [hlength] at hfinds
  have hsizes : checkSizes old size = .ok () := checkSizes_eq_ok_iff.mpr ⟨hpos, hle⟩
  rw [proveTree, hsizes]
  exact hfinds.run

/-! ## The accepted proofs -/

/-- The proof that is made is accepted. -/
theorem checkTree_consistencyHashes {old : Nat} {leaves : List Hash} (hpos : 1 ≤ old)
    (hle : old ≤ leaves.length) :
    checkTree (consistencyHashes true old leaves).reverse leaves.length (root leaves) old
      (root (leaves.take old)) = .ok () := by
  have hway := descent true hpos hle
  obtain ⟨before, after, htrees, hbefore, hafter⟩ := hway.consistencyTrees_hashes fun _ => rfl
  refine checkTree_eq_ok_iff.mpr ⟨before, after, ?_, hbefore, hafter⟩
  refine consistencyTreesOf_eq_ok_iff.mpr ⟨⟨hpos, hle⟩, ?_, ?_⟩
  · rw [List.length_reverse]
    exact hway.length_hashes
  · rw [List.reverse_reverse]
    exact htrees

/-- Between two sizes of a log whose hashes are stored, a proof can be made, and it is accepted. -/
theorem Stores.exists_proveTree {stored : Array Hash} {leaves : List Hash}
    (h : Stores stored leaves) {old size : Nat} (hpos : 1 ≤ old) (hle : old ≤ size)
    (hsize : size ≤ leaves.length) :
    ∃ proof, proveTree size old (.ofStored stored) = .ok proof ∧
      checkTree proof size (root (leaves.take size)) old (root (leaves.take old)) = .ok () := by
  have hlength : (leaves.take size).length = size := by
    rw [List.length_take, Nat.min_eq_left hsize]
  have haccepted := checkTree_consistencyHashes hpos (hlength.symm ▸ hle)
  rw [hlength, List.take_take, Nat.min_eq_left hle] at haccepted
  exact ⟨_, h.proveTree_eq_ok hpos hle hsize, haccepted⟩

theorem eq_consistencyHashes_of_checkTree {messages : List Bytes} (hsafe : ¬Collision messages)
    {proof : List Hash} {old : Nat} {oldRoot : Hash} {leaves : List Hash}
    (h : checkTree proof leaves.length (root leaves) old oldRoot = .ok ())
    (hproof : checkTreeMessages proof leaves.length old oldRoot ⊆ messages)
    (hleaves : (ofLeaves leaves).messages ⊆ messages) :
    proof = (consistencyHashes true old leaves).reverse := by
  obtain ⟨before, after, htreesOf, -, hafter⟩ := checkTree_eq_ok_iff.mp h
  obtain ⟨⟨hpos, hle⟩, -, htrees⟩ := consistencyTreesOf_eq_ok_iff.mp htreesOf
  rw [checkTreeMessages, htreesOf] at hproof
  have hsub : after.messages ⊆ messages := (List.append_subset.mp hproof).2
  have heq := (descent true hpos hle).eq_hashes_of_consistencyTrees hsafe htrees hafter hsub hleaves
  rw [← heq, List.reverse_reverse]

/-- Over the hashes stored for a list of leaves, the proof that an earlier size is its beginning can
be made.  It is accepted for the root of the first leaves, and no other proof or root is, or two
different byte strings that are hashed have the same digest. -/
theorem checkTree_iff_proveTree_or_collision (leaves : List Hash) {old : Nat} (hpos : 1 ≤ old)
    (hle : old ≤ leaves.length) :
    ∃ stored made, storedHashes leaves = .ok stored ∧
      proveTree leaves.length old (.ofStored stored) = .ok made ∧
      ∀ (proof : List Hash) (oldRoot : Hash),
        (oldRoot = root (leaves.take old) ∧ proof = made →
          checkTree proof leaves.length (root leaves) old oldRoot = .ok ()) ∧
        (checkTree proof leaves.length (root leaves) old oldRoot = .ok () →
          (oldRoot = root (leaves.take old) ∧ proof = made) ∨
            Collision (checkTreeMessages proof leaves.length old oldRoot ++
              (ofLeaves leaves).messages)) := by
  obtain ⟨stored, hstored, hstores⟩ := exists_stores_storedHashes leaves
  have hmade := hstores.proveTree_eq_ok hpos hle (Nat.le_refl _)
  rw [List.take_length] at hmade
  refine ⟨stored, _, hstored, hmade, ?_⟩
  intro proof oldRoot
  constructor
  · rintro ⟨rfl, rfl⟩
    exact checkTree_consistencyHashes hpos hle
  · intro h
    by_cases hsafe : Collision (checkTreeMessages proof leaves.length old oldRoot ++
        (ofLeaves leaves).messages)
    · exact .inr hsafe
    · have hproof := List.subset_append_left (checkTreeMessages proof leaves.length old oldRoot)
        (ofLeaves leaves).messages
      have hleaves := List.subset_append_right (checkTreeMessages proof leaves.length old oldRoot)
        (ofLeaves leaves).messages
      exact .inl ⟨(root_take_of_checkTree hsafe h hproof hleaves).2.2,
        eq_consistencyHashes_of_checkTree hsafe h hproof hleaves⟩

/-- The hashes of three entries. -/
def threeLeaves : List Hash := [recordHash [0x00], recordHash [0x01], recordHash [0x02]]

/-- The first two of three leaves are proven to be their beginning, and no others are. -/
theorem checkTree_two_of_three :
    1 ≤ 2 ∧ 2 ≤ threeLeaves.length ∧
      ∃ stored made, storedHashes threeLeaves = .ok stored ∧
        proveTree threeLeaves.length 2 (.ofStored stored) = .ok made ∧
        ∀ (proof : List Hash) (oldRoot : Hash),
          (oldRoot = root (threeLeaves.take 2) ∧ proof = made →
            checkTree proof threeLeaves.length (root threeLeaves) 2 oldRoot = .ok ()) ∧
          (checkTree proof threeLeaves.length (root threeLeaves) 2 oldRoot = .ok () →
            (oldRoot = root (threeLeaves.take 2) ∧ proof = made) ∨
              Collision (checkTreeMessages proof threeLeaves.length 2 oldRoot ++
                (ofLeaves threeLeaves).messages)) := by
  have hpos : 1 ≤ 2 := by decide
  have hle : 2 ≤ threeLeaves.length := by decide
  exact ⟨hpos, hle, checkTree_iff_proveTree_or_collision threeLeaves hpos hle⟩

end KeyTransparency.Tree
