import KeyTransparency.Proofs.Collision
import KeyTransparency.Proofs.Success

/-!
# What a prefix tree's root binds

A proof is hashed from the leaf upwards, and the bit that tells the sides apart depends on how far
the root is away.  Two proofs of different depths are therefore compared from the root downwards:
`rootBelow` computes the root along the reversed copath.  The main statement is that a root fixes
the copath and the counter of an index.  It does not say which indexes a root has: one root may have
many, each with a proof of its own, and the ways of any two of them part above both leaves.
-/

namespace KeyTransparency.PrefixTree

/-- What is hashed for the node above a node on the way of an index, `depth` bits below the root. -/
def parentMessage (index : CommitmentIndex) (depth : Nat) (sibling node : Hash) : Bytes :=
  if index.bit depth then nodeMessage sibling node else nodeMessage node sibling

theorem rootAbove_cons (index : CommitmentIndex) (node sibling : Hash) (above : List Hash) :
    rootAbove index node (sibling :: above) =
      rootAbove index (Hash.ofMessage (parentMessage index above.length sibling node)) above := by
  rw [rootAbove, parentMessage]
  split <;> rfl

theorem parentMessage_inj {index index' : CommitmentIndex} {depth : Nat}
    {sibling node sibling' node' : Hash} (hbit : index.bit depth = index'.bit depth)
    (h : parentMessage index depth sibling node = parentMessage index' depth sibling' node') :
    sibling = sibling' ∧ node = node' := by
  unfold parentMessage at h
  rw [← hbit] at h
  split at h
  · exact eq_and_eq_of_nodeMessage_eq h
  · exact (eq_and_eq_of_nodeMessage_eq h).symm

theorem leafMessage_ne_parentMessage (index index' : CommitmentIndex) (counter : UInt32)
    (depth : Nat) (sibling node : Hash) :
    leafMessage index counter ≠ parentMessage index' depth sibling node := by
  unfold parentMessage
  split
  · exact leafMessage_ne_nodeMessage index counter sibling node
  · exact leafMessage_ne_nodeMessage index counter node sibling

/-- A proof that is not refused leads to its root. -/
theorem verify_eq_ok_iff {index : CommitmentIndex} {proof : PrefixProof} {bound : Option UInt32}
    {root : Hash} :
    verify index proof bound = .ok root ↔
      root = rootOf index proof ∧ proof.copath.length ≤ maxDepth ∧
        ∀ least, bound = some least → least ≤ proof.counter := by
  unfold verify
  rw [refuse_eq_ok_iff, Nat.not_lt]
  cases bound with
  | none =>
    constructor
    · rintro ⟨hlength, h⟩
      cases h
      exact ⟨rfl, hlength, by simp⟩
    · rintro ⟨rfl, hlength, -⟩
      exact ⟨hlength, rfl⟩
  | some least =>
    constructor
    · rintro ⟨hlength, h⟩
      obtain ⟨hcounter, h⟩ := refuse_eq_ok_iff.mp h
      cases h
      refine ⟨rfl, hlength, ?_⟩
      intro least' hleast
      cases hleast
      exact UInt32.not_lt.mp hcounter
    · rintro ⟨rfl, hlength, hcounter⟩
      exact ⟨hlength, refuse_eq_ok_iff.mpr ⟨UInt32.not_lt.mpr (hcounter least rfl), rfl⟩⟩

/-! ## From the root downwards -/

/-- The hash of the node `depth` bits below the root, from the hashes beside the rest of the way,
the uppermost first, and the node at its end. -/
def rootBelow (index : CommitmentIndex) (node : Hash) : (depth : Nat) → List Hash → Hash
  | _, [] => node
  | depth, sibling :: below =>
    Hash.ofMessage (parentMessage index depth sibling (rootBelow index node (depth + 1) below))

def messagesBelow (index : CommitmentIndex) (node : Hash) : (depth : Nat) → List Hash → List Bytes
  | _, [] => []
  | depth, sibling :: below =>
    parentMessage index depth sibling (rootBelow index node (depth + 1) below) ::
      messagesBelow index node (depth + 1) below

theorem rootBelow_append_singleton (index : CommitmentIndex) (node last : Hash) (depth : Nat)
    (siblings : List Hash) :
    rootBelow index node depth (siblings ++ [last]) =
      rootBelow index
        (Hash.ofMessage (parentMessage index (depth + siblings.length) last node)) depth
        siblings := by
  induction siblings generalizing depth with
  | nil => rfl
  | cons sibling below ih =>
    have hdepth : depth + 1 + below.length = depth + (below.length + 1) := by omega
    rw [List.cons_append, rootBelow, rootBelow, ih, List.length_cons, hdepth]

theorem rootAbove_eq_rootBelow (index : CommitmentIndex) (node : Hash) (copath : List Hash) :
    rootAbove index node copath = rootBelow index node 0 copath.reverse := by
  induction copath generalizing node with
  | nil => rfl
  | cons sibling above ih =>
    rw [rootAbove_cons, ih, List.reverse_cons, rootBelow_append_singleton, List.length_reverse,
      Nat.zero_add]

/-- The byte strings that are hashed when a proof is verified. -/
def messages (index : CommitmentIndex) (proof : PrefixProof) : List Bytes :=
  leafMessage index proof.counter ::
    messagesBelow index (leafHash index proof.counter) 0 proof.copath.reverse

/-- Two ways down from one node are the same if the bits of their indexes agree along one of
them, and then so are the indexes. -/
theorem eq_of_rootBelow_eq {hashed : List Bytes} (hsafe : ¬Collision hashed)
    {index index' : CommitmentIndex} {counter counter' : UInt32} {depth : Nat}
    {siblings siblings' : List Hash}
    (hbits : ∀ i, depth ≤ i → i < depth + siblings.length → index.bit i = index'.bit i)
    (hleaf : leafMessage index counter ∈ hashed) (hleaf' : leafMessage index' counter' ∈ hashed)
    (hbelow : messagesBelow index (leafHash index counter) depth siblings ⊆ hashed)
    (hbelow' : messagesBelow index' (leafHash index' counter') depth siblings' ⊆ hashed)
    (h : rootBelow index (leafHash index counter) depth siblings =
      rootBelow index' (leafHash index' counter') depth siblings') :
    index = index' ∧ siblings = siblings' ∧ counter = counter' := by
  induction siblings generalizing depth siblings' with
  | nil =>
    cases siblings' with
    | nil =>
      obtain ⟨hindex, hcounter⟩ := leafMessage_inj (eq_of_ofMessage_eq hsafe hleaf hleaf' h)
      exact ⟨hindex, rfl, hcounter⟩
    | cons sibling' below' =>
      -- a leaf cannot stand in for a node
      have hsame := eq_of_ofMessage_eq hsafe hleaf (hbelow' List.mem_cons_self) h
      exact absurd hsame (leafMessage_ne_parentMessage _ _ _ _ _ _)
  | cons sibling below ih =>
    cases siblings' with
    | nil =>
      have hsame := eq_of_ofMessage_eq hsafe hleaf' (hbelow List.mem_cons_self) h.symm
      exact absurd hsame (leafMessage_ne_parentMessage _ _ _ _ _ _)
    | cons sibling' below' =>
      rw [List.length_cons] at hbits
      have hsame := eq_of_ofMessage_eq hsafe (hbelow List.mem_cons_self)
        (hbelow' List.mem_cons_self) h
      have hbit : index.bit depth = index'.bit depth := hbits depth (Nat.le_refl _) (by omega)
      obtain ⟨hsibling, hchild⟩ := parentMessage_inj hbit hsame
      have hrest : ∀ i, depth + 1 ≤ i → i < depth + 1 + below.length →
          index.bit i = index'.bit i :=
        fun i hfrom hto => hbits i (by omega) (by omega)
      obtain ⟨hindex, hbelowSame, hcounter⟩ := ih hrest (List.cons_subset.mp hbelow).2
        (List.cons_subset.mp hbelow').2 hchild
      exact ⟨hindex, by rw [hsibling, hbelowSame], hcounter⟩

/-- One root has one proof, if the bits of the indexes agree as far as one of the proofs reaches. -/
theorem eq_of_rootOf_eq_of_bits {hashed : List Bytes} (hsafe : ¬Collision hashed)
    {index index' : CommitmentIndex} {proof proof' : PrefixProof}
    (hbits : ∀ i < proof.copath.length, index.bit i = index'.bit i)
    (hproof : messages index proof ⊆ hashed) (hproof' : messages index' proof' ⊆ hashed)
    (h : rootOf index proof = rootOf index' proof') : index = index' ∧ proof = proof' := by
  unfold rootOf at h
  rw [rootAbove_eq_rootBelow, rootAbove_eq_rootBelow] at h
  obtain ⟨hleaf, hbelow⟩ := List.cons_subset.mp hproof
  obtain ⟨hleaf', hbelow'⟩ := List.cons_subset.mp hproof'
  have hreversed : ∀ i, 0 ≤ i → i < 0 + proof.copath.reverse.length →
      index.bit i = index'.bit i := by
    intro i _ hi
    rw [Nat.zero_add, List.length_reverse] at hi
    exact hbits i hi
  obtain ⟨hindex, hcopath, hcounter⟩ :=
    eq_of_rootBelow_eq hsafe hreversed hleaf hleaf' hbelow hbelow' h
  refine ⟨hindex, ?_⟩
  cases proof
  cases proof'
  simp_all

/-- A root fixes the proof of an index. -/
theorem eq_of_rootOf_eq {hashed : List Bytes} (hsafe : ¬Collision hashed)
    {index : CommitmentIndex} {proof proof' : PrefixProof} (hproof : messages index proof ⊆ hashed)
    (hproof' : messages index proof' ⊆ hashed) (h : rootOf index proof = rootOf index proof') :
    proof = proof' :=
  (eq_of_rootOf_eq_of_bits hsafe (fun _ _ => rfl) hproof hproof' h).2

/-! ## Two indexes under one root -/

/-- The number of leading bits that two indexes share. -/
def sharedBits (index index' : CommitmentIndex) : Nat :=
  (List.range maxDepth).findIdx fun i => index.bit i != index'.bit i

theorem bit_eq_of_lt_sharedBits {index index' : CommitmentIndex} {i : Nat}
    (h : i < sharedBits index index') : index.bit i = index'.bit i := by
  simpa using List.not_of_lt_findIdx h

theorem bit_sharedBits_ne {index index' : CommitmentIndex}
    (h : sharedBits index index' < maxDepth) :
    index.bit (sharedBits index index') ≠ index'.bit (sharedBits index index') := by
  have hfound : (List.range maxDepth).findIdx (fun i => index.bit i != index'.bit i) <
      (List.range maxDepth).length := Nat.lt_of_lt_of_eq h List.length_range.symm
  have hparts := List.findIdx_getElem (w := hfound)
  rw [List.getElem_range] at hparts
  exact bne_iff_ne.mp hparts

/-- Above a node whose way to the root two indexes share, both lead to the same root. -/
theorem rootAbove_congr {index index' : CommitmentIndex} {copath : List Hash}
    (hbits : ∀ i < copath.length, index.bit i = index'.bit i) (node : Hash) :
    rootAbove index node copath = rootAbove index' node copath := by
  induction copath generalizing node with
  | nil => rfl
  | cons sibling above ih =>
    rw [List.length_cons] at hbits
    rw [rootAbove, rootAbove, hbits above.length (Nat.lt_succ_self _)]
    exact ih (fun i hi => hbits i (Nat.lt_succ_of_lt hi)) _

/-- Where two indexes have proofs under one root, their ways to the root part above both leaves. -/
theorem sharedBits_lt_of_rootOf_eq {hashed : List Bytes} (hsafe : ¬Collision hashed)
    {index index' : CommitmentIndex} {proof proof' : PrefixProof} (hne : index ≠ index')
    (hproof : messages index proof ⊆ hashed) (hproof' : messages index' proof' ⊆ hashed)
    (h : rootOf index proof = rootOf index' proof') :
    sharedBits index index' < proof.copath.length := by
  by_contra hshort
  have hbits : ∀ i < proof.copath.length, index.bit i = index'.bit i :=
    fun i hi => bit_eq_of_lt_sharedBits (by omega)
  exact hne (eq_of_rootOf_eq_of_bits hsafe hbits hproof hproof' h).1

theorem sharedBits_comm (index index' : CommitmentIndex) :
    sharedBits index index' = sharedBits index' index := by
  unfold sharedBits
  simp only [bne_comm]

/-- What one root says about indexes: it has one proof for each, and a bit in which two of them
differ stands between the root and both of their leaves. -/
theorem root_fixes_proofs_or_collision {index index' : CommitmentIndex}
    {proof proof' : PrefixProof} {bound bound' : Option UInt32} {root : Hash}
    (h : verify index proof bound = .ok root) (h' : verify index' proof' bound' = .ok root) :
    ((index = index' → proof.copath = proof'.copath ∧ proof.counter = proof'.counter) ∧
        (index ≠ index' →
          sharedBits index index' < proof.copath.length ∧
            sharedBits index index' < proof'.copath.length ∧
            index.bit (sharedBits index index') ≠ index'.bit (sharedBits index index'))) ∨
      Collision (messages index proof ++ messages index' proof') := by
  obtain ⟨hroot, hlength, -⟩ := verify_eq_ok_iff.mp h
  obtain ⟨hroot', -, -⟩ := verify_eq_ok_iff.mp h'
  have hsame : rootOf index proof = rootOf index' proof' := hroot.symm.trans hroot'
  by_cases hsafe : Collision (messages index proof ++ messages index' proof')
  · exact .inr hsafe
  refine .inl ⟨?_, ?_⟩
  · rintro rfl
    obtain rfl := eq_of_rootOf_eq hsafe (List.subset_append_left _ _)
      (List.subset_append_right _ _) hsame
    exact ⟨rfl, rfl⟩
  · intro hne
    have habove := sharedBits_lt_of_rootOf_eq hsafe hne (List.subset_append_left _ _)
      (List.subset_append_right _ _) hsame
    have habove' := sharedBits_lt_of_rootOf_eq hsafe hne.symm (List.subset_append_right _ _)
      (List.subset_append_left _ _) hsame.symm
    rw [sharedBits_comm] at habove'
    exact ⟨habove, habove', bit_sharedBits_ne (Nat.lt_of_lt_of_le habove hlength)⟩

namespace TwoIndexes

/-- An index that begins with seven zero bits and a one. -/
def odd : CommitmentIndex := ⟨.replicate 32 0x01⟩

/-- An index that shares six bits with the other one. -/
def even : CommitmentIndex := ⟨.replicate 32 0x02⟩

/-- The hashes beside the part of the way that both indexes share, from below. -/
def above : List Hash := (List.range 6).map fun level => recordHash [UInt8.ofNat level]

def oddProof : PrefixProof := ⟨leafHash even 0 :: above, 4⟩

def evenProof : PrefixProof := ⟨leafHash odd 4 :: above, 0⟩

def root : Hash := rootOf odd oddProof

theorem verify_odd : verify odd oddProof (some 3) = .ok root := by
  refine verify_eq_ok_iff.mpr ⟨rfl, by decide, ?_⟩
  intro least hleast
  cases hleast
  decide

theorem rootOf_even : rootOf even evenProof = root := by
  have hodd : odd.bit 6 = false := by decide
  have heven : even.bit 6 = true := by decide
  have hshared : ∀ i < above.length, even.bit i = odd.bit i := by decide
  have habove : above.length = 6 := rfl
  unfold root rootOf oddProof evenProof
  rw [rootAbove, rootAbove, habove, hodd, heven, if_pos rfl, if_neg Bool.false_ne_true]
  exact rootAbove_congr hshared _

theorem verify_even : verify even evenProof none = .ok root :=
  verify_eq_ok_iff.mpr ⟨rootOf_even.symm, by decide, by simp⟩

/-- Two indexes that share six bits have leaves seven bits below one root. -/
theorem root_fixes_two_indexes :
    verify odd oddProof (some 3) = .ok root ∧ verify even evenProof none = .ok root ∧
      (((odd = even → oddProof.copath = evenProof.copath ∧
              oddProof.counter = evenProof.counter) ∧
          (odd ≠ even →
            sharedBits odd even < oddProof.copath.length ∧
              sharedBits odd even < evenProof.copath.length ∧
              odd.bit (sharedBits odd even) ≠ even.bit (sharedBits odd even))) ∨
        Collision (messages odd oddProof ++ messages even evenProof)) :=
  ⟨verify_odd, verify_even, root_fixes_proofs_or_collision verify_odd verify_even⟩

end TwoIndexes

end KeyTransparency.PrefixTree
