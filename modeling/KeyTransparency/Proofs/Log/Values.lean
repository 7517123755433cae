import KeyTransparency.Proofs.Session.Heads

/-!
# Values that a log holds

The root of an accepted head is usually the root of a list of leaves, namely of all entries that the
log holds.  An accepted search is then about this list: every value in its result belongs to the
identifier that was asked for, and the list has, at the reported position, the leaf of an entry that
commits to the value and that is the first version of the identifier.
-/

namespace KeyTransparency

variable {G : PointGroup}

/-- What a proof establishes about the value of an identifier in a log with the given leaves. -/
structure IdentifierProof.Establishes (proof : IdentifierProof) (key : SearchKey)
    (config : Config G) (leaves : List Hash) (value : VerifiedValue) : Prop where
  searchKey_eq : value.searchKey = key
  resolved : config.resolve key proof.vrfProof = .ok value.index
  value_eq : value.value = proof.value.value
  position_eq : value.position = proof.search.position
  position_lt : value.position.toNat < leaves.length
  /-- The entry at the position has the identifier with counter zero in its prefix tree and commits
  to the value.  It is the one that the last step of the search shows. -/
  entry : ∃ step prefixRoot opening, proof.search.steps.getLast? = some step ∧
    step.index = value.index ∧
    PrefixTree.verify value.index ⟨step.prefixProof.copath, 0⟩ none = .ok prefixRoot ∧
    proof.opening = Octets.bytes opening ∧
    leaves[value.position.toNat]? =
      some (entryLeafHash prefixRoot (Commitment.commit opening value.position value.value))

/-- What is established about an identifier that need not have been asked for and, if it was, need
not have been answered. -/
inductive IdentifierProof.Answers (config : Config G) (leaves : List Hash) :
    Option IdentifierProof → Option SearchKey → Option VerifiedValue → Prop where
  | unanswered (key : Option SearchKey) : Answers config leaves none key none
  | answered {proof : IdentifierProof} {key : SearchKey} {value : VerifiedValue}
      (h : proof.Establishes key config leaves value) :
      Answers config leaves (some proof) (some key) (some value)

namespace IdentifierProof

variable {config : Config G} {head : VerifiedTreeHead} {hashed : List Bytes} {leaves : List Hash}

theorem establishes_of_verify (hsafe : ¬Collision hashed)
    (hleaves : (Tree.ofLeaves leaves).messages ⊆ hashed)
    (hlength : leaves.length = head.treeSize.toNat) (hroot : head.root = Tree.root leaves)
    {proof : IdentifierProof} {key : SearchKey} {value : VerifiedValue}
    (h : (proof.verify key config head).result = .ok value)
    (hproof : proof.messages key config head ⊆ hashed) :
    proof.Establishes key config leaves value := by
  obtain ⟨accepted⟩ := nonempty_acceptedValue h
  obtain ⟨hlast, hindex, hcounter, hprefix⟩ := accepted.search.entry_spec
  have hcontains := (accepted.search.contains_entry.mono accepted.searchMessages_subset).mono hproof
  rw [accepted.found_eq, accepted.opens] at hcontains
  have hposition : value.position.toNat < leaves.length := hlength ▸ hcontains.position_lt
  -- the search ends only at a step whose counter is zero
  have hfirst : (⟨accepted.search.entry.prefixProof.copath, 0⟩ : PrefixProof) =
      accepted.search.entry.prefixProof := by
    rw [← hcounter]
    rfl
  have hprefixRoot : PrefixTree.verify value.index ⟨accepted.search.entry.prefixProof.copath, 0⟩
      none = .ok accepted.search.entry.prefixRoot := by
    rw [hfirst, ← hprefix, hindex]
  refine ⟨accepted.searchKey_eq, accepted.resolved, accepted.value_eq, accepted.position_eq,
    hposition, accepted.search.entry, _, accepted.opening, ?_, hindex, hprefixRoot, ?_,
    hcontains.getElem?_eq hsafe hlength hroot hleaves⟩
  · rw [← accepted.steps_eq]
    exact hlast
  · exact (Octets.ofBytes?_eq_some_iff.mp accepted.opening_eq).symm

theorem answers_of_verifyOptional (hsafe : ¬Collision hashed)
    (hleaves : (Tree.ofLeaves leaves).messages ⊆ hashed)
    (hlength : leaves.length = head.treeSize.toNat) (hroot : head.root = Tree.root leaves)
    {proof : Option IdentifierProof} {key : Option SearchKey} {name : String}
    {value : Option VerifiedValue}
    (h : (verifyOptional proof key name config head).result = .ok value)
    (hproof : optionalMessages proof key config head ⊆ hashed) :
    Answers config leaves proof key value := by
  unfold verifyOptional at h
  split at h
  · obtain ⟨found, hfound, rfl⟩ := Attempt.result_map_eq_ok_iff.mp h
    exact .answered (establishes_of_verify hsafe hleaves hlength hroot hfound hproof)
  · cases h
  · cases h
    exact .unanswered _

end IdentifierProof

/-- If the root of the accepted head is the root of a list of leaves, all values in the result of a
search are established over this list, or two different byte strings that were hashed have the same
digest. -/
theorem SearchResponse.establishes_or_collision {response : SearchResponse}
    {request : SearchRequest} {trust : Trust G} {result : SearchResult} {leaves : List Hash}
    (h : (response.verify request trust).result = .ok result)
    (hlength : leaves.length = result.treeHead.treeSize.toNat)
    (hroot : result.treeHead.root = Tree.root leaves) :
    (response.aci.Establishes (.aci request.aci) trust.config leaves result.aci ∧
        IdentifierProof.Answers trust.config leaves response.e164 (request.e164.map .e164)
          result.e164 ∧
        IdentifierProof.Answers trust.config leaves response.usernameHash
          (request.usernameHash.map .usernameHash) result.usernameHash) ∨
      Collision (response.messages request trust.config ++ (Tree.ofLeaves leaves).messages) := by
  by_cases hsafe :
      Collision (response.messages request trust.config ++ (Tree.ofLeaves leaves).messages)
  · exact .inr hsafe
  · have hleaves : (Tree.ofLeaves leaves).messages ⊆
        response.messages request trust.config ++ (Tree.ofLeaves leaves).messages :=
      List.subset_append_right _ _
    have hmessages : response.messages request trust.config ⊆
        response.messages request trust.config ++ (Tree.ofLeaves leaves).messages :=
      List.subset_append_left _ _
    obtain ⟨hhead, haci, he164, husernameHash⟩ := verify_eq_ok_iff.mp h
    nth_rewrite 1 [messages] at hmessages
    rw [← (FullTreeHead.follows_of_verify hhead).1] at hmessages
    obtain ⟨hothers, hname⟩ := List.append_subset.mp hmessages
    obtain ⟨haccount, hnumber⟩ := List.append_subset.mp hothers
    refine .inl ⟨?_, ?_, ?_⟩
    · exact IdentifierProof.establishes_of_verify hsafe hleaves hlength hroot haci haccount
    · exact IdentifierProof.answers_of_verifyOptional hsafe hleaves hlength hroot he164 hnumber
    · exact IdentifierProof.answers_of_verifyOptional hsafe hleaves hlength hroot husernameHash
        hname

namespace TwoSearches

/-- The log of two entries holds the value that the second search finds, unless there is a
collision. -/
theorem establishes_second_search :
    (response.verify request trust).result = .ok ⟨found, none, none, large⟩ ∧
      (response.aci.Establishes (.aci account) client [leaf firstEntry, leaf secondEntry] found ∧
          IdentifierProof.Answers client [leaf firstEntry, leaf secondEntry] none none none ∧
          IdentifierProof.Answers client [leaf firstEntry, leaf secondEntry] none none none ∨
        Collision (response.messages request client ++
          (Tree.ofLeaves [leaf firstEntry, leaf secondEntry]).messages)) := by
  refine ⟨verify_response, ?_⟩
  exact SearchResponse.establishes_or_collision verify_response rfl root_large

end TwoSearches

end KeyTransparency
