import KeyTransparency.Proofs.Commitment
import KeyTransparency.Proofs.Head
import KeyTransparency.Proofs.Search.Accepted
import KeyTransparency.Verification

/-!
# What an accepted response shows

A response is accepted if its head is and if the proofs in it are.  The head of what is then
reported is the head that was verified, and its tree is not empty.  A value that is reported stands
in an entry that the head's root commits to, and opens the entry's commitment.
-/

namespace KeyTransparency

open KeyTransparency.Tree (Contains)

variable {G : PointGroup}

/-! ## Identifiers -/

namespace IdentifierProof

/-- The byte strings that are hashed for the commitment to the value at the claimed position, if the
opening has the right length. -/
def openingMessages (proof : IdentifierProof) : List Bytes :=
  match Octets.ofBytes? Commitment.openingSize proof.opening with
  | some opening => [Commitment.message opening proof.search.position proof.value.value]
  | none => []

/-- The byte strings that are hashed when the entries of a search are proven to be in the log. -/
def inclusionMessages (proof : IdentifierProof) (outcome : Search.Outcome)
    (head : VerifiedTreeHead) : List Bytes :=
  match LeafSet.ofLeaves outcome.touched with
  | .ok leaves => leaves.messages head.treeSize.toNat proof.search.inclusion
  | .error _ => []

/-- The byte strings that are hashed when an identifier is located and opened, up to the first check
that fails. -/
def messages (proof : IdentifierProof) (key : SearchKey) (config : Config G)
    (head : VerifiedTreeHead) : List Bytes :=
  match config.resolve key proof.vrfProof with
  | .error _ => []
  | .ok index =>
    match proof.locate index head with
    | .error _ => []
    | .ok (outcome, _) =>
      proof.search.steps.flatMap ProofStep.messages ++ proof.openingMessages ++
        proof.inclusionMessages outcome head

theorem locate_eq_ok_iff {proof : IdentifierProof} {index : CommitmentIndex}
    {head : VerifiedTreeHead} {outcome : Search.Outcome} {step : ProofStep} :
    proof.locate index head = .ok (outcome, step) ↔
      Search.verify proof.search.steps index head.treeSize.toNat proof.search.position.toNat =
          .ok outcome ∧ proof.search.steps[outcome.step]? = some step := by
  unfold locate
  rw [bind_eq_ok_iff]
  constructor
  · rintro ⟨found, hfound, h⟩
    split at h
    · rename_i last hlast
      cases h
      exact ⟨mapError_eq_ok_iff.mp hfound, hlast⟩
    · cases h
  · rintro ⟨hverify, hstep⟩
    refine ⟨outcome, mapError_eq_ok_iff.mpr hverify, ?_⟩
    rw [hstep]
    rfl

theorem treeSize_pos_of_locate {proof : IdentifierProof} {index : CommitmentIndex}
    {head : VerifiedTreeHead} {located : Search.Outcome × ProofStep}
    (h : proof.locate index head = .ok located) : 1 ≤ head.treeSize.toNat := by
  have hclaimed := (Search.trace_of_verify (locate_eq_ok_iff.mp h).1).1
  omega

theorem checkEntry_eq_ok_iff {proof : IdentifierProof} {outcome : Search.Outcome}
    {step : ProofStep} {head : VerifiedTreeHead} :
    proof.checkEntry outcome step head = .ok () ↔
      Commitment.opens step.commitment proof.opening (UInt64.ofNat outcome.position)
          proof.value.value = true ∧
        ∃ leaves, LeafSet.ofLeaves outcome.touched = .ok leaves ∧
          leaves.verify head.treeSize.toNat head.root proof.search.inclusion = .ok () := by
  unfold checkEntry
  rw [refuse_eq_ok_iff, bind_eq_ok_iff, Bool.not_eq_true', Bool.not_eq_false]

/-- An identifier's proof is accepted exactly if the identifier is resolved and located, and the
entry found is in order. -/
theorem verify_eq_ok_iff {proof : IdentifierProof} {key : SearchKey} {config : Config G}
    {head : VerifiedTreeHead} {value : VerifiedValue} :
    (proof.verify key config head).result = .ok value ↔
      ∃ index outcome step, config.resolve key proof.vrfProof = .ok index ∧
        proof.locate index head = .ok (outcome, step) ∧
        proof.checkEntry outcome step head = .ok () ∧
        value = ⟨key, index, UInt64.ofNat outcome.position, proof.value.value⟩ := by
  unfold verify
  simp only [Attempt.result_bind, Attempt.liftM_result, Attempt.result_record,
    Attempt.result_pure]
  constructor
  · intro h
    obtain ⟨index, hresolve, h⟩ := bind_eq_ok_iff.mp h
    obtain ⟨_, -, h⟩ := bind_eq_ok_iff.mp h
    obtain ⟨⟨outcome, step⟩, hlocate, h⟩ := bind_eq_ok_iff.mp h
    obtain ⟨_, hentry, h⟩ := bind_eq_ok_iff.mp h
    obtain ⟨_, -, h⟩ := bind_eq_ok_iff.mp h
    cases h
    exact ⟨index, outcome, step, hresolve, hlocate, hentry, rfl⟩
  · rintro ⟨index, outcome, step, hresolve, hlocate, hentry, rfl⟩
    refine bind_eq_ok_iff.mpr ⟨index, hresolve, bind_eq_ok_iff.mpr ⟨(), rfl, ?_⟩⟩
    refine bind_eq_ok_iff.mpr ⟨(outcome, step), hlocate, ?_⟩
    exact bind_eq_ok_iff.mpr ⟨(), hentry, bind_eq_ok_iff.mpr ⟨(), rfl, rfl⟩⟩

theorem messages_eq_of_locate {proof : IdentifierProof} {key : SearchKey} {config : Config G}
    {head : VerifiedTreeHead} {index : CommitmentIndex} {outcome : Search.Outcome}
    {step : ProofStep} (hresolve : config.resolve key proof.vrfProof = .ok index)
    (hlocate : proof.locate index head = .ok (outcome, step)) :
    proof.messages key config head =
      proof.search.steps.flatMap ProofStep.messages ++ proof.openingMessages ++
        proof.inclusionMessages outcome head := by
  simp only [messages, hresolve, hlocate]

/-- The search behind an identifier that is located in an entry in order. -/
theorem exists_search_of_checks {proof : IdentifierProof} {index : CommitmentIndex}
    {head : VerifiedTreeHead} {outcome : Search.Outcome} {step : ProofStep}
    (hlocate : proof.locate index head = .ok (outcome, step))
    (hentry : proof.checkEntry outcome step head = .ok ()) :
    ∃ search : AcceptedSearch index head.treeSize.toNat head.root,
      search.steps = proof.search.steps ∧ search.outcome = outcome ∧ search.entry = step ∧
        search.messages = proof.search.steps.flatMap ProofStep.messages ++
          proof.inclusionMessages outcome head := by
  obtain ⟨hverify, hstep⟩ := locate_eq_ok_iff.mp hlocate
  obtain ⟨-, leaves, hleaves, hincluded⟩ := checkEntry_eq_ok_iff.mp hentry
  let search : AcceptedSearch index head.treeSize.toNat head.root :=
    ⟨_, _, _, outcome, leaves, hverify, hleaves, hincluded⟩
  refine ⟨search, rfl, rfl, ?_, ?_⟩
  · rw [List.getElem?_eq_getElem search.step_lt_length] at hstep
    exact Option.some.inj hstep
  · rw [inclusionMessages, hleaves]
    rfl

end IdentifierProof

/-! ## Values -/

namespace VerifiedValue

/-- Hashed byte strings that lead from a leaf of the log down to a value. -/
def OpensLeaf (hashed : List Bytes) (value : VerifiedValue) (leaf : Hash) : Prop :=
  ∃ prefixRoot opening,
    leaf = entryLeafHash prefixRoot (Commitment.commit opening value.position value.value) ∧
      recordMessage
        (entryData prefixRoot (Commitment.commit opening value.position value.value)) ∈ hashed ∧
      Commitment.message opening value.position value.value ∈ hashed

/-- A root that commits to a leaf that opens to a value, at the value's position. -/
def StandsIn (hashed : List Bytes) (value : VerifiedValue) (head : VerifiedTreeHead) : Prop :=
  ∃ leaf, Contains hashed head.treeSize.toNat head.root value.position.toNat leaf ∧
    value.OpensLeaf hashed leaf

variable {hashed : List Bytes} {value value' : VerifiedValue}

/-- A leaf opens to one value at most. -/
theorem OpensLeaf.value_eq (hsafe : ¬Collision hashed) {leaf : Hash}
    (h : value.OpensLeaf hashed leaf) (h' : value'.OpensLeaf hashed leaf) :
    value.value = value'.value := by
  obtain ⟨root, opening, rfl, hentry, hmessage⟩ := h
  obtain ⟨root', opening', heq, hentry', hmessage'⟩ := h'
  have hcommitment := (entryMessage_inj (eq_of_ofMessage_eq hsafe hentry hentry' heq)).2
  exact Commitment.value_eq_of_message_eq
    (eq_of_ofMessage_eq hsafe hmessage hmessage' hcommitment)

theorem OpensLeaf.mono {more : List Bytes} (hsub : hashed ⊆ more) {leaf : Hash}
    (h : value.OpensLeaf hashed leaf) : value.OpensLeaf more leaf := by
  obtain ⟨root, opening, hleaf, hentry, hmessage⟩ := h
  exact ⟨root, opening, hleaf, hsub hentry, hsub hmessage⟩

theorem StandsIn.mono {more : List Bytes} (hsub : hashed ⊆ more) {head : VerifiedTreeHead}
    (h : value.StandsIn hashed head) : value.StandsIn more head := by
  obtain ⟨leaf, hcontains, hopens⟩ := h
  exact ⟨leaf, hcontains.mono hsub, hopens.mono hsub⟩

end VerifiedValue

namespace IdentifierProof

/-- The search and the opening by which a value is accepted. -/
structure AcceptedValue (proof : IdentifierProof) (key : SearchKey) (config : Config G)
    (head : VerifiedTreeHead) (value : VerifiedValue) where
  search : AcceptedSearch value.index head.treeSize.toNat head.root
  opening : Octets Commitment.openingSize
  searchKey_eq : value.searchKey = key
  resolved : config.resolve key proof.vrfProof = .ok value.index
  position_eq : value.position = proof.search.position
  value_eq : value.value = proof.value.value
  steps_eq : search.steps = proof.search.steps
  found_eq : search.outcome.position = value.position.toNat
  opening_eq : Octets.ofBytes? Commitment.openingSize proof.opening = some opening
  opens : search.entry.commitment = Commitment.commit opening value.position value.value
  searchMessages_subset : search.messages ⊆ proof.messages key config head
  openingMessage_mem :
    Commitment.message opening value.position value.value ∈ proof.messages key config head

theorem nonempty_acceptedValue {proof : IdentifierProof} {key : SearchKey} {config : Config G}
    {head : VerifiedTreeHead} {value : VerifiedValue}
    (h : (proof.verify key config head).result = .ok value) :
    Nonempty (proof.AcceptedValue key config head value) := by
  obtain ⟨index, outcome, step, hresolve, hlocate, hentry, rfl⟩ := verify_eq_ok_iff.mp h
  obtain ⟨search, hsteps, rfl, rfl, hsearch⟩ := exists_search_of_checks hlocate hentry
  obtain ⟨hopens, -⟩ := checkEntry_eq_ok_iff.mp hentry
  obtain ⟨opening, hopening, hcommitment⟩ := Commitment.message_of_opens hopens
  obtain ⟨-, hposition, -⟩ := Search.trace_of_verify (locate_eq_ok_iff.mp hlocate).1
  have hclaimed : UInt64.ofNat search.outcome.position = proof.search.position := by
    rw [hposition, UInt64.ofNat_toNat]
  have hmessages := messages_eq_of_locate hresolve hlocate
  have hsub : search.messages ⊆ proof.messages key config head := by
    rw [hsearch, hmessages, List.append_assoc]
    exact List.append_subset.mpr ⟨List.subset_append_left _ _,
      List.subset_append_of_subset_right _ (List.subset_append_right _ _)⟩
  have hmem : Commitment.message opening proof.search.position proof.value.value ∈
      proof.messages key config head := by
    rw [hmessages, openingMessages, hopening]
    exact List.mem_append_left _ (List.mem_append_right _ List.mem_cons_self)
  rw [hclaimed] at hcommitment ⊢
  exact ⟨⟨search, opening, rfl, hresolve, rfl, rfl, hsteps, hposition, hopening, hcommitment, hsub,
    hmem⟩⟩

/-- A value whose proof is accepted stands in the tree of the head. -/
theorem standsIn_of_verify {proof : IdentifierProof} {key : SearchKey}
    {config : Config G} {head : VerifiedTreeHead} {value : VerifiedValue}
    (h : (proof.verify key config head).result = .ok value) :
    value.StandsIn (proof.messages key config head) head := by
  obtain ⟨accepted⟩ := nonempty_acceptedValue h
  have hcontains := accepted.search.contains_entry.mono accepted.searchMessages_subset
  have hleaf := accepted.searchMessages_subset accepted.search.entryMessage_mem
  rw [accepted.found_eq, accepted.opens] at hcontains
  rw [accepted.opens] at hleaf
  exact ⟨_, hcontains, accepted.search.entry.prefixRoot, accepted.opening, rfl, hleaf,
    accepted.openingMessage_mem⟩

theorem treeSize_pos_of_verify {proof : IdentifierProof} {key : SearchKey} {config : Config G}
    {head : VerifiedTreeHead} {value : VerifiedValue}
    (h : (proof.verify key config head).result = .ok value) : 1 ≤ head.treeSize.toNat := by
  obtain ⟨index, outcome, step, -, hlocate, -⟩ := verify_eq_ok_iff.mp h
  exact treeSize_pos_of_locate hlocate

def optionalMessages (proof : Option IdentifierProof) (key : Option SearchKey) (config : Config G)
    (head : VerifiedTreeHead) : List Bytes :=
  match key, proof with
  | some key, some proof => proof.messages key config head
  | _, _ => []

theorem standsIn_of_verifyOptional {proof : Option IdentifierProof} {key : Option SearchKey}
    {name : String} {config : Config G} {head : VerifiedTreeHead} {value : VerifiedValue}
    (h : (verifyOptional proof key name config head).result = .ok (some value)) :
    value.StandsIn (optionalMessages proof key config head) head := by
  unfold verifyOptional at h
  split at h
  · obtain ⟨found, hfound, heq⟩ := Attempt.result_map_eq_ok_iff.mp h
    cases heq
    exact standsIn_of_verify hfound
  · cases h
  · cases h

end IdentifierProof

/-! ## Exchanges -/

def SearchResult.values (result : SearchResult) : List VerifiedValue :=
  result.aci :: (result.e164.toList ++ result.usernameHash.toList)

/-- The byte strings that are hashed for the identifiers in a response to a search. -/
def SearchResponse.messages (response : SearchResponse) (request : SearchRequest)
    (config : Config G) : List Bytes :=
  let head := response.treeHead.treeHead.verified
  response.aci.messages (.aci request.aci) config head
    ++ IdentifierProof.optionalMessages response.e164 (request.e164.map .e164) config head
    ++ IdentifierProof.optionalMessages response.usernameHash
      (request.usernameHash.map .usernameHash) config head

theorem SearchResponse.verify_eq_ok_iff {response : SearchResponse} {request : SearchRequest}
    {trust : Trust G} {result : SearchResult} :
    (response.verify request trust).result = .ok result ↔
      (response.treeHead.verify request.consistency trust).result = .ok result.treeHead ∧
        (response.aci.verify (.aci request.aci) trust.config result.treeHead).result =
          .ok result.aci ∧
        (IdentifierProof.verifyOptional response.e164 (request.e164.map .e164) "e164" trust.config
          result.treeHead).result = .ok result.e164 ∧
        (IdentifierProof.verifyOptional response.usernameHash
          (request.usernameHash.map .usernameHash) "username hash" trust.config
          result.treeHead).result = .ok result.usernameHash := by
  unfold verify
  simp only [Attempt.result_bind, Attempt.result_pure, bind_eq_ok_iff]
  constructor
  · rintro ⟨head, hhead, aci, haci, e164, he164, usernameHash, husernameHash, h⟩
    cases h
    exact ⟨hhead, haci, he164, husernameHash⟩
  · rintro ⟨hhead, haci, he164, husernameHash⟩
    exact ⟨_, hhead, _, haci, _, he164, _, husernameHash, rfl⟩

theorem SearchResponse.standsIn_of_verify {response : SearchResponse} {request : SearchRequest}
    {trust : Trust G} {result : SearchResult}
    (h : (response.verify request trust).result = .ok result) :
    (response.treeHead.verify request.consistency trust).result = .ok result.treeHead ∧
      1 ≤ result.treeHead.treeSize.toNat ∧
      ∀ value ∈ result.values,
        value.StandsIn (response.messages request trust.config) result.treeHead := by
  obtain ⟨hhead, haci, he164, husernameHash⟩ := verify_eq_ok_iff.mp h
  refine ⟨hhead, IdentifierProof.treeSize_pos_of_verify haci, ?_⟩
  intro value hvalue
  rw [messages, ← (FullTreeHead.follows_of_verify hhead).1]
  rw [SearchResult.values, List.mem_cons, List.mem_append, Option.mem_toList,
    Option.mem_toList] at hvalue
  rcases hvalue with rfl | hnumber | hname
  · exact (IdentifierProof.standsIn_of_verify haci).mono
      (List.subset_append_of_subset_left _ (List.subset_append_left _ _))
  · rw [Option.mem_def.mp hnumber] at he164
    exact (IdentifierProof.standsIn_of_verifyOptional he164).mono
      (List.subset_append_of_subset_left _ (List.subset_append_right _ _))
  · rw [Option.mem_def.mp hname] at husernameHash
    exact (IdentifierProof.standsIn_of_verifyOptional husernameHash).mono
      (List.subset_append_right _ _)

theorem DistinguishedResponse.head_of_verify {response : DistinguishedResponse}
    {request : DistinguishedRequest} {trust : Trust G} {head : VerifiedTreeHead}
    (h : (response.verify request trust).result = .ok head) :
    (response.treeHead.verify request.consistency trust).result = .ok head ∧
      1 ≤ head.treeSize.toNat := by
  unfold verify at h
  simp only [Attempt.result_bind, Attempt.result_pure] at h
  obtain ⟨found, hhead, h⟩ := bind_eq_ok_iff.mp h
  obtain ⟨value, hvalue, h⟩ := bind_eq_ok_iff.mp h
  cases h
  exact ⟨hhead, IdentifierProof.treeSize_pos_of_verify hvalue⟩

theorem MonitorResponse.verify_eq_ok_iff {response : MonitorResponse} {request : MonitorRequest}
    {trust : Trust G} {result : MonitorResult} :
    (response.verify request trust).result = .ok result ↔
      (response.treeHead.verify request.consistency trust).result = .ok result.treeHead ∧
        request.keys.length = response.proofs.length ∧
        ∃ leaves, (MonitorKey.verifyAll request.keys response.proofs
            result.treeHead.treeSize.toNat).fromEmpty = .ok (result.keys, leaves) ∧
          leaves.verify result.treeHead.treeSize.toNat result.treeHead.root response.inclusion =
            .ok () := by
  unfold verify
  rw [Attempt.result_bind, bind_eq_ok_iff]
  constructor
  · rintro ⟨head, hhead, h⟩
    obtain ⟨hlength, h⟩ := Attempt.refuse_result_eq_ok_iff.mp h
    simp only [Attempt.result_bind, Attempt.liftM_result, Attempt.result_record,
      Attempt.result_pure] at h
    obtain ⟨⟨keys, leaves⟩, hkeys, h⟩ := bind_eq_ok_iff.mp h
    obtain ⟨_, hleaves, h⟩ := bind_eq_ok_iff.mp h
    obtain ⟨_, -, h⟩ := bind_eq_ok_iff.mp h
    cases h
    exact ⟨hhead, not_not.mp hlength, leaves, hkeys, hleaves⟩
  · rintro ⟨hhead, hlength, leaves, hkeys, hleaves⟩
    refine ⟨_, hhead, Attempt.refuse_result_eq_ok_iff.mpr ⟨not_not.mpr hlength, ?_⟩⟩
    simp only [Attempt.result_bind, Attempt.liftM_result, Attempt.result_record,
      Attempt.result_pure]
    exact bind_eq_ok_iff.mpr ⟨_, hkeys, bind_eq_ok_iff.mpr ⟨_, hleaves, rfl⟩⟩

/-- What is known of a monitoring response that is accepted.  Without any watched entry, it is the
batch proof of an empty set of leaves that refuses an empty tree. -/
theorem MonitorResponse.head_of_verify {response : MonitorResponse} {request : MonitorRequest}
    {trust : Trust G} {result : MonitorResult}
    (h : (response.verify request trust).result = .ok result) :
    (response.treeHead.verify request.consistency trust).result = .ok result.treeHead ∧
      1 ≤ result.treeHead.treeSize.toNat := by
  obtain ⟨hhead, -, leaves, -, hleaves⟩ := verify_eq_ok_iff.mp h
  exact ⟨hhead, LeafSet.size_pos_of_verify hleaves⟩

def Report.values : Report → List VerifiedValue
  | search result => result.values
  | distinguished _ => []
  | monitor _ => []

namespace Exchange

def treeHead : Exchange → FullTreeHead
  | distinguished _ response => response.treeHead
  | search _ response => response.treeHead
  | monitor _ response => response.treeHead

/-- The sizes that the request asks consistency with. -/
def requested : Exchange → ConsistencyParameters
  | distinguished request _ => request.consistency
  | search request _ => request.consistency
  | monitor request _ => request.consistency

def valueMessages (exchange : Exchange) (config : Config G) : List Bytes :=
  match exchange with
  | search request response => response.messages request config
  | distinguished .. => []
  | monitor .. => []

variable {exchange : Exchange} {trust : Trust G} {report : Report}

/-- The head in a report is the verified head of the response, and its tree is not empty. -/
theorem head_of_verify (h : (exchange.verify trust).result = .ok report) :
    (exchange.treeHead.verify exchange.requested trust).result = .ok report.head ∧
      1 ≤ report.head.treeSize.toNat := by
  unfold verify at h
  rw [Attempt.result_recordError] at h
  cases exchange with
  | distinguished request response =>
    obtain ⟨head, hhead, rfl⟩ := Attempt.result_map_eq_ok_iff.mp h
    exact response.head_of_verify hhead
  | search request response =>
    obtain ⟨result, hresult, rfl⟩ := Attempt.result_map_eq_ok_iff.mp h
    obtain ⟨hhead, hpos, -⟩ := response.standsIn_of_verify hresult
    exact ⟨hhead, hpos⟩
  | monitor request response =>
    obtain ⟨result, hresult, rfl⟩ := Attempt.result_map_eq_ok_iff.mp h
    exact response.head_of_verify hresult

/-- Every value in a report stands in the tree of its head. -/
theorem standsIn_of_verify (h : (exchange.verify trust).result = .ok report)
    {value : VerifiedValue} (hvalue : value ∈ report.values) :
    value.StandsIn (exchange.valueMessages trust.config) report.head := by
  unfold verify at h
  rw [Attempt.result_recordError] at h
  cases exchange with
  | distinguished request response =>
    obtain ⟨head, -, rfl⟩ := Attempt.result_map_eq_ok_iff.mp h
    cases hvalue
  | search request response =>
    obtain ⟨result, hresult, rfl⟩ := Attempt.result_map_eq_ok_iff.mp h
    exact (response.standsIn_of_verify hresult).2.2 value hvalue
  | monitor request response =>
    obtain ⟨result, -, rfl⟩ := Attempt.result_map_eq_ok_iff.mp h
    cases hvalue

end Exchange

end KeyTransparency
