import KeyTransparency.Proofs.Head.Extension
import KeyTransparency.Proofs.Response.Replacement
import KeyTransparency.Proofs.Session.Heads

/-!
# Changed responses

An accepted response that is changed in one place is refused, with the error of the check that this
place is for.  The checks before it do not look at the place, or look at what the change leaves as
it was.  The commitments of the steps are told apart: the one in the step where the search ends is
opened, and all others are left to the root.
-/

namespace KeyTransparency

variable {G : PointGroup}

namespace IdentifierProof

/-! ## One step changed -/

def modifyStep (proof : IdentifierProof) (number : Nat) (change : ProofStep → ProofStep) :
    IdentifierProof :=
  proof.withSteps (proof.search.steps.modify number change)

variable {proof : IdentifierProof} {key : SearchKey} {config : Config G} {head : VerifiedTreeHead}
  {index : CommitmentIndex} {outcome : Search.Outcome} {step : ProofStep} {hashed : List Bytes}
  {number : Nat} {change : ProofStep → ProofStep}

theorem modifyStep_eq_self (h : ∀ step, proof.search.steps[number]? = some step →
    change step = step) : proof.modifyStep number change = proof := by
  have hsteps : proof.search.steps.modify number change = proof.search.steps := by
    apply List.ext_getElem?
    intro i
    rw [List.getElem?_modify]
    by_cases hi : number = i
    · subst hi
      cases hstep : proof.search.steps[number]? with
      | none => rfl
      | some step => simp [h step hstep]
    · simp [hi]
  rw [modifyStep, withSteps, hsteps]

theorem map_version_modify (hkeep : ∀ step, (change step).version = step.version)
    (steps : List ProofStep) :
    (steps.modify number change).map ProofStep.version = steps.map ProofStep.version := by
  apply List.ext_getElem?
  intro i
  rw [List.getElem?_map, List.getElem?_map, List.getElem?_modify]
  by_cases hi : number = i
  · cases steps[i]? <;> simp [hi, hkeep]
  · simp [hi]

theorem Passes.depth_le_of_mem_modify (h : proof.Passes key config head index outcome step)
    (hdepth : ∀ step ∈ proof.search.steps,
      (change step).prefixProof.copath.length ≤ PrefixTree.maxDepth) :
    ∀ step ∈ proof.search.steps.modify number change,
      step.prefixProof.copath.length ≤ PrefixTree.maxDepth := by
  intro other hmem
  obtain ⟨i, hi⟩ := List.mem_iff_getElem?.mp hmem
  rw [List.getElem?_modify] at hi
  obtain ⟨old, hold, rfl⟩ := Option.map_eq_some_iff.mp hi
  have holdMem := List.mem_of_getElem? hold
  split
  · exact hdepth old holdMem
  · exact h.depth_le old holdMem

/-- What the steps show as the commitment that is opened, after one of them has been changed. -/
theorem Passes.commitment_modify (h : proof.Passes key config head index outcome step) :
    (proof.search.steps.modify number change)[outcome.step]?.map (·.commitment) =
      some (if number = outcome.step then (change step).commitment else step.commitment) := by
  rw [List.getElem?_modify, h.step_mem]
  split <;> rfl

/-- A step that is changed without its version is told by the root, if the entry found still has
its commitment. -/
theorem Passes.verify_modifyStep (hsafe : ¬Collision hashed)
    (h : proof.Passes key config head index outcome step)
    (hhashed : proof.entryMessages outcome step head ⊆ hashed)
    (hkeep : ∀ step, (change step).version = step.version)
    (hdepth : ∀ step ∈ proof.search.steps,
      (change step).prefixProof.copath.length ≤ PrefixTree.maxDepth)
    (hcommitment : number = outcome.step → (change step).commitment = step.commitment)
    (hne : proof.modifyStep number change ≠ proof)
    (hhashed' : (proof.modifyStep number change).checkedMessages key config head ⊆ hashed) :
    ((proof.modifyStep number change).verify key config head).result =
      .error .inclusionMismatch := by
  refine h.verify_withSteps hsafe hhashed ?_ (map_version_modify hkeep _)
    (h.depth_le_of_mem_modify hdepth) ?_ hhashed'
  · intro hsteps
    apply hne
    rw [modifyStep, hsteps]
    rfl
  · rw [h.commitment_modify, ite_eq_right_iff.mpr hcommitment]

/-- The step where the search ends does not open with another commitment. -/
theorem Passes.verify_modifyStep_of_commitment_ne
    (h : proof.Passes key config head index outcome step)
    (hkeep : ∀ step, (change step).version = step.version)
    (hdepth : ∀ step ∈ proof.search.steps,
      (change step).prefixProof.copath.length ≤ PrefixTree.maxDepth)
    (hcommitment : (change step).commitment ≠ step.commitment) :
    ((proof.modifyStep outcome.step change).verify key config head).result =
      .error .commitmentMismatch := by
  apply h.verify_withSteps_of_commitment_ne (map_version_modify hkeep _)
    (h.depth_le_of_mem_modify hdepth)
  rw [h.commitment_modify, if_pos rfl]
  exact fun hsame => hcommitment (Option.some.inj hsame)

/-! ## Changes of one place -/

/-- A change of an identifier's proof in one place. -/
inductive Change where
  | inclusion (hashes : List Hash)
  | opening (bytes : Bytes)
  | value (bytes : Bytes)
  | commitment (number : Nat) (hash : Hash)
  | copath (number : Nat) (hashes : List Hash)

namespace Change

def apply : Change → IdentifierProof → IdentifierProof
  | inclusion hashes, proof => proof.withInclusion hashes
  | opening bytes, proof => proof.withOpening bytes proof.value.value
  | value bytes, proof => proof.withOpening proof.opening bytes
  | commitment number hash, proof =>
    proof.modifyStep number fun step => { step with commitment := hash }
  | copath number hashes, proof =>
    proof.modifyStep number fun step =>
      { step with prefixProof := { step.prefixProof with copath := hashes } }

/-- A copath is not replaced by one that is longer than any copath may be. -/
def Fits : Change → Prop
  | copath _ hashes => hashes.length ≤ PrefixTree.maxDepth
  | inclusion _ | opening _ | value _ | commitment .. => True

/-- The error with which a changed proof is refused, where the search ends at the step `located`. -/
def error (change : Change) (proof : IdentifierProof) (located : Nat) : VerificationError :=
  match change with
  | inclusion hashes => inclusionError proof.search.inclusion hashes
  | opening _ | value _ => .commitmentMismatch
  | commitment number _ => if number = located then .commitmentMismatch else .inclusionMismatch
  | copath .. => .inclusionMismatch

end Change

/-- An accepted proof that is changed in one place is refused with the error for this place. -/
theorem Change.verify_apply (hsafe : ¬Collision hashed)
    (h : proof.Passes key config head index outcome step)
    (hhashed : proof.entryMessages outcome step head ⊆ hashed) {change : Change}
    (hfits : change.Fits) (hne : change.apply proof ≠ proof)
    (hhashed' : (change.apply proof).checkedMessages key config head ⊆ hashed) :
    ((change.apply proof).verify key config head).result =
      .error (change.error proof outcome.step) := by
  cases change with
  | inclusion hashes =>
    refine h.verify_withInclusion hsafe hhashed ?_ hhashed'
    rintro rfl
    exact hne rfl
  | opening bytes =>
    refine h.verify_withOpening hsafe hhashed ?_ hhashed'
    rintro ⟨rfl, -⟩
    exact hne rfl
  | value bytes =>
    refine h.verify_withOpening hsafe hhashed ?_ hhashed'
    rintro ⟨-, rfl⟩
    exact hne rfl
  | commitment number hash =>
    by_cases hlocated : number = outcome.step
    · subst hlocated
      rw [error, if_pos rfl]
      refine h.verify_modifyStep_of_commitment_ne (fun _ => rfl) h.depth_le ?_
      rintro (rfl : hash = step.commitment)
      apply hne
      apply modifyStep_eq_self
      intro found hfound
      cases h.step_mem.symm.trans hfound
      rfl
    · rw [error, if_neg hlocated]
      exact h.verify_modifyStep hsafe hhashed (fun _ => rfl) h.depth_le
        (fun hsame => absurd hsame hlocated) hne hhashed'
  | copath number hashes =>
    exact h.verify_modifyStep hsafe hhashed (fun _ => rfl) (fun _ _ => hfits) (fun _ => rfl) hne
      hhashed'

end IdentifierProof

/-! ## Responses to a search -/

namespace SearchResponse

/-- The byte strings that are hashed when a response is checked against the remembered heads and the
account in it is verified, up to the first check that fails. -/
def checkedMessages (response : SearchResponse) (request : SearchRequest) (trust : Trust G) :
    List Bytes :=
  response.treeHead.baselineMessages request.consistency trust ++
    match (response.treeHead.verify request.consistency trust).result with
    | .error _ => []
    | .ok head => response.aci.checkedMessages (.aci request.aci) trust.config head

/-- A change of a response in one place. -/
inductive Change where
  | account (change : IdentifierProof.Change)
  | toLast (proof : List Hash)
  | toDistinguished (proof : List Hash)

namespace Change

def apply : Change → SearchResponse → SearchResponse
  | account change, response => { response with aci := change.apply response.aci }
  | toLast proof, response => { response with treeHead := response.treeHead.withLast proof }
  | toDistinguished proof, response =>
    { response with treeHead := response.treeHead.withDistinguished proof }

def Fits : Change → Prop
  | account change => change.Fits
  | toLast _ | toDistinguished _ => True

/-- The errors with which a changed response is refused, where the search for the account ends at
the step `located`. -/
def Draws (change : Change) (response : SearchResponse) (located : Nat)
    (error : VerificationError) : Prop :=
  match change with
  | account change => error = change.error response.aci located
  | toLast _ => ∃ fault, error = .consistencyCheckFailed .last fault
  | toDistinguished _ => ∃ fault, error = .consistencyCheckFailed .distinguished fault

end Change

variable {response : SearchResponse} {request : SearchRequest} {trust : Trust G}
  {result : SearchResult} {hashed : List Bytes}

theorem verify_of_treeHead_eq_error {error : VerificationError}
    (h : (response.treeHead.verify request.consistency trust).result = .error error) :
    (response.verify request trust).result = .error error := by
  unfold verify
  rw [Attempt.result_bind]
  exact bind_eq_error_iff.mpr (.inl h)

theorem verify_of_aci_eq_error {head : VerifiedTreeHead} {error : VerificationError}
    (hhead : (response.treeHead.verify request.consistency trust).result = .ok head)
    (h : (response.aci.verify (.aci request.aci) trust.config head).result = .error error) :
    (response.verify request trust).result = .error error := by
  unfold verify
  simp only [Attempt.result_bind]
  exact bind_eq_error_iff.mpr (.inr ⟨head, hhead, bind_eq_error_iff.mpr (.inl h)⟩)

theorem checkedMessages_of_treeHead {head : VerifiedTreeHead}
    (h : (response.treeHead.verify request.consistency trust).result = .ok head) :
    response.checkedMessages request trust =
      response.treeHead.baselineMessages request.consistency trust ++
        response.aci.checkedMessages (.aci request.aci) trust.config head := by
  simp only [checkedMessages, h]

theorem baselineMessages_subset : response.treeHead.baselineMessages request.consistency trust ⊆
    response.checkedMessages request trust :=
  List.subset_append_left _ _

theorem Change.exists_error (hsafe : ¬Collision hashed)
    (h : (response.verify request trust).result = .ok result) {change : Change}
    (hfits : change.Fits) (hne : change.apply response ≠ response)
    (hhashed : response.checkedMessages request trust ⊆ hashed)
    (hhashed' : (change.apply response).checkedMessages request trust ⊆ hashed) :
    ∃ outcome step error,
      response.aci.locate result.aci.index result.treeHead = .ok (outcome, step) ∧
        ((change.apply response).verify request trust).result = .error error ∧
        change.Draws response outcome.step error := by
  obtain ⟨hhead, haci, -, -⟩ := verify_eq_ok_iff.mp h
  obtain ⟨index, outcome, step, hresolve, hlocate, hentry, haccount⟩ :=
    IdentifierProof.verify_eq_ok_iff.mp haci
  rw [haccount]
  have hbaseline := List.Subset.trans baselineMessages_subset hhashed
  have hbaseline' := List.Subset.trans baselineMessages_subset hhashed'
  cases change with
  | account change =>
    have hhead' : (((Change.account change).apply response).treeHead.verify request.consistency
        trust).result = .ok result.treeHead := hhead
    rw [checkedMessages_of_treeHead hhead,
      IdentifierProof.checkedMessages_of_locate hresolve hlocate] at hhashed
    rw [checkedMessages_of_treeHead hhead'] at hhashed'
    refine ⟨outcome, step, _, hlocate, verify_of_aci_eq_error hhead' ?_, rfl⟩
    refine change.verify_apply hsafe ⟨hresolve, hlocate, hentry⟩ (List.append_subset.mp hhashed).2
      hfits ?_ (List.append_subset.mp hhashed').2
    intro hsame
    exact hne (by rw [Change.apply, hsame])
  | toLast proof =>
    have hother : proof ≠ response.treeHead.consistencyToLast := by
      rintro rfl
      exact hne rfl
    obtain ⟨fault, hfault⟩ := FullTreeHead.verify_withLast hsafe hhead hother hbaseline hbaseline'
    exact ⟨outcome, step, _, hlocate, verify_of_treeHead_eq_error hfault, fault, rfl⟩
  | toDistinguished proof =>
    have hother : proof ≠ response.treeHead.consistencyToDistinguished := by
      rintro rfl
      exact hne rfl
    obtain ⟨fault, hfault⟩ :=
      FullTreeHead.verify_withDistinguished hsafe hhead hother hbaseline hbaseline'
    exact ⟨outcome, step, _, hlocate, verify_of_treeHead_eq_error hfault, fault, rfl⟩

/-- If a response is accepted, the same response with a change in one place is refused with the
error for this place, or two different byte strings that are hashed for the two have the same
digest. -/
theorem change_refused_or_collision (h : (response.verify request trust).result = .ok result)
    {change : Change} (hfits : change.Fits) (hne : change.apply response ≠ response) :
    (∃ outcome step error,
        response.aci.locate result.aci.index result.treeHead = .ok (outcome, step) ∧
          ((change.apply response).verify request trust).result = .error error ∧
          change.Draws response outcome.step error) ∨
      Collision (response.checkedMessages request trust ++
        (change.apply response).checkedMessages request trust) := by
  by_cases hsafe : Collision (response.checkedMessages request trust ++
      (change.apply response).checkedMessages request trust)
  · exact .inr hsafe
  · exact .inl (change.exists_error hsafe h hfits hne (List.subset_append_left _ _)
      (List.subset_append_right _ _))

end SearchResponse

namespace TwoSearches

/-- Another commitment in the entry that the second search visits on its way. -/
def change : SearchResponse.Change :=
  .account (.commitment 0 ⟨.replicate 32 0x01⟩)

theorem apply_change_ne : change.apply response ≠ response := by
  intro h
  have hsteps := congrArg (fun response => response.aci.search.steps.head?.map (·.commitment)) h
  exact absurd hsteps (by decide)

theorem draws_change {located : Nat} (h : located = 1) {error : VerificationError} :
    change.Draws response located error ↔ error = .inclusionMismatch := by
  subst h
  exact Iff.rfl

/-- The entry on the way is not the one whose commitment is opened, so that it is the root that does
not fit. -/
theorem change_refused_second_search :
    change.Fits ∧ change.apply response ≠ response ∧
      (((change.apply response).verify request trust).result = .error .inclusionMismatch ∨
        Collision (response.checkedMessages request trust ++
          (change.apply response).checkedMessages request trust)) := by
  have hfits : change.Fits := trivial
  refine ⟨hfits, apply_change_ne, ?_⟩
  rcases SearchResponse.change_refused_or_collision verify_response hfits apply_change_ne with
    ⟨outcome, step, error, hlocate, hverify, hdraws⟩ | hcollision
  · have hlast := (Search.trace_of_verify (IdentifierProof.locate_eq_ok_iff.mp hlocate).1).2.2.1
    rw [(draws_change (Nat.succ.inj hlast)).mp hdraws] at hverify
    exact .inl hverify
  · exact .inr hcollision

end TwoSearches

end KeyTransparency
