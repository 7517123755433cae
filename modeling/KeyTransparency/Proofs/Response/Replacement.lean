import KeyTransparency.Proofs.LeafSet.Agreement
import KeyTransparency.Proofs.Response
import KeyTransparency.Proofs.Search.Versions

/-!
# Parts that take the place of others

In an accepted proof of an identifier, the inclusion proof, the opening with the value, or the steps
of the search are replaced by others.  Each part meets the check that it is for: no other inclusion
proof leads to the root, the entry found opens to nothing else, and of other steps that show the
same versions the search takes the same way, but the root does not commit to their leaves.
-/

namespace KeyTransparency

variable {G : PointGroup}

namespace Commitment

variable {commitment commitment' : Hash} {opening opening' : Bytes} {position : UInt64}
  {value value' : Bytes}

/-- A commitment has one opening and one value at a position. -/
theorem eq_of_opens {hashed : List Bytes} (hsafe : ¬Collision hashed)
    (h : opens commitment opening position value = true)
    (h' : opens commitment opening' position value' = true)
    (hmessage : ∀ octets, Octets.ofBytes? openingSize opening = some octets →
      message octets position value ∈ hashed)
    (hmessage' : ∀ octets, Octets.ofBytes? openingSize opening' = some octets →
      message octets position value' ∈ hashed) : opening = opening' ∧ value = value' := by
  obtain ⟨octets, hoctets, rfl⟩ := message_of_opens h
  obtain ⟨octets', hoctets', hcommitment⟩ := message_of_opens h'
  have hsame := eq_of_ofMessage_eq hsafe (hmessage octets hoctets) (hmessage' octets' hoctets')
    hcommitment
  have hopening := opening_eq_of_message_eq hsame
  rw [← Octets.ofBytes?_eq_some_iff.mp hoctets, ← Octets.ofBytes?_eq_some_iff.mp hoctets', hopening]
  exact ⟨rfl, value_eq_of_message_eq hsame⟩

/-- An opening and a value at a position have one commitment. -/
theorem commitment_eq_of_opens (h : opens commitment opening position value = true)
    (h' : opens commitment' opening position value = true) : commitment = commitment' := by
  obtain ⟨octets, hoctets, rfl⟩ := message_of_opens h
  obtain ⟨octets', hoctets', rfl⟩ := message_of_opens h'
  cases hoctets.symm.trans hoctets'
  rfl

end Commitment

namespace IdentifierProof

/-! ## The checks of a proof -/

/-- The checks of a proof, all passed, and what they came to: the index of the identifier, the
outcome of the search, and the step at which it ended. -/
structure Passes (proof : IdentifierProof) (key : SearchKey) (config : Config G)
    (head : VerifiedTreeHead) (index : CommitmentIndex) (outcome : Search.Outcome)
    (step : ProofStep) : Prop where
  resolved : config.resolve key proof.vrfProof = .ok index
  located : proof.locate index head = .ok (outcome, step)
  entry : proof.checkEntry outcome step head = .ok ()

/-- The byte strings that are hashed for the entries of a search that has ended, up to the first
check that fails. -/
def entryMessages (proof : IdentifierProof) (outcome : Search.Outcome) (step : ProofStep)
    (head : VerifiedTreeHead) : List Bytes :=
  proof.search.steps.flatMap ProofStep.messages ++ proof.openingMessages ++
    if Commitment.opens step.commitment proof.opening (UInt64.ofNat outcome.position)
        proof.value.value then proof.inclusionMessages outcome head
    else []

/-- The byte strings that are hashed when an identifier is located, opened and proven to be in the
log, up to the first check that fails.  Of a search that fails, none are listed. -/
def checkedMessages (proof : IdentifierProof) (key : SearchKey) (config : Config G)
    (head : VerifiedTreeHead) : List Bytes :=
  match config.resolve key proof.vrfProof with
  | .error _ => []
  | .ok index =>
    match proof.locate index head with
    | .error _ => []
    | .ok (outcome, step) => proof.entryMessages outcome step head

variable {proof : IdentifierProof} {key : SearchKey} {config : Config G} {head : VerifiedTreeHead}
  {index : CommitmentIndex} {outcome : Search.Outcome} {step : ProofStep} {hashed : List Bytes}

theorem checkedMessages_of_locate (hresolve : config.resolve key proof.vrfProof = .ok index)
    (hlocate : proof.locate index head = .ok (outcome, step)) :
    proof.checkedMessages key config head = proof.entryMessages outcome step head := by
  simp only [checkedMessages, hresolve, hlocate]

theorem entryMessages_subset_iff :
    proof.entryMessages outcome step head ⊆ hashed ↔
      proof.search.steps.flatMap ProofStep.messages ⊆ hashed ∧ proof.openingMessages ⊆ hashed ∧
        (Commitment.opens step.commitment proof.opening (UInt64.ofNat outcome.position)
          proof.value.value = true → proof.inclusionMessages outcome head ⊆ hashed) := by
  rw [entryMessages, List.append_subset, List.append_subset, and_assoc]
  split
  · rename_i hopens
    simp [hopens]
  · rename_i hcloses
    simp [hcloses]

theorem message_mem_openingMessages {octets : Octets Commitment.openingSize}
    (h : Octets.ofBytes? Commitment.openingSize proof.opening = some octets) :
    Commitment.message octets proof.search.position proof.value.value ∈ proof.openingMessages := by
  rw [openingMessages, h]
  exact List.mem_cons_self

theorem inclusionMessages_of_ofLeaves {leaves : LeafSet}
    (h : LeafSet.ofLeaves outcome.touched = .ok leaves) :
    proof.inclusionMessages outcome head =
      leaves.messages head.treeSize.toNat proof.search.inclusion := by
  rw [inclusionMessages, h]

theorem checkEntry_of_not_opens
    (h : ¬Commitment.opens step.commitment proof.opening (UInt64.ofNat outcome.position)
      proof.value.value = true) :
    proof.checkEntry outcome step head = .error .commitmentMismatch := by
  rw [checkEntry, if_pos (by simpa using h)]
  rfl

theorem checkEntry_of_opens
    (h : Commitment.opens step.commitment proof.opening (UInt64.ofNat outcome.position)
      proof.value.value = true)
    {leaves : LeafSet} (hleaves : LeafSet.ofLeaves outcome.touched = .ok leaves) :
    proof.checkEntry outcome step head =
      leaves.verify head.treeSize.toNat head.root proof.search.inclusion := by
  rw [checkEntry, if_neg (by simpa using h), hleaves]
  rfl

/-- A proof whose search ends is refused as the entry found is. -/
theorem verify_of_checkEntry_eq_error {error : VerificationError}
    (hresolve : config.resolve key proof.vrfProof = .ok index)
    (hlocate : proof.locate index head = .ok (outcome, step))
    (hhashed : proof.checkedMessages key config head ⊆ hashed)
    (hentry : proof.entryMessages outcome step head ⊆ hashed →
      proof.checkEntry outcome step head = .error error) :
    (proof.verify key config head).result = .error error := by
  rw [checkedMessages_of_locate hresolve hlocate] at hhashed
  unfold verify
  simp only [Attempt.result_bind, Attempt.liftM_result, Attempt.result_record]
  refine bind_eq_error_iff.mpr (.inr ⟨index, hresolve, bind_eq_error_iff.mpr (.inr ⟨(), rfl, ?_⟩)⟩)
  refine bind_eq_error_iff.mpr (.inr ⟨(outcome, step), hlocate, ?_⟩)
  exact bind_eq_error_iff.mpr (.inl (hentry hhashed))

namespace Passes

variable (h : proof.Passes key config head index outcome step)
include h

theorem position_eq : UInt64.ofNat outcome.position = proof.search.position := by
  rw [(Search.trace_of_verify (locate_eq_ok_iff.mp h.located).1).2.1, UInt64.ofNat_toNat]

theorem depth_le :
    ∀ step ∈ proof.search.steps, step.prefixProof.copath.length ≤ PrefixTree.maxDepth :=
  Search.depth_le_of_verify (locate_eq_ok_iff.mp h.located).1

theorem step_mem : proof.search.steps[outcome.step]? = some step :=
  (locate_eq_ok_iff.mp h.located).2

end Passes

/-! ## Another inclusion proof -/

def withInclusion (proof : IdentifierProof) (hashes : List Hash) : IdentifierProof :=
  { proof with search := { proof.search with inclusion := hashes } }

/-- The error for an inclusion proof that stands in the place of another. -/
def inclusionError (expected given : List Hash) : VerificationError :=
  if given.length = expected.length then .inclusionMismatch
  else
    .malformedProof (.inclusion (.malformedProof
      (if given.length < expected.length then .batchTooShort else .batchUnused)))

theorem Passes.verify_withInclusion (hsafe : ¬Collision hashed)
    (h : proof.Passes key config head index outcome step)
    (hhashed : proof.entryMessages outcome step head ⊆ hashed) {hashes : List Hash}
    (hne : hashes ≠ proof.search.inclusion)
    (hhashed' : (proof.withInclusion hashes).checkedMessages key config head ⊆ hashed) :
    ((proof.withInclusion hashes).verify key config head).result =
      .error (inclusionError proof.search.inclusion hashes) := by
  refine verify_of_checkEntry_eq_error h.resolved h.located hhashed' ?_
  intro hentries
  obtain ⟨hopens, leaves, hleaves, hincluded⟩ := checkEntry_eq_ok_iff.mp h.entry
  have hmessages := (entryMessages_subset_iff.mp hhashed).2.2 hopens
  have hmessages' := (entryMessages_subset_iff.mp hentries).2.2 hopens
  rw [inclusionMessages_of_ofLeaves hleaves] at hmessages hmessages'
  obtain ⟨hchecked, hlength⟩ := LeafSet.length_of_verify hincluded
  have hopens' : Commitment.opens step.commitment (proof.withInclusion hashes).opening
      (UInt64.ofNat outcome.position) (proof.withInclusion hashes).value.value = true := hopens
  rw [checkEntry_of_opens hopens' hleaves, inclusionError, hlength]
  split
  · rename_i hsame
    apply LeafSet.verify_of_length_eq hchecked hsame
    intro haccepted
    exact hne (LeafSet.eq_of_verify hsafe haccepted hincluded rfl hmessages' hmessages).2
  · rename_i hother
    exact LeafSet.verify_of_length_ne hchecked hother

/-! ## Another opening or another value -/

def withOpening (proof : IdentifierProof) (opening value : Bytes) : IdentifierProof :=
  { proof with opening, value := ⟨value⟩ }

theorem Passes.verify_withOpening (hsafe : ¬Collision hashed)
    (h : proof.Passes key config head index outcome step)
    (hhashed : proof.entryMessages outcome step head ⊆ hashed) {opening value : Bytes}
    (hne : ¬(opening = proof.opening ∧ value = proof.value.value))
    (hhashed' : (proof.withOpening opening value).checkedMessages key config head ⊆ hashed) :
    ((proof.withOpening opening value).verify key config head).result =
      .error .commitmentMismatch := by
  refine verify_of_checkEntry_eq_error h.resolved h.located hhashed' ?_
  intro hentries
  apply checkEntry_of_not_opens
  intro hopens'
  obtain ⟨hopens, -⟩ := checkEntry_eq_ok_iff.mp h.entry
  rw [h.position_eq] at hopens hopens'
  refine hne (Commitment.eq_of_opens hsafe hopens' hopens ?_ ?_)
  · intro octets hoctets
    exact (entryMessages_subset_iff.mp hentries).2.1 (message_mem_openingMessages hoctets)
  · intro octets hoctets
    exact (entryMessages_subset_iff.mp hhashed).2.1 (message_mem_openingMessages hoctets)

/-! ## Other steps -/

def withSteps (proof : IdentifierProof) (steps : List ProofStep) : IdentifierProof :=
  { proof with search := { proof.search with steps } }

variable {steps : List ProofStep}

/-- With steps that show the same versions, the search ends where it did. -/
theorem Passes.exists_locate_withSteps (h : proof.Passes key config head index outcome step)
    (hversions : steps.map ProofStep.version = proof.search.steps.map ProofStep.version)
    (hdepths : ∀ step ∈ steps, step.prefixProof.copath.length ≤ PrefixTree.maxDepth) :
    ∃ outcome' step', (proof.withSteps steps).locate index head = .ok (outcome', step') ∧
      outcome.Alike outcome' ∧ steps[outcome.step]? = some step' := by
  obtain ⟨hverify, hstep⟩ := locate_eq_ok_iff.mp h.located
  obtain ⟨outcome', hverify', halike⟩ := Search.exists_alike_of_verify hversions hdepths hverify
  have hlength : steps.length = proof.search.steps.length := by
    simpa using congrArg List.length hversions
  have hbound : outcome.step < steps.length := by
    rw [hlength]
    exact (List.getElem?_eq_some_iff.mp hstep).1
  have hstep' : steps[outcome.step]? = some steps[outcome.step] := List.getElem?_eq_getElem hbound
  refine ⟨outcome', steps[outcome.step], ?_, halike, hstep'⟩
  refine locate_eq_ok_iff.mpr ⟨hverify', ?_⟩
  rw [halike.step_eq]
  exact hstep'

/-- The root does not commit to the leaves of other steps that show the same versions. -/
theorem Passes.verify_withSteps (hsafe : ¬Collision hashed)
    (h : proof.Passes key config head index outcome step)
    (hhashed : proof.entryMessages outcome step head ⊆ hashed) (hne : steps ≠ proof.search.steps)
    (hversions : steps.map ProofStep.version = proof.search.steps.map ProofStep.version)
    (hdepths : ∀ step ∈ steps, step.prefixProof.copath.length ≤ PrefixTree.maxDepth)
    (hcommitment : steps[outcome.step]?.map (·.commitment) = some step.commitment)
    (hhashed' : (proof.withSteps steps).checkedMessages key config head ⊆ hashed) :
    ((proof.withSteps steps).verify key config head).result = .error .inclusionMismatch := by
  obtain ⟨outcome', step', hlocate', halike, hstep'⟩ := h.exists_locate_withSteps hversions hdepths
  refine verify_of_checkEntry_eq_error h.resolved hlocate' hhashed' ?_
  intro hentries
  obtain ⟨hverify, -⟩ := locate_eq_ok_iff.mp h.located
  obtain ⟨hverify', -⟩ := locate_eq_ok_iff.mp hlocate'
  obtain ⟨hopens, leaves, hleaves, hincluded⟩ := checkEntry_eq_ok_iff.mp h.entry
  have hopens' : Commitment.opens step'.commitment (proof.withSteps steps).opening
      (UInt64.ofNat outcome'.position) (proof.withSteps steps).value.value = true := by
    rw [hstep', Option.map_some] at hcommitment
    rw [Option.some.inj hcommitment, halike.position_eq]
    exact hopens
  obtain ⟨leaves', hleaves', hpositions⟩ :=
    Search.exists_ofLeaves_of_alike hverify halike hleaves
  obtain ⟨hsteps, -, hincluding⟩ := entryMessages_subset_iff.mp hhashed
  obtain ⟨hsteps', -, hincluding'⟩ := entryMessages_subset_iff.mp hentries
  have hmessages := hincluding hopens
  have hmessages' := hincluding' hopens'
  rw [inclusionMessages_of_ofLeaves hleaves] at hmessages
  rw [inclusionMessages_of_ofLeaves hleaves'] at hmessages'
  obtain ⟨hchecked, hlength⟩ := LeafSet.length_of_verify hincluded
  rw [← hpositions] at hchecked hlength
  rw [checkEntry_of_opens hopens' hleaves']
  apply LeafSet.verify_of_length_eq hchecked hlength
  -- if the root accepted the leaves, it would accept two searches
  intro haccepted
  let search : AcceptedSearch index head.treeSize.toNat head.root :=
    ⟨_, _, _, outcome, leaves, hverify, hleaves, hincluded⟩
  let search' : AcceptedSearch index head.treeSize.toNat head.root :=
    ⟨_, _, _, outcome', leaves', hverify', hleaves', haccepted⟩
  have hsame : search.steps = search'.steps := AcceptedSearch.steps_eq_of_alike hsafe
    hversions.symm halike (List.append_subset.mpr ⟨hsteps, hmessages⟩)
    (List.append_subset.mpr ⟨hsteps', hmessages'⟩)
  exact hne hsame.symm

/-- A step that shows another commitment where the search ends does not open. -/
theorem Passes.verify_withSteps_of_commitment_ne
    (h : proof.Passes key config head index outcome step)
    (hversions : steps.map ProofStep.version = proof.search.steps.map ProofStep.version)
    (hdepths : ∀ step ∈ steps, step.prefixProof.copath.length ≤ PrefixTree.maxDepth)
    (hcommitment : steps[outcome.step]?.map (·.commitment) ≠ some step.commitment) :
    ((proof.withSteps steps).verify key config head).result = .error .commitmentMismatch := by
  obtain ⟨outcome', step', hlocate', halike, hstep'⟩ := h.exists_locate_withSteps hversions hdepths
  refine verify_of_checkEntry_eq_error h.resolved hlocate' (List.Subset.refl _) fun _ => ?_
  obtain ⟨hopens, -⟩ := checkEntry_eq_ok_iff.mp h.entry
  apply checkEntry_of_not_opens
  rw [halike.position_eq]
  intro hopens'
  apply hcommitment
  rw [hstep', Option.map_some, Commitment.commitment_eq_of_opens hopens' hopens]

end IdentifierProof

end KeyTransparency
