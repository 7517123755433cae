import KeyTransparency.Proofs.Response.Change
import KeyTransparency.Proofs.Search.Visits

/-!
# Refusals that do not happen

The checks after a search look at the step where it ended and collect the leaves that it visited.
They have errors for a step that is missing, for leaves that contradict each other, and for
positions that are no positions of the log or are out of order.  A search that was verified rules
all of them out, and no other check of a response to a search has them.
-/

namespace KeyTransparency

/-! ## Errors that a check does not have -/

section Avoids

variable {ε ε' α β : Type} {bad : ε → Prop}

/-- A check does not fail with certain errors. -/
def Avoids (bad : ε → Prop) (result : Except ε α) : Prop :=
  ∀ error, result = .error error → ¬bad error

theorem avoids_ok (a : α) : Avoids bad (.ok a : Except ε α) := nofun

theorem avoids_error {error : ε} (h : ¬bad error) : Avoids bad (.error error : Except ε α) := by
  intro other hother
  cases hother
  exact h

theorem avoids_of_eq_ok {result : Except ε α} {a : α} (h : result = .ok a) :
    Avoids bad result := by
  rw [h]
  exact avoids_ok a

/-- A sequence of checks has the errors of its checks only. -/
theorem Avoids.bind {first : Except ε α} {next : α → Except ε β} (h : Avoids bad first)
    (hnext : ∀ a, first = .ok a → Avoids bad (next a)) : Avoids bad (first >>= next) := by
  intro error herror
  rcases bind_eq_error_iff.mp herror with hfirst | ⟨a, ha, hlater⟩
  · exact h error hfirst
  · exact hnext a ha error hlater

theorem Avoids.refuse {p : Prop} [Decidable p] {error : ε} {next : β → Except ε α}
    {rest : Except ε α} (herror : ¬bad error) (hrest : Avoids bad rest) :
    Avoids bad (if p then (throw error >>= next) else rest) := by
  split
  · exact .bind (avoids_error herror) nofun
  · exact hrest

theorem avoids_refuse_last {p : Prop} [Decidable p] {error : ε} {a : α} (herror : ¬bad error) :
    Avoids bad (if p then throw error else (pure a : Except ε α)) := by
  split
  · exact avoids_error herror
  · exact avoids_ok a

theorem avoids_require {p : Prop} [Decidable p] {error : ε} {a : α} (herror : ¬bad error) :
    Avoids bad (if p then .ok a else .error error) := by
  split
  · exact avoids_ok a
  · exact avoids_error herror

theorem avoids_mapError {f : ε' → ε} (result : Except ε' α) (h : ∀ error, ¬bad (f error)) :
    Avoids bad (result.mapError f) := by
  cases result with
  | ok a => exact avoids_ok a
  | error error => exact avoids_error (h error)

theorem Avoids.refuseAttempt {bad : VerificationError → Prop} {p : Prop} [Decidable p]
    {error : VerificationError} {next : β → Attempt α} {rest : Attempt α} (herror : ¬bad error)
    (hrest : Avoids bad rest.result) :
    Avoids bad (if p then (Attempt.fail error >>= next) else rest).result := by
  split
  · rw [Attempt.result_bind]
    exact .bind (avoids_error herror) nofun
  · exact hrest

theorem Avoids.map {bad : VerificationError → Prop} {attempt : Attempt α} (f : α → β)
    (h : Avoids bad attempt.result) : Avoids bad (f <$> attempt).result := by
  rw [Attempt.result_map]
  exact h.bind fun a _ => avoids_ok (f a)

end Avoids

/-- The errors that the checks after a search have no use for. -/
inductive VerificationError.Unreachable : VerificationError → Prop where
  /-- Two leaves at one position contradict each other. -/
  | conflictingLeaves (position : Nat) : Unreachable (.prefixRootMismatch position)
  /-- The step where the search ended is not there. -/
  | missingStep : Unreachable (.malformedProof .missingStep)
  /-- The positions of the leaves are not in order. -/
  | unsorted : Unreachable (.malformedProof (.inclusion .indexesOutOfOrder))
  /-- A position is beyond the log, or has no leaf. -/
  | invalidInput (fault : InputFault) :
    Unreachable (.malformedProof (.inclusion (.invalidInput fault)))

open VerificationError (Unreachable)

variable {G : PointGroup}

/-! ## The checks of the head -/

theorem TreeHead.avoids_checkAfter (head : TreeHead) (baseline : Baseline)
    (seen : Option VerifiedTreeHead) : Avoids Unreachable (head.checkAfter baseline seen) := by
  cases seen with
  | none => exact avoids_ok ()
  | some seen => exact .refuse nofun (.refuse nofun (avoids_refuse_last nofun))

theorem AuditorTreeHead.avoids_signedRoot (auditor : AuditorTreeHead) (service : TreeHead) :
    Avoids Unreachable (auditor.signedRoot service) := by
  unfold signedRoot
  split
  · exact avoids_ok _
  · split
    · exact avoids_error nofun
    · exact avoids_ok _

theorem AuditorTreeHead.avoids_authenticate (auditor : AuditorTreeHead)
    (key : Signature.PublicKey G) (service : TreeHead) (trust : Trust G) :
    Avoids Unreachable (auditor.authenticate key service trust).result := by
  unfold authenticate
  simp only [Attempt.result_bind, Attempt.liftM_result]
  refine (auditor.avoids_signedRoot service).bind fun root _ => ?_
  refine (avoids_require nofun).bind fun _ _ => ?_
  refine (avoids_require nofun).bind fun _ _ => ?_
  exact .refuseAttempt nofun (avoids_ok _)

theorem FullTreeHead.avoids_authenticate (full : FullTreeHead)
    (requested : ConsistencyParameters) (trust : Trust G) :
    Avoids Unreachable (full.authenticate requested trust).result := by
  unfold authenticate
  refine .refuseAttempt nofun ?_
  simp only [Attempt.result_bind, Attempt.liftM_result, TreeHead.checkMonotonic]
  refine .bind ((full.treeHead.avoids_checkAfter _ _).bind fun _ _ =>
    full.treeHead.avoids_checkAfter _ _) fun _ _ => ?_
  refine (avoids_require nofun).bind fun _ _ => ?_
  refine (avoids_require nofun).bind fun _ _ => ?_
  refine (avoids_ok ()).bind fun _ _ => .bind ?_ fun _ _ => avoids_ok _
  unfold authenticateAuditor
  split
  · exact avoids_ok _
  · exact avoids_error nofun
  · exact (AuditorTreeHead.avoids_authenticate _ _ _ _).map _

theorem VerifiedTreeHead.avoids_checkBaseline (head : VerifiedTreeHead) (baseline : Baseline)
    (proof : List Hash) (seen : Option VerifiedTreeHead) :
    Avoids Unreachable (head.checkBaseline baseline proof seen) := by
  cases seen with
  | none => exact avoids_require nofun
  | some seen =>
    refine .refuse nofun ?_
    split
    · exact .refuse nofun (avoids_refuse_last nofun)
    · exact avoids_mapError _ nofun

theorem VerifiedTreeHead.avoids_checkAuditor (head auditor : VerifiedTreeHead)
    (shown : AuditorTreeHead) (maxLag : UInt64) :
    Avoids Unreachable (head.checkAuditor auditor shown maxLag) := by
  refine .refuse nofun (.refuse nofun ?_)
  split
  · exact avoids_refuse_last nofun
  · exact avoids_mapError _ nofun

theorem FullTreeHead.avoids_verify (full : FullTreeHead) (requested : ConsistencyParameters)
    (trust : Trust G) : Avoids Unreachable (full.verify requested trust).result := by
  unfold verify AuthenticatedHead.checkConsistency
  simp only [Attempt.result_bind, Attempt.liftM_result]
  refine (full.avoids_authenticate requested trust).bind fun heads _ => ?_
  refine (heads.head.avoids_checkBaseline _ _ _).bind fun _ _ => ?_
  refine (heads.head.avoids_checkBaseline _ _ _).bind fun _ _ => ?_
  refine .bind ?_ fun _ _ => avoids_ok _
  unfold AuthenticatedHead.checkAuditor
  split
  · rw [Attempt.result_bind]
    exact (heads.head.avoids_checkAuditor _ _ _).bind fun _ _ => avoids_ok _
  · exact avoids_ok _

/-! ## The checks of an identifier -/

/-- Leaves at positions of the log, in order, fail with their proof only. -/
theorem LeafSet.avoids_verify {leaves : LeafSet} {size : Nat}
    (hchecked : Tree.checkPositions size leaves.positions = .ok ()) (root : Hash)
    (proof : List Hash) : Avoids Unreachable (leaves.verify size root proof) := by
  by_cases haccepted : leaves.verify size root proof = .ok ()
  · exact avoids_of_eq_ok haccepted
  · by_cases hlength : proof.length = Tree.batchLength size leaves.positions
    · rw [LeafSet.verify_of_length_eq hchecked hlength haccepted]
      exact avoids_error nofun
    · rw [LeafSet.verify_of_length_ne hchecked hlength]
      exact avoids_error nofun

namespace IdentifierProof

/-- The step where a verified search ended is there. -/
theorem avoids_locate (proof : IdentifierProof) (index : CommitmentIndex)
    (head : VerifiedTreeHead) : Avoids Unreachable (proof.locate index head) := by
  unfold locate
  refine .bind (avoids_mapError _ ?_) fun outcome houtcome => ?_
  · rintro (fault | ⟨position, size⟩ | ⟨position, counter, earlier⟩ | insertionPoint |
      ⟨position, length | ⟨counter, bound⟩⟩) <;> nofun
  · obtain ⟨step, -, hstep, -⟩ := (Search.visits_spec (mapError_eq_ok_iff.mp houtcome)).ends
    rw [hstep]
    exact avoids_ok _

theorem avoids_checkEntry {proof : IdentifierProof} {index : CommitmentIndex}
    {head : VerifiedTreeHead} {outcome : Search.Outcome} {step : ProofStep}
    (hlocate : proof.locate index head = .ok (outcome, step)) :
    Avoids Unreachable (proof.checkEntry outcome step head) := by
  obtain ⟨leaves, hleaves, hchecked⟩ :=
    (Search.visits_spec (locate_eq_ok_iff.mp hlocate).1).exists_ofLeaves
  unfold checkEntry
  refine .refuse nofun ((avoids_of_eq_ok hleaves).bind fun found hfound => ?_)
  cases hleaves.symm.trans hfound
  exact LeafSet.avoids_verify hchecked _ _

theorem avoids_verify (proof : IdentifierProof) (key : SearchKey) (config : Config G)
    (head : VerifiedTreeHead) : Avoids Unreachable (proof.verify key config head).result := by
  unfold verify
  simp only [Attempt.result_bind, Attempt.liftM_result]
  refine .bind ?_ fun index _ => (avoids_ok ()).bind fun _ _ => ?_
  · rw [Config.resolve]
    cases config.vrfKey.resolve key.toBytes proof.vrfProof with
    | ok index => exact avoids_ok _
    | error error => cases error <;> exact avoids_error nofun
  · refine (proof.avoids_locate index head).bind fun (outcome, step) hlocate => ?_
    exact (avoids_checkEntry hlocate).bind fun _ _ => avoids_ok _

theorem avoids_verifyOptional (proof : Option IdentifierProof) (key : Option SearchKey)
    (name : String) (config : Config G) (head : VerifiedTreeHead) :
    Avoids Unreachable (verifyOptional proof key name config head).result := by
  unfold verifyOptional
  split
  · exact (avoids_verify _ _ _ _).map _
  · exact avoids_error nofun
  · exact avoids_ok _

end IdentifierProof

theorem SearchResponse.avoids_verify (response : SearchResponse) (request : SearchRequest)
    (trust : Trust G) : Avoids Unreachable (response.verify request trust).result := by
  unfold verify
  simp only [Attempt.result_bind]
  refine (response.treeHead.avoids_verify _ _).bind fun head _ => ?_
  refine (response.aci.avoids_verify _ _ _).bind fun aci _ => ?_
  refine (IdentifierProof.avoids_verifyOptional _ _ _ _ _).bind fun e164 _ => ?_
  exact (IdentifierProof.avoids_verifyOptional _ _ _ _ _).bind fun _ _ => avoids_ok _

/-- A verified search visits different positions of the log, one for each step, and so the checks
after it do not miss its last step and find no fault with the leaves or with their positions. -/
theorem verified_search_visits_distinct (G : PointGroup) :
    (∀ (steps : List ProofStep) (target : CommitmentIndex) (size claimed : Nat)
      (outcome : Search.Outcome), Search.verify steps target size claimed = .ok outcome →
        Search.Visits steps target size outcome ∧
          outcome.touched.length = steps.length ∧
          ∃ leaves, LeafSet.ofLeaves outcome.touched = .ok leaves ∧
            Tree.checkPositions size leaves.positions = .ok () ∧
            leaves.positions.length = (leaves.leaves.map (·.leaf)).length) ∧
      ∀ (response : SearchResponse) (request : SearchRequest) (trust : Trust G)
        (error : VerificationError), (response.verify request trust).result = .error error →
          ¬error.Unreachable := by
  constructor
  · intro steps target size claimed outcome h
    have hvisits := Search.visits_spec h
    obtain ⟨leaves, hleaves, hchecked⟩ := hvisits.exists_ofLeaves
    exact ⟨hvisits, hvisits.length_touched, leaves, hleaves, hchecked, leaves.length_positions⟩
  · intro response request trust
    exact response.avoids_verify request trust

namespace TwoSearches

/-- The second search, ended at the account's first entry. -/
def outcome : Search.Outcome :=
  ⟨0, 1, [⟨1, leaf secondEntry⟩, ⟨0, leaf firstEntry⟩]⟩

/-- The second response with a hash too many in its inclusion proof. -/
def overfull : SearchResponse :=
  { response with aci := response.aci.withInclusion [leaf firstEntry] }

theorem verify_outcome : Search.verify [secondEntry, firstEntry] index 2 0 = .ok outcome := by
  decide +kernel

theorem verify_overfull : (overfull.verify request trust).result =
    .error (.malformedProof (.inclusion (.malformedProof .batchUnused))) := by
  obtain ⟨hhead, haci, -, -⟩ := SearchResponse.verify_eq_ok_iff.mp verify_response
  obtain ⟨index, outcome, step, hresolve, hlocate, hentry, -⟩ :=
    IdentifierProof.verify_eq_ok_iff.mp haci
  obtain ⟨hopens, leaves, hleaves, hincluded⟩ := IdentifierProof.checkEntry_eq_ok_iff.mp hentry
  obtain ⟨hchecked, hlength⟩ := LeafSet.length_of_verify hincluded
  refine SearchResponse.verify_of_aci_eq_error hhead ?_
  refine IdentifierProof.verify_of_checkEntry_eq_error hresolve hlocate (List.Subset.refl _) ?_
  intro _
  have hempty : Tree.batchLength large.treeSize.toNat leaves.positions = 0 := hlength.symm
  have hopens' : Commitment.opens step.commitment overfull.aci.opening
      (UInt64.ofNat outcome.position) overfull.aci.value.value = true := hopens
  refine (IdentifierProof.checkEntry_of_opens hopens' hleaves).trans ?_
  refine (LeafSet.verify_of_length_ne hchecked ?_).trans ?_
  · exact hempty ▸ Nat.one_ne_zero
  · exact hempty ▸ rfl

/-- The second search visits both entries, and a response with a wrong proof for them is refused for
the proof. -/
theorem verified_search_visits_both :
    Search.verify [secondEntry, firstEntry] index 2 0 = .ok outcome ∧
      Search.Visits [secondEntry, firstEntry] index 2 outcome ∧
      (overfull.verify request trust).result =
        .error (.malformedProof (.inclusion (.malformedProof .batchUnused))) ∧
      ¬VerificationError.Unreachable
        (.malformedProof (.inclusion (.malformedProof .batchUnused))) := by
  obtain ⟨hsearch, hresponse⟩ := verified_search_visits_distinct Edwards25519.group
  exact ⟨verify_outcome, (hsearch _ _ _ _ _ verify_outcome).1, verify_overfull,
    hresponse _ _ _ _ verify_overfull⟩

end TwoSearches

end KeyTransparency
