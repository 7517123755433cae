import KeyTransparency.Proofs.Head.Freshness
import KeyTransparency.Proofs.Success
import KeyTransparency.Proofs.Words.Tree
import KeyTransparency.Words.Head

/-!
# Checking tree heads in words never halts

The greatest allowed skew is not negative, so there is a time of the opposite sign, and the
auditor's tree is known not to be larger than the log's before the sizes are subtracted.
-/

namespace KeyTransparency.Words

variable {G : PointGroup} {α β : Type}

/-! ## Attempts -/

/-- An attempt that is given up where something holds goes on if it does not. -/
theorem refuse_eq_ofResult_result {p : Prop} [Decidable p] {error : VerificationError}
    {next : β → Run VerificationError α} {next' : β → Attempt α} {rest : Run VerificationError α}
    {rest' : Attempt α} (h : ¬p → rest = ofResult rest'.result) :
    (if p then (throw error >>= next) else rest) =
      ofResult (if p then (Attempt.fail error >>= next') else rest').result := by
  by_cases hp : p
  · rw [if_pos hp, if_pos hp]
    rfl
  · rw [if_neg hp, if_neg hp]
    exact h hp

/-! ## Authenticating tree heads -/

/-- What is kept within the bounds of a time is one. -/
theorem toInt_ofInt_clampMillis (millis : Int) :
    (Int64.ofInt (clampMillis millis)).toInt = clampMillis millis := by
  have hleast : Int64.minValue.toInt = -2 ^ 63 := rfl
  have hgreatest : Int64.maxValue.toInt = 2 ^ 63 - 1 := rfl
  have hbounds : -2 ^ 63 ≤ clampMillis millis ∧ clampMillis millis < 2 ^ 63 := by
    rw [clampMillis, hleast, hgreatest]
    omega
  exact Int64.toInt_ofInt_of_le hbounds.1 hbounds.2

theorem toInt_age (timestamp now : Int64) :
    (age timestamp now).toInt = clampMillis (now.toInt - timestamp.toInt) :=
  toInt_ofInt_clampMillis _

theorem toInt_millis (duration : Duration) :
    (millis duration).toInt = clampMillis duration.wholeMillis :=
  toInt_ofInt_clampMillis _

/-- A time that is not negative has one of the opposite sign. -/
theorem exists_negate? {time : Int64} (h : 0 ≤ time.toInt) :
    ∃ opposite, negate? time = some opposite ∧ opposite.toInt = -time.toInt := by
  have hbound : time.toInt < 2 ^ 63 := time.toInt_lt
  refine ⟨-time, if_neg ?_, ?_⟩
  · rintro rfl
    exact absurd h (by decide)
  · rw [← Int64.ofInt_toInt time, ← Int64.ofInt_neg, Int64.ofInt_toInt]
    exact Int64.toInt_ofInt_of_le (by omega) (by omega)

theorem isFresh?_eq (timestamp now : Int64) (maxAge maxSkew : Duration) :
    isFresh? timestamp now maxAge maxSkew = some (isFresh timestamp now maxAge maxSkew) := by
  have hskew : 0 ≤ (millis maxSkew).toInt := by
    rw [toInt_millis, clampMillis_natCast]
    exact le_min (Int.natCast_nonneg _) (by decide)
  obtain ⟨least, hleast, hleastInt⟩ := exists_negate? hskew
  rw [toInt_millis] at hleastInt
  rw [isFresh?, hleast, isFresh]
  simp only [Option.bind_eq_bind, Option.bind_some, Int64.le_iff_toInt_le, hleastInt, toInt_age,
    toInt_millis]
  rfl

theorem checkFresh_eq (signer : Signer) (head : TreeHead) (now : Int64)
    (maxAge maxSkew : Duration) :
    checkFresh signer head now maxAge maxSkew =
      ofResult (head.checkFresh signer now maxAge maxSkew) := by
  rw [checkFresh, some_bind (isFresh?_eq _ _ _ _), TreeHead.checkFresh]
  split
  · rfl
  · rfl

theorem treeHeadMessage?_eq (config : Config G) (signer : Signer) (size : UInt64)
    (timestamp : Int64) (root : Hash) :
    treeHeadMessage? config signer size timestamp root =
      some (treeHeadMessage config signer size timestamp root) := by
  have hname : signedName? config.logId = some (signedName config.logId) := by
    rw [signedName?, take?_eq (Nat.min_le_left _ _), Nat.min_comm, ← List.take_eq_take_min]
    rfl
  rw [treeHeadMessage?, hname]
  rfl

theorem checkSignature_eq (head : TreeHead) (config : Config G) (key : Signature.PublicKey G)
    (signer : Signer) (root : Hash) :
    checkSignature head config key signer root =
      ofResult (head.checkSignature config key signer root) := by
  rw [checkSignature, some_bind (treeHeadMessage?_eq _ _ _ _ _), TreeHead.checkSignature]
  split
  · rfl
  · rfl

theorem authenticateAuditorHead_eq (auditor : AuditorTreeHead) (key : Signature.PublicKey G)
    (service : TreeHead) (trust : Trust G) :
    authenticateAuditorHead auditor key service trust =
      ofResult (auditor.authenticate key service trust).result := by
  unfold authenticateAuditorHead AuditorTreeHead.authenticate
  simp only [Attempt.result_bind, Attempt.liftM_result]
  refine result_bind_eq_ofResult fun root _ => ?_
  refine bind_eq_ofResult (checkFresh_eq _ _ _ _ _) fun _ _ => ?_
  refine bind_eq_ofResult (checkSignature_eq _ _ _ _ _) fun _ _ => ?_
  exact refuse_eq_ofResult_result fun _ => rfl

theorem authenticateAuditor_eq (full : FullTreeHead) (trust : Trust G) :
    authenticateAuditor full trust = ofResult (full.authenticateAuditor trust).result := by
  unfold authenticateAuditor FullTreeHead.authenticateAuditor
  cases trust.config.auditorKey with
  | none => rfl
  | some key =>
    cases full.auditorTreeHead with
    | none => rfl
    | some auditor =>
      rw [Attempt.result_map]
      exact bind_eq_ofResult (authenticateAuditorHead_eq _ _ _ _) fun _ _ => rfl

theorem authenticate_eq (full : FullTreeHead) (requested : ConsistencyParameters)
    (trust : Trust G) :
    authenticate full requested trust = ofResult (full.authenticate requested trust).result := by
  unfold authenticate FullTreeHead.authenticate
  refine refuse_eq_ofResult_result fun _ => ?_
  simp only [Attempt.result_bind, Attempt.liftM_result]
  refine result_bind_eq_ofResult fun _ _ => ?_
  refine bind_eq_ofResult (checkFresh_eq _ _ _ _ _) fun _ _ => ?_
  refine bind_eq_ofResult (checkSignature_eq _ _ _ _ _) fun _ _ => ?_
  exact bind_eq_ofResult (authenticateAuditor_eq _ _) fun _ _ => rfl

/-! ## Extending what was seen before -/

theorem checkExtends_eq (head earlier : VerifiedTreeHead) (baseline : Baseline)
    (proof : List Hash) :
    checkExtends head earlier baseline proof =
      ofResult (head.checkExtends earlier baseline proof) := by
  rw [checkExtends, checkTree_eq]
  rfl

theorem checkBaseline_eq (head : VerifiedTreeHead) (baseline : Baseline) (proof : List Hash)
    (seen : Option VerifiedTreeHead) :
    checkBaseline head baseline proof seen =
      ofResult (head.checkBaseline baseline proof seen) := by
  cases seen with
  | none =>
    rw [checkBaseline, VerifiedTreeHead.checkBaseline]
    split
    · rfl
    · rfl
  | some seen =>
    refine refuse_eq_ofResult fun _ => ?_
    by_cases hskip : seen.treeSize = head.treeSize ∨ seen.treeSize = 0
    · rw [if_pos hskip, if_pos hskip]
      refine refuse_eq_ofResult fun _ => ?_
      split
      · rfl
      · rfl
    · rw [if_neg hskip, if_neg hskip]
      exact checkExtends_eq _ _ _ _

theorem checkAuditorHead_eq (head auditor : VerifiedTreeHead) (shown : AuditorTreeHead)
    (maxLag : UInt64) :
    checkAuditorHead head auditor shown maxLag =
      ofResult (head.checkAuditor auditor shown maxLag) := by
  refine refuse_eq_ofResult fun hahead => ?_
  have hlag := sub?_eq (UInt64.not_lt.mp hahead)
  rw [some_bind hlag]
  refine refuse_eq_ofResult fun _ => ?_
  by_cases hzero : head.treeSize - auditor.treeSize = 0
  · rw [if_pos hzero, if_pos hzero]
    split
    · rfl
    · rfl
  · rw [if_neg hzero, if_neg hzero]
    exact checkExtends_eq _ _ _ _

theorem checkAuditor_eq (heads : AuthenticatedHead) (full : FullTreeHead) (maxLag : UInt64) :
    checkAuditor heads full maxLag = ofResult (heads.checkAuditor full maxLag).result := by
  unfold checkAuditor AuthenticatedHead.checkAuditor
  cases heads.auditor with
  | none => rfl
  | some auditor =>
    cases full.auditorTreeHead with
    | none => rfl
    | some shown =>
      refine (checkAuditorHead_eq _ _ _ _).trans ?_
      rw [Attempt.result_bind, Attempt.liftM_result]
      cases heads.head.checkAuditor auditor shown maxLag with
      | error error => rfl
      | ok _ => rfl

/-- Checking in words that a head extends what was seen before never halts. -/
theorem checkConsistency_eq (heads : AuthenticatedHead) (full : FullTreeHead) (seen : LastSeen)
    (config : Config G) :
    checkConsistency heads full seen config =
      ofResult (heads.checkConsistency full seen config).result := by
  unfold checkConsistency AuthenticatedHead.checkConsistency
  simp only [Attempt.result_bind, Attempt.liftM_result]
  refine bind_eq_ofResult (checkBaseline_eq _ _ _ _) fun _ _ => ?_
  refine bind_eq_ofResult (checkBaseline_eq _ _ _ _) fun _ _ => ?_
  exact bind_eq_ofResult (checkAuditor_eq _ _ _) fun _ _ => rfl

theorem verifyHead_eq (full : FullTreeHead) (requested : ConsistencyParameters)
    (trust : Trust G) :
    verifyHead full requested trust = ofResult (full.verify requested trust).result := by
  unfold verifyHead FullTreeHead.verify
  rw [Attempt.result_bind]
  exact bind_eq_ofResult (authenticate_eq _ _ _) fun _ _ => checkConsistency_eq _ _ _ _

end KeyTransparency.Words
