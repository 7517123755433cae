import KeyTransparency.Proofs.Head

/-!
# One proof for each remembered head

Where a head passes the check against a remembered one, no other proof does: where there is nothing
to prove, none may be given, and between two roots there is one proof.  A response with another
proof is refused at that check, because nothing before it looks at the proof.
-/

namespace KeyTransparency

variable {G : PointGroup}

namespace VerifiedTreeHead

/-- The byte strings that are hashed when a head is checked against a remembered one, if there is
one. -/
def baselineMessages (head : VerifiedTreeHead) (proof : List Hash) :
    Option VerifiedTreeHead → List Bytes
  | none => []
  | some seen => head.extensionMessages seen proof

/-- Instead of a proof that passes the check, another one fails it. -/
theorem checkBaseline_of_ne {hashed : List Bytes} (hsafe : ¬Collision hashed)
    {head : VerifiedTreeHead} {baseline : Baseline} {proof proof' : List Hash}
    {remembered : Option VerifiedTreeHead}
    (h : head.checkBaseline baseline proof remembered = .ok ()) (hne : proof' ≠ proof)
    (hmessages : head.baselineMessages proof remembered ⊆ hashed)
    (hmessages' : head.baselineMessages proof' remembered ⊆ hashed) :
    ∃ fault, head.checkBaseline baseline proof' remembered =
      .error (.consistencyCheckFailed baseline fault) := by
  cases remembered with
  | none =>
    obtain ⟨rfl, -⟩ := require_eq_ok_iff.mp h
    exact ⟨_, if_neg hne⟩
  | some seen =>
    obtain ⟨hsize, hproof⟩ := checkBaseline_some_eq_ok_iff.mp h
    rw [checkBaseline, if_neg (UInt64.not_lt.mpr hsize)]
    by_cases hskip : seen.treeSize = head.treeSize ∨ seen.treeSize = 0
    · rw [if_pos hskip] at hproof ⊢
      obtain ⟨rfl, -⟩ := hproof
      rw [if_pos hne]
      exact ⟨_, rfl⟩
    · rw [if_neg hskip] at hproof ⊢
      rw [baselineMessages, extensionMessages, if_neg hskip] at hmessages hmessages'
      rw [checkExtends]
      cases hother : Tree.checkTree proof' head.treeSize.toNat head.root seen.treeSize.toNat
          seen.root with
      | ok _ => exact absurd (Tree.eq_of_checkTree hsafe hother hproof hmessages' hmessages) hne
      | error error => exact ⟨.tree error, rfl⟩

end VerifiedTreeHead

namespace FullTreeHead

/-- The byte strings that are hashed when the heads in a response are checked against the remembered
ones, up to the first check that fails. -/
def baselineMessages (full : FullTreeHead) (requested : ConsistencyParameters) (trust : Trust G) :
    List Bytes :=
  match (full.authenticate requested trust).result with
  | .error _ => []
  | .ok heads =>
    let head := heads.head
    head.baselineMessages full.consistencyToLast trust.lastSeen.last ++
      match head.checkBaseline .last full.consistencyToLast trust.lastSeen.last with
      | .error _ => []
      | .ok _ =>
        head.baselineMessages full.consistencyToDistinguished trust.lastSeen.distinguished

variable {full : FullTreeHead} {requested : ConsistencyParameters} {trust : Trust G}
  {heads : AuthenticatedHead} {error : VerificationError}

theorem verify_of_checkLast_eq_error
    (hauthentic : (full.authenticate requested trust).result = .ok heads)
    (hlast : heads.head.checkBaseline .last full.consistencyToLast trust.lastSeen.last =
      .error error) :
    (full.verify requested trust).result = .error error := by
  unfold verify AuthenticatedHead.checkConsistency
  simp only [Attempt.result_bind, Attempt.liftM_result]
  exact bind_eq_error_iff.mpr (.inr ⟨heads, hauthentic, bind_eq_error_iff.mpr (.inl hlast)⟩)

theorem verify_of_checkDistinguished_eq_error
    (hauthentic : (full.authenticate requested trust).result = .ok heads)
    (hlast : heads.head.checkBaseline .last full.consistencyToLast trust.lastSeen.last = .ok ())
    (hdistinguished : heads.head.checkBaseline .distinguished full.consistencyToDistinguished
      trust.lastSeen.distinguished = .error error) :
    (full.verify requested trust).result = .error error := by
  unfold verify AuthenticatedHead.checkConsistency
  simp only [Attempt.result_bind, Attempt.liftM_result]
  refine bind_eq_error_iff.mpr (.inr ⟨heads, hauthentic, ?_⟩)
  exact bind_eq_error_iff.mpr (.inr ⟨(), hlast, bind_eq_error_iff.mpr (.inl hdistinguished)⟩)

theorem baselineMessages_of_authenticate
    (hauthentic : (full.authenticate requested trust).result = .ok heads)
    (hlast : heads.head.checkBaseline .last full.consistencyToLast trust.lastSeen.last = .ok ()) :
    full.baselineMessages requested trust =
      heads.head.baselineMessages full.consistencyToLast trust.lastSeen.last ++
        heads.head.baselineMessages full.consistencyToDistinguished
          trust.lastSeen.distinguished := by
  simp only [baselineMessages, hauthentic, hlast]

def withLast (full : FullTreeHead) (proof : List Hash) : FullTreeHead :=
  { full with consistencyToLast := proof }

def withDistinguished (full : FullTreeHead) (proof : List Hash) : FullTreeHead :=
  { full with consistencyToDistinguished := proof }

variable {hashed : List Bytes} {head : VerifiedTreeHead} {proof : List Hash}

/-- With another proof for the last head, an accepted response is refused at the check against this
head. -/
theorem verify_withLast (hsafe : ¬Collision hashed)
    (h : (full.verify requested trust).result = .ok head) (hne : proof ≠ full.consistencyToLast)
    (hhashed : full.baselineMessages requested trust ⊆ hashed)
    (hhashed' : (full.withLast proof).baselineMessages requested trust ⊆ hashed) :
    ∃ fault, ((full.withLast proof).verify requested trust).result =
      .error (.consistencyCheckFailed .last fault) := by
  obtain ⟨auditor, hauthentic, hlast, -, -⟩ := verify_eq_ok_iff.mp h
  have hauthentic' : ((full.withLast proof).authenticate requested trust).result =
      .ok ⟨head, auditor⟩ := hauthentic
  rw [baselineMessages_of_authenticate hauthentic hlast] at hhashed
  simp only [baselineMessages, hauthentic'] at hhashed'
  obtain ⟨fault, hfault⟩ := VerifiedTreeHead.checkBaseline_of_ne hsafe hlast hne
    (List.append_subset.mp hhashed).1 (List.append_subset.mp hhashed').1
  exact ⟨fault, verify_of_checkLast_eq_error hauthentic' hfault⟩

/-- With another proof for the distinguished head, an accepted response is refused at the check
against that head. -/
theorem verify_withDistinguished (hsafe : ¬Collision hashed)
    (h : (full.verify requested trust).result = .ok head)
    (hne : proof ≠ full.consistencyToDistinguished)
    (hhashed : full.baselineMessages requested trust ⊆ hashed)
    (hhashed' : (full.withDistinguished proof).baselineMessages requested trust ⊆ hashed) :
    ∃ fault, ((full.withDistinguished proof).verify requested trust).result =
      .error (.consistencyCheckFailed .distinguished fault) := by
  obtain ⟨auditor, hauthentic, hlast, hdistinguished, -⟩ := verify_eq_ok_iff.mp h
  have hauthentic' : ((full.withDistinguished proof).authenticate requested trust).result =
      .ok ⟨head, auditor⟩ := hauthentic
  rw [baselineMessages_of_authenticate hauthentic hlast] at hhashed
  rw [baselineMessages_of_authenticate hauthentic' hlast] at hhashed'
  obtain ⟨fault, hfault⟩ := VerifiedTreeHead.checkBaseline_of_ne hsafe hdistinguished hne
    (List.append_subset.mp hhashed).2 (List.append_subset.mp hhashed').2
  exact ⟨fault, verify_of_checkDistinguished_eq_error hauthentic' hlast hfault⟩

end FullTreeHead

end KeyTransparency
