import KeyTransparency.Head.Authentication
import KeyTransparency.Tree.Consistency

/-!
# Extending what was seen before

An authenticated head is accepted only if its tree extends the trees of the heads that the client
remembers and the tree that the auditor saw.  A proof is wanted where the earlier tree is smaller,
and must not be given where it is not.
-/

namespace KeyTransparency

variable {G : PointGroup}

namespace VerifiedTreeHead

/-- Checks a proof that the tree of a head extends the smaller tree of an earlier one. -/
def checkExtends (head earlier : VerifiedTreeHead) (baseline : Baseline) (proof : List Hash) :
    Except VerificationError Unit :=
  (Tree.checkTree proof head.treeSize.toNat head.root earlier.treeSize.toNat earlier.root).mapError
    fun error => .consistencyCheckFailed baseline (.tree error)

/-- Checks a head against a remembered one, if there is one. -/
def checkBaseline (head : VerifiedTreeHead) (baseline : Baseline) (proof : List Hash) :
    Option VerifiedTreeHead → Except VerificationError Unit
  | none =>
    if proof = [] then .ok ()
    else .error (.consistencyCheckFailed baseline .proofWithoutBaseline)
  | some seen => do
    if head.treeSize < seen.treeSize then
      throw (.nonMonotonicTreeHead (.smaller head.treeSize baseline seen.treeSize))
    if seen.treeSize = head.treeSize ∨ seen.treeSize = 0 then
      if proof ≠ [] then
        throw (.consistencyCheckFailed baseline (.unexpectedProof seen.treeSize))
      if seen.treeSize = head.treeSize ∧ seen.root ≠ head.root then
        throw (.consistencyCheckFailed baseline (.rootChanged head.treeSize))
    else head.checkExtends seen baseline proof

/-- Checks a head against the one that the auditor verified; `shown` is the auditor's head as it
stands in the response. -/
def checkAuditor (head auditor : VerifiedTreeHead) (shown : AuditorTreeHead) (maxLag : UInt64) :
    Except VerificationError Unit := do
  if head.treeSize < auditor.treeSize then
    throw (.consistencyCheckFailed .auditor (.auditorAhead auditor.treeSize head.treeSize))
  let lag := head.treeSize - auditor.treeSize
  if maxLag < lag then throw (.consistencyCheckFailed .auditor (.auditorLags lag))
  if lag = 0 then
    if shown.rootValue ≠ none ∨ shown.consistency ≠ [] then
      throw (.consistencyCheckFailed .auditor .auditorCaughtUp)
  else head.checkExtends auditor .auditor shown.consistency

end VerifiedTreeHead

namespace AuthenticatedHead

/-- Checks an authenticated head against the auditor's, if there is one. -/
def checkAuditor (heads : AuthenticatedHead) (full : FullTreeHead) (maxLag : UInt64) :
    Attempt Unit :=
  match heads.auditor, full.auditorTreeHead with
  | some auditor, some shown => do
    heads.head.checkAuditor auditor shown maxLag
    Attempt.record (.auditorConsistent auditor.treeSize)
  | _, _ => return ()

/-- Checks the proofs in a response against what the client remembers and what the auditor saw, and
returns the head that may be relied on. -/
def checkConsistency (heads : AuthenticatedHead) (full : FullTreeHead) (seen : LastSeen)
    (config : Config G) : Attempt VerifiedTreeHead := do
  heads.head.checkBaseline .last full.consistencyToLast seen.last
  heads.head.checkBaseline .distinguished full.consistencyToDistinguished seen.distinguished
  heads.checkAuditor full config.limits.maxAuditorLag
  return heads.head

end AuthenticatedHead

/-- Authenticates the heads in a response and checks that the log extends what was seen before. -/
def FullTreeHead.verify (full : FullTreeHead) (requested : ConsistencyParameters)
    (trust : Trust G) : Attempt VerifiedTreeHead := do
  let heads ← full.authenticate requested trust
  heads.checkConsistency full trust.lastSeen trust.config

end KeyTransparency
