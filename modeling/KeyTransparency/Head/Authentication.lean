import KeyTransparency.Attempt
import KeyTransparency.Head.Message

/-!
# Authenticating tree heads

The head in a response is accepted as the log's own if the request asked for what the client
remembers, the head does not fall behind what the client remembers, it is neither too old nor too
far in the future, and it is signed.  If the log has an auditor, the auditor's head must be in order
too.
-/

namespace KeyTransparency

variable {G : PointGroup}

/-- A number of milliseconds, kept within what a time can hold. -/
def clampMillis (millis : Int) : Int := max Int64.minValue.toInt (min millis Int64.maxValue.toInt)

/-- Whether a time is neither too old nor too far in the future. -/
def isFresh (timestamp now : Int64) (maxAge maxSkew : Duration) : Bool :=
  let age := clampMillis (now.toInt - timestamp.toInt)
  decide (-clampMillis maxSkew.wholeMillis ≤ age ∧ age ≤ clampMillis maxAge.wholeMillis)

namespace TreeHead

/-- Checks the time of a head. -/
def checkFresh (signer : Signer) (head : TreeHead) (now : Int64) (maxAge maxSkew : Duration) :
    Except VerificationError Unit :=
  if isFresh head.timestamp now maxAge maxSkew then .ok ()
  else .error (.staleTreeHead signer head.timestamp now)

/-- Checks that a head does not fall behind a remembered one. -/
def checkAfter (head : TreeHead) (baseline : Baseline) :
    Option VerifiedTreeHead → Except VerificationError Unit
  | none => .ok ()
  | some seen => do
    if head.treeSize < seen.treeSize then
      throw (.nonMonotonicTreeHead (.smaller head.treeSize baseline seen.treeSize))
    if head.timestamp < seen.timestamp then
      throw (.nonMonotonicTreeHead (.earlier head.timestamp baseline seen.timestamp))
    if head.treeSize = seen.treeSize ∧ head.timestamp ≠ seen.timestamp then
      throw (.nonMonotonicTreeHead (.signedBefore seen.treeSize seen.timestamp))

/-- Checks that a head does not fall behind what a client remembers. -/
def checkMonotonic (head : TreeHead) (seen : LastSeen) : Except VerificationError Unit := do
  head.checkAfter .last seen.last
  head.checkAfter .distinguished seen.distinguished

/-- Checks the signature of a head over a given root. -/
def checkSignature (head : TreeHead) (config : Config G) (key : Signature.PublicKey G)
    (signer : Signer) (root : Hash) : Except VerificationError Unit :=
  let message := treeHeadMessage config signer head.treeSize head.timestamp root
  if key.verify message head.signature then .ok ()
  else .error (.badSignature signer)

end TreeHead

namespace AuditorTreeHead

/-- The root that an auditor signed.  An auditor who is behind the service has to give it; one who
is not may leave it out, and then has signed the service's root. -/
def signedRoot (auditor : AuditorTreeHead) (service : TreeHead) : Except VerificationError Hash :=
  match auditor.rootValue with
  | some root => .ok root
  | none =>
    if auditor.treeHead.treeSize < service.treeSize then .error (.missingField .rootValue)
    else .ok service.root

/-- Authenticates an auditor's head. -/
def authenticate (auditor : AuditorTreeHead) (key : Signature.PublicKey G) (service : TreeHead)
    (trust : Trust G) : Attempt VerifiedTreeHead := do
  let head := auditor.treeHead
  let limits := trust.config.limits
  let root ← auditor.signedRoot service
  head.checkFresh .auditor trust.now limits.maxAuditorTreeHeadAge limits.maxClockSkew
  head.checkSignature trust.config key .auditor root
  if head.root ≠ root then Attempt.fail (.malformedProof .auditorRoot)
  Attempt.record (.auditorHeadVerified head.treeSize)
  return ⟨head.treeSize, head.timestamp, root⟩

end AuditorTreeHead

/-- A head that is the log's own, and the auditor's head if the log has an auditor. -/
structure AuthenticatedHead where
  head : VerifiedTreeHead
  auditor : Option VerifiedTreeHead
deriving DecidableEq

namespace FullTreeHead

/-- Authenticates the auditor's head in a response, if the log has an auditor. -/
def authenticateAuditor (full : FullTreeHead) (trust : Trust G) :
    Attempt (Option VerifiedTreeHead) :=
  match trust.config.auditorKey, full.auditorTreeHead with
  | none, _ => return none
  | some _, none => Attempt.fail (.missingField .auditorTreeHead)
  | some key, some auditor => some <$> auditor.authenticate key full.treeHead trust

/-- Authenticates the heads in a response to a request with the given parameters. -/
def authenticate (full : FullTreeHead) (requested : ConsistencyParameters) (trust : Trust G) :
    Attempt AuthenticatedHead := do
  let head := full.treeHead
  let limits := trust.config.limits
  let expected := trust.lastSeen.consistencyParameters
  if requested ≠ expected then
    Attempt.fail (.invalidRequest (.otherConsistency requested expected))
  head.checkMonotonic trust.lastSeen
  head.checkFresh .service trust.now limits.maxTreeHeadAge limits.maxClockSkew
  head.checkSignature trust.config trust.config.serviceKey .service head.root
  Attempt.record (.serviceHeadVerified head.treeSize)
  return ⟨head.verified, ← full.authenticateAuditor trust⟩

end FullTreeHead

end KeyTransparency
