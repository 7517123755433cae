import KeyTransparency.Head.Consistency
import KeyTransparency.Words.Tree

/-!
# Tree heads, checked in words

The checks of tree heads as they are carried out in words.  Times are words with a sign: a
difference of times stops at the least and at the greatest of them, while a time is negated only if
there is one of the opposite sign.
-/

namespace KeyTransparency.Words

variable {G : PointGroup}

/-! ## Authenticating tree heads -/

/-- How old a head is, which stops at the least and at the greatest time. -/
def age (timestamp now : Int64) : Int64 := .ofInt (clampMillis (now.toInt - timestamp.toInt))

/-- The whole milliseconds of a length of time, which stop at the greatest time. -/
def millis (duration : Duration) : Int64 := .ofInt (clampMillis duration.wholeMillis)

/-- The time of the opposite sign, if there is one. -/
def negate? (time : Int64) : Option Int64 := if time = Int64.minValue then none else some (-time)

/-- Whether a time is neither too old nor too far in the future. -/
def isFresh? (timestamp now : Int64) (maxAge maxSkew : Duration) : Option Bool := do
  let least ← negate? (millis maxSkew)
  return decide (least ≤ age timestamp now ∧ age timestamp now ≤ millis maxAge)

/-- Checks the time of a head. -/
def checkFresh (signer : Signer) (head : TreeHead) (now : Int64) (maxAge maxSkew : Duration) :
    Run VerificationError Unit := do
  if ← isFresh? head.timestamp now maxAge maxSkew then return ()
  else throw (.staleTreeHead signer head.timestamp now)

/-- A log's name as it is signed. -/
def signedName? (logId : String) : Option Bytes := do
  let name ← take? (min (utf8 logId).length maxSignedName) (utf8 logId)
  return bigEndian 2 name.length ++ name

/-- What is signed for a tree head of a log. -/
def treeHeadMessage? (config : Config G) (signer : Signer) (size : UInt64) (timestamp : Int64)
    (root : Hash) : Option Bytes := do
  let name ← signedName? config.logId
  return treeHeadDomain ++ name ++ [signer.tag] ++ config.serviceKey.bytes.bytes
    ++ config.vrfKey.bytes.bytes ++ signedAuditorKey config.auditorKey
    ++ bigEndian 8 size.toNat ++ bigEndian 8 timestamp.toUInt64.toNat ++ root.bytes

/-- Checks the signature of a head over a given root. -/
def checkSignature (head : TreeHead) (config : Config G) (key : Signature.PublicKey G)
    (signer : Signer) (root : Hash) : Run VerificationError Unit := do
  let message ← treeHeadMessage? config signer head.treeSize head.timestamp root
  if key.verify message head.signature then return () else throw (.badSignature signer)

/-- Authenticates an auditor's head. -/
def authenticateAuditorHead (auditor : AuditorTreeHead) (key : Signature.PublicKey G)
    (service : TreeHead) (trust : Trust G) : Run VerificationError VerifiedTreeHead := do
  let head := auditor.treeHead
  let limits := trust.config.limits
  let root ← auditor.signedRoot service
  checkFresh .auditor head trust.now limits.maxAuditorTreeHeadAge limits.maxClockSkew
  checkSignature head trust.config key .auditor root
  if head.root ≠ root then throw (.malformedProof .auditorRoot)
  return ⟨head.treeSize, head.timestamp, root⟩

/-- Authenticates the auditor's head in a response, if the log has an auditor. -/
def authenticateAuditor (full : FullTreeHead) (trust : Trust G) :
    Run VerificationError (Option VerifiedTreeHead) :=
  match trust.config.auditorKey, full.auditorTreeHead with
  | none, _ => return none
  | some _, none => throw (.missingField .auditorTreeHead)
  | some key, some auditor =>
    return some (← authenticateAuditorHead auditor key full.treeHead trust)

/-- Authenticates the heads in a response to a request with the given parameters. -/
def authenticate (full : FullTreeHead) (requested : ConsistencyParameters) (trust : Trust G) :
    Run VerificationError AuthenticatedHead := do
  let head := full.treeHead
  let limits := trust.config.limits
  let expected := trust.lastSeen.consistencyParameters
  if requested ≠ expected then throw (.invalidRequest (.otherConsistency requested expected))
  head.checkMonotonic trust.lastSeen
  checkFresh .service head trust.now limits.maxTreeHeadAge limits.maxClockSkew
  checkSignature head trust.config trust.config.serviceKey .service head.root
  return ⟨head.verified, ← authenticateAuditor full trust⟩

/-! ## Extending what was seen before -/

/-- Checks a proof that the tree of a head extends the smaller tree of an earlier one. -/
def checkExtends (head earlier : VerifiedTreeHead) (baseline : Baseline) (proof : List Hash) :
    Run VerificationError Unit :=
  (checkTree proof head.treeSize head.root earlier.treeSize earlier.root).adapt
    fun error => .consistencyCheckFailed baseline (.tree error)

/-- Checks a head against a remembered one, if there is one. -/
def checkBaseline (head : VerifiedTreeHead) (baseline : Baseline) (proof : List Hash) :
    Option VerifiedTreeHead → Run VerificationError Unit
  | none =>
    if proof = [] then return ()
    else throw (.consistencyCheckFailed baseline .proofWithoutBaseline)
  | some seen => do
    if head.treeSize < seen.treeSize then
      throw (.nonMonotonicTreeHead (.smaller head.treeSize baseline seen.treeSize))
    if seen.treeSize = head.treeSize ∨ seen.treeSize = 0 then
      if proof ≠ [] then
        throw (.consistencyCheckFailed baseline (.unexpectedProof seen.treeSize))
      if seen.treeSize = head.treeSize ∧ seen.root ≠ head.root then
        throw (.consistencyCheckFailed baseline (.rootChanged head.treeSize))
    else checkExtends head seen baseline proof

/-- Checks a head against the one that the auditor verified; `shown` is the auditor's head as it
stands in the response. -/
def checkAuditorHead (head auditor : VerifiedTreeHead) (shown : AuditorTreeHead)
    (maxLag : UInt64) : Run VerificationError Unit := do
  if head.treeSize < auditor.treeSize then
    throw (.consistencyCheckFailed .auditor (.auditorAhead auditor.treeSize head.treeSize))
  let lag ← sub? head.treeSize auditor.treeSize
  if maxLag < lag then throw (.consistencyCheckFailed .auditor (.auditorLags lag))
  if lag = 0 then
    if shown.rootValue ≠ none ∨ shown.consistency ≠ [] then
      throw (.consistencyCheckFailed .auditor .auditorCaughtUp)
  else checkExtends head auditor .auditor shown.consistency

/-- Checks an authenticated head against the auditor's, if there is one. -/
def checkAuditor (heads : AuthenticatedHead) (full : FullTreeHead) (maxLag : UInt64) :
    Run VerificationError Unit :=
  match heads.auditor, full.auditorTreeHead with
  | some auditor, some shown => checkAuditorHead heads.head auditor shown maxLag
  | _, _ => return ()

/-- Checks the proofs in a response against what the client remembers and what the auditor saw, and
returns the head that may be relied on. -/
def checkConsistency (heads : AuthenticatedHead) (full : FullTreeHead) (seen : LastSeen)
    (config : Config G) : Run VerificationError VerifiedTreeHead := do
  checkBaseline heads.head .last full.consistencyToLast seen.last
  checkBaseline heads.head .distinguished full.consistencyToDistinguished seen.distinguished
  checkAuditor heads full config.limits.maxAuditorLag
  return heads.head

/-- Authenticates the heads in a response and checks that the log extends what was seen before. -/
def verifyHead (full : FullTreeHead) (requested : ConsistencyParameters) (trust : Trust G) :
    Run VerificationError VerifiedTreeHead := do
  let heads ← authenticate full requested trust
  checkConsistency heads full trust.lastSeen trust.config

end KeyTransparency.Words
