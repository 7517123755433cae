import KeyTransparency.Commitment
import KeyTransparency.Exchange
import KeyTransparency.Head.Consistency

/-!
# Verifying responses

Every response goes through the same checks.  Its head is authenticated and proven to extend what
was seen before.  Then each identifier is resolved to its index, located by its search proof, opened
against its commitment, and proven to be in the log.  What fails any check is refused as a whole.
-/

namespace KeyTransparency

variable {G : PointGroup}

/-- The index of an identifier, as its proof shows it. -/
def Config.resolve (config : Config G) (key : SearchKey) (vrfProof : Bytes) :
    Except VerificationError CommitmentIndex :=
  (config.vrfKey.resolve key.toBytes vrfProof).mapError .ofVrf

namespace IdentifierProof

/-- Replays the search for an index, and finds the step that shows its first entry. -/
def locate (proof : IdentifierProof) (index : CommitmentIndex) (head : VerifiedTreeHead) :
    Except VerificationError (Search.Outcome × ProofStep) := do
  let outcome ← (Search.verify proof.search.steps index head.treeSize.toNat
    proof.search.position.toNat).mapError .ofSearch
  match proof.search.steps[outcome.step]? with
  | some step => return (outcome, step)
  | none => throw (.malformedProof .missingStep)

/-- Checks that the commitment of an entry opens to the value, and that the log contains all entries
visited. -/
def checkEntry (proof : IdentifierProof) (outcome : Search.Outcome) (step : ProofStep)
    (head : VerifiedTreeHead) : Except VerificationError Unit := do
  let position := UInt64.ofNat outcome.position
  if !Commitment.opens step.commitment proof.opening position proof.value.value then
    throw .commitmentMismatch
  let leaves ← LeafSet.ofLeaves outcome.touched
  leaves.verify head.treeSize.toNat head.root proof.search.inclusion

/-- The value of an identifier, if all about it is in order. -/
def verify (proof : IdentifierProof) (key : SearchKey) (config : Config G)
    (head : VerifiedTreeHead) : Attempt VerifiedValue := do
  let index ← config.resolve key proof.vrfProof
  Attempt.record (.resolved key index)
  let (outcome, step) ← proof.locate index head
  proof.checkEntry outcome step head
  let position := UInt64.ofNat outcome.position
  Attempt.record (.located key position)
  return ⟨key, index, position, proof.value.value⟩

/-- The value of an identifier that need not have been asked for and, if it was, need not have been
answered. -/
def verifyOptional (proof : Option IdentifierProof) (key : Option SearchKey) (name : String)
    (config : Config G) (head : VerifiedTreeHead) : Attempt (Option VerifiedValue) :=
  match key, proof with
  | some key, some proof => some <$> proof.verify key config head
  | none, some _ => Attempt.fail (.malformedProof (.unrequested name))
  | _, none => return none

end IdentifierProof

/-- Verifies a response about the distinguished key. -/
def DistinguishedResponse.verify (response : DistinguishedResponse) (request : DistinguishedRequest)
    (trust : Trust G) : Attempt VerifiedTreeHead := do
  let head ← response.treeHead.verify request.consistency trust
  let _ ← response.distinguished.verify .distinguished trust.config head
  return head

/-- Verifies a response to a search. -/
def SearchResponse.verify (response : SearchResponse) (request : SearchRequest) (trust : Trust G) :
    Attempt SearchResult := do
  let head ← response.treeHead.verify request.consistency trust
  let aci ← response.aci.verify (.aci request.aci) trust.config head
  let e164 ← IdentifierProof.verifyOptional response.e164 (request.e164.map .e164) "e164"
    trust.config head
  let usernameHash ← IdentifierProof.verifyOptional response.usernameHash
    (request.usernameHash.map .usernameHash) "username hash" trust.config head
  return ⟨aci, e164, usernameHash, head⟩

/-- Checks the monitoring proofs for some keys, collecting the leaves that they imply. -/
def MonitorKey.verifyAll (keys : List MonitorKey) (proofs : List MonitorProof) (size : Nat) :
    Collect (List MonitoredKey) :=
  (keys.zip proofs).mapM fun (key, proof) => key.verify proof size

/-- Verifies a response about monitored entries. -/
def MonitorResponse.verify (response : MonitorResponse) (request : MonitorRequest)
    (trust : Trust G) : Attempt MonitorResult := do
  let head ← response.treeHead.verify request.consistency trust
  if request.keys.length ≠ response.proofs.length then
    Attempt.fail
      (.malformedProof (.monitorProofs response.proofs.length request.keys.length))
  let size := head.treeSize.toNat
  let (keys, leaves) ← (MonitorKey.verifyAll request.keys response.proofs size).fromEmpty
  leaves.verify size head.root response.inclusion
  Attempt.record (.monitored keys.length)
  return ⟨keys, head⟩

/-- Verifies the response of an exchange against its request, and records it if it is refused. -/
def Exchange.verify (exchange : Exchange) (trust : Trust G) : Attempt Report :=
  let report : Attempt Report :=
    match exchange with
    | distinguished request response => .distinguished <$> response.verify request trust
    | search request response => .search <$> response.verify request trust
    | monitor request response => .monitor <$> response.verify request trust
  report.recordError (.rejected exchange.topic)

/-- What a client remembers after an exchange: a refused one changes nothing. -/
def Exchange.next (exchange : Exchange) (trust : Trust G) : LastSeen :=
  match (exchange.verify trust).result with
  | .ok report => trust.lastSeen.after report
  | .error _ => trust.lastSeen

end KeyTransparency
