import KeyTransparency.Head
import KeyTransparency.PrefixTree
import KeyTransparency.Tree.Error
import KeyTransparency.Vrf

/-!
# Why a response is refused

Every check of a response has its own way to fail.  The errors here name the causes, a kind sorts
them, and one function puts each into words.  The errors of the parts of the library turn into
errors of a whole response.
-/

namespace KeyTransparency

/-- Who signs a tree head. -/
inductive Signer where
  | service
  | auditor
deriving DecidableEq

/-- The signer in words. -/
def Signer.name : Signer → String
  | service => "service"
  | auditor => "auditor"

/-- The earlier tree that a head is checked against. -/
inductive Baseline where
  | last
  | distinguished
  | auditor
deriving DecidableEq

/-- The earlier tree in words. -/
def Baseline.name : Baseline → String
  | last => "last"
  | distinguished => "distinguished"
  | auditor => "auditor"

/-- Why entries do not lie as a sorted log would have them. -/
inductive OrderFault where
  | stepsAfterEnd (count : Nat)
  | stepsAfterEmpty (count : Nat)
  | endsElsewhere (position claimed : Nat)
  | stepsMissing
  | noFirstVersion (counter : UInt32) (position : Nat)
  | sortsBefore (position : Nat)
  | otherIdentifier (position : Nat)
  | counterDiffers (position : Nat) (counter expected : UInt32)
deriving DecidableEq

/-- The fault in words. -/
def OrderFault.message : OrderFault → String
  | stepsAfterEnd count => s!"{count} steps after the search terminated"
  | stepsAfterEmpty count => s!"{count} steps after the search interval emptied"
  | endsElsewhere position claimed => s!"search ends at {position}, response claims {claimed}"
  | stepsMissing => "steps end before the search terminated"
  | noFirstVersion counter position =>
    s!"counter {counter} at {position} has no first version before it"
  | sortsBefore position => s!"entry at {position} sorts before an earlier entry on the frontier"
  | otherIdentifier position => s!"entry at {position} belongs to another identifier"
  | counterDiffers position counter expected =>
    s!"entry at {position} has counter {counter}, expected {expected}"

/-- Why a search proof is refused. -/
inductive SearchError where
  | pathInconsistent (fault : OrderFault)
  | positionOutOfRange (position size : Nat)
  | versionRegression (position : Nat) (counter earlier : UInt32)
  | notFound (insertionPoint : Nat)
  | prefixAt (position : Nat) (source : PrefixError)
deriving DecidableEq

/-- The error in words. -/
def SearchError.message : SearchError → String
  | pathInconsistent fault => "search path inconsistent: " ++ fault.message
  | positionOutOfRange position size => s!"position {position} out of range for tree of size {size}"
  | versionRegression position counter earlier =>
    s!"counter {counter} at position {position} does not exceed counter {earlier} found before it"
  | notFound insertionPoint => s!"identifier not found, insertion point {insertionPoint}"
  | prefixAt position source => s!"prefix proof at position {position}: " ++ source.message

/-- What makes a response malformed. -/
inductive ResponseFault where
  | tree (error : TreeError)
  | inclusion (error : TreeError)
  /-- The auditor's head shows another root than the one that was signed. -/
  | auditorRoot
  /-- The step at which a search ended is not among its steps. -/
  | missingStep
  | monitorSteps (given wanted : Nat)
  | monitorProofs (proofs keys : Nat)
  /-- There is a result for an identifier that was not asked for. -/
  | unrequested (identifier : String)
deriving DecidableEq

/-- The fault in words. -/
def ResponseFault.message : ResponseFault → String
  | tree error => error.message
  | inclusion error => "inclusion proof: " ++ error.message
  | auditorRoot => "auditor tree head root differs from the root it signs"
  | missingStep => "search outcome refers to a missing step"
  | monitorSteps given wanted => s!"monitoring proof has {given} steps, frontier has {wanted}"
  | monitorProofs proofs keys => s!"{proofs} monitoring proofs for {keys} keys"
  | unrequested identifier => s!"response contains an unrequested {identifier} result"

/-- A part of a response that may be absent, but not where it is wanted. -/
inductive ResponseField where
  | auditorTreeHead
  | rootValue
deriving DecidableEq

/-- The name of a part of a response. -/
def ResponseField.name : ResponseField → String
  | auditorTreeHead => "auditor_tree_head"
  | rootValue => "root_value"

/-- What is wrong with a request. -/
inductive RequestFault where
  | malformedKey
  | otherConsistency (requested expected : ConsistencyParameters)
deriving DecidableEq

/-- The fault in words. -/
def RequestFault.message : RequestFault → String
  | malformedKey => Vrf.Error.malformedPublicKey.message
  | otherConsistency requested expected =>
    "request asks for consistency with " ++ requested.shown ++ ", caller state holds "
      ++ expected.shown

/-- Why a log does not extend an earlier tree. -/
inductive ConsistencyFault where
  | proofWithoutBaseline
  | unexpectedProof (size : UInt64)
  | rootChanged (size : UInt64)
  | auditorAhead (auditorSize serviceSize : UInt64)
  | auditorLags (entries : UInt64)
  | auditorCaughtUp
  | tree (error : TreeError)
deriving DecidableEq

/-- The fault in words. -/
def ConsistencyFault.message : ConsistencyFault → String
  | proofWithoutBaseline => "proof supplied without a baseline"
  | unexpectedProof size => s!"unexpected proof from size {size}"
  | rootChanged size => s!"root changed at size {size}"
  | auditorAhead auditorSize serviceSize =>
    s!"auditor size {auditorSize} exceeds service size {serviceSize}"
  | auditorLags entries => s!"auditor lags by {entries} entries"
  | auditorCaughtUp => "root value or proof supplied for an auditor that is caught up"
  | tree error => error.message

/-- How a tree head falls behind an earlier one. -/
inductive MonotonicityFault where
  | smaller (size : UInt64) (baseline : Baseline) (baselineSize : UInt64)
  | earlier (timestamp : Int64) (baseline : Baseline) (baselineTimestamp : Int64)
  /-- The same size has been signed with another time. -/
  | signedBefore (size : UInt64) (baselineTimestamp : Int64)
deriving DecidableEq

/-- The fault in words. -/
def MonotonicityFault.message : MonotonicityFault → String
  | smaller size baseline baselineSize =>
    s!"tree size {size} is smaller than " ++ baseline.name ++ s!" tree size {baselineSize}"
  | earlier timestamp baseline baselineTimestamp =>
    s!"timestamp {timestamp} is earlier than " ++ baseline.name
      ++ s!" timestamp {baselineTimestamp}"
  | signedBefore size baselineTimestamp =>
    s!"tree size {size} was already signed with timestamp {baselineTimestamp}"

/-- Why a response is refused. -/
inductive VerificationError where
  | malformedProof (fault : ResponseFault)
  | prefixPathTooLong (length : Nat)
  | frontierIncomplete (wanted given : Nat)
  | missingField (field : ResponseField)
  | invalidRequest (fault : RequestFault)
  | badSignature (signer : Signer)
  | invalidVrfProof
  | commitmentMismatch
  | rootMismatch
  | inclusionMismatch
  | prefixRootMismatch (position : Nat)
  | consistencyCheckFailed (baseline : Baseline) (fault : ConsistencyFault)
  | staleTreeHead (signer : Signer) (timestamp now : Int64)
  | nonMonotonicTreeHead (fault : MonotonicityFault)
  | searchPathInconsistent (fault : OrderFault)
  | positionOutOfRange (position size : Nat)
  | versionRegression (position : Nat) (counter known : UInt32)
  | notFound (insertionPoint : Nat)
deriving DecidableEq

/-- The kinds of reasons for which a response is refused. -/
inductive ErrorKind where
  | malformedInput
  | cryptographic
  | consistency
  | logical
deriving DecidableEq

/-- The name of a kind. -/
def ErrorKind.name : ErrorKind → String
  | malformedInput => "MalformedInput"
  | cryptographic => "Cryptographic"
  | consistency => "Consistency"
  | logical => "Logical"

namespace VerificationError

/-- The kind of an error. -/
def kind : VerificationError → ErrorKind
  | malformedProof _ | prefixPathTooLong _ | frontierIncomplete .. | missingField _
  | invalidRequest _ => .malformedInput
  | badSignature _ | invalidVrfProof | commitmentMismatch | rootMismatch | inclusionMismatch
  | prefixRootMismatch _ => .cryptographic
  | consistencyCheckFailed .. | staleTreeHead .. | nonMonotonicTreeHead _ => .consistency
  | searchPathInconsistent _ | positionOutOfRange .. | versionRegression .. | notFound _ => .logical

/-- The error in words. -/
def message : VerificationError → String
  | malformedProof fault => "malformed proof: " ++ fault.message
  | prefixPathTooLong length => (PrefixError.pathTooLong length).message
  | frontierIncomplete wanted given =>
    s!"monitoring frontier incomplete: expected {wanted} steps, got {given}"
  | missingField field => "required field missing: " ++ field.name
  | invalidRequest fault => "invalid request: " ++ fault.message
  | badSignature signer => "bad " ++ signer.name ++ " tree head signature"
  | invalidVrfProof => "invalid VRF proof"
  | commitmentMismatch => "commitment does not open to the returned value"
  | rootMismatch => "recomputed root does not match"
  | inclusionMismatch => "inclusion proof does not lead to the signed root"
  | prefixRootMismatch position => s!"conflicting leaf hashes for log position {position}"
  | consistencyCheckFailed baseline fault =>
    "consistency check against " ++ baseline.name ++ " tree head failed: " ++ fault.message
  | staleTreeHead signer timestamp now =>
    signer.name ++ s!" tree head timestamp {timestamp} is outside the accepted window at {now}"
  | nonMonotonicTreeHead fault => "tree head is not monotonic: " ++ fault.message
  | searchPathInconsistent fault => "search path inconsistent: " ++ fault.message
  | positionOutOfRange position size => s!"position {position} out of range for tree of size {size}"
  | versionRegression position counter known =>
    s!"version regression at position {position}: counter {counter} conflicts with known counter "
      ++ s!"{known}"
  | notFound insertionPoint => s!"identifier not found, insertion point {insertionPoint}"

/-- What a tree error means for a response. -/
def ofTree : TreeError → VerificationError
  | .rootMismatch => rootMismatch
  | error => malformedProof (.tree error)

/-- What an error about a VRF key or proof means for a response. -/
def ofVrf : Vrf.Error → VerificationError
  | .malformedPublicKey => invalidRequest .malformedKey
  | .invalidProof | .noCurvePoint => invalidVrfProof

/-- What an error in the prefix proof at a position means for a response. -/
def ofPrefix (position : Nat) : PrefixError → VerificationError
  | .pathTooLong length => prefixPathTooLong length
  | .versionRegression counter bound => versionRegression position counter bound

/-- What a search error means for a response. -/
def ofSearch : SearchError → VerificationError
  | .pathInconsistent fault => searchPathInconsistent fault
  | .positionOutOfRange position size => positionOutOfRange position size
  | .versionRegression position counter earlier => versionRegression position counter earlier
  | .notFound insertionPoint => notFound insertionPoint
  | .prefixAt position source => ofPrefix position source

end VerificationError

end KeyTransparency
