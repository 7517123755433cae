import KeyTransparency.Event
import KeyTransparency.Monitor

/-!
# Requests, responses and results

A client asks a log for the distinguished key, searches for identifiers, or monitors entries that it
knows.  The structures here are what it sends, what it gets, and what it may rely on once the
response has been verified.
-/

namespace KeyTransparency

/-- The entries that a search visits, the position that it ends at, and a proof that the log
contains these entries. -/
structure SearchProof where
  position : UInt64
  steps : List ProofStep
  inclusion : List Hash
deriving DecidableEq

/-- A value that is bound to an identifier. -/
structure UpdateValue where
  value : Bytes
deriving DecidableEq

/-- What a response says about one identifier: how its index follows from it, where its first entry
lies, and which value this entry commits to. -/
structure IdentifierProof where
  vrfProof : Bytes
  search : SearchProof
  opening : Bytes
  value : UpdateValue
deriving DecidableEq

/-- A search for an account, and for its telephone number and username if they are given. -/
structure SearchRequest where
  aci : Octets 16
  e164 : Option String
  usernameHash : Option (Octets 32)
  consistency : ConsistencyParameters
deriving DecidableEq

/-- What a log answers to a search. -/
structure SearchResponse where
  treeHead : FullTreeHead
  aci : IdentifierProof
  e164 : Option IdentifierProof
  usernameHash : Option IdentifierProof
deriving DecidableEq

/-- A request for the distinguished key. -/
structure DistinguishedRequest where
  consistency : ConsistencyParameters
deriving DecidableEq

/-- What a log answers about the distinguished key. -/
structure DistinguishedResponse where
  treeHead : FullTreeHead
  distinguished : IdentifierProof
deriving DecidableEq

/-- A request to monitor some entries. -/
structure MonitorRequest where
  keys : List MonitorKey
  consistency : ConsistencyParameters
deriving DecidableEq

/-- What a log answers about monitored entries: a proof for each, and one proof that the log
contains all entries shown. -/
structure MonitorResponse where
  treeHead : FullTreeHead
  proofs : List MonitorProof
  inclusion : List Hash
deriving DecidableEq

/-- The value of an identifier, proven to stand in its first entry. -/
structure VerifiedValue where
  searchKey : SearchKey
  index : CommitmentIndex
  position : UInt64
  value : Bytes
deriving DecidableEq

/-- What a verified search shows. -/
structure SearchResult where
  aci : VerifiedValue
  e164 : Option VerifiedValue
  usernameHash : Option VerifiedValue
  treeHead : VerifiedTreeHead
deriving DecidableEq

/-- What a verified monitoring response shows. -/
structure MonitorResult where
  keys : List MonitoredKey
  treeHead : VerifiedTreeHead
deriving DecidableEq

/-- A request with the response to it. -/
inductive Exchange where
  | distinguished (request : DistinguishedRequest) (response : DistinguishedResponse)
  | search (request : SearchRequest) (response : SearchResponse)
  | monitor (request : MonitorRequest) (response : MonitorResponse)
deriving DecidableEq

/-- What an exchange is about. -/
def Exchange.topic : Exchange → Topic
  | distinguished .. => .distinguished
  | search .. => .search
  | monitor .. => .monitor

/-- What an accepted exchange shows. -/
inductive Report where
  | distinguished (head : VerifiedTreeHead)
  | search (result : SearchResult)
  | monitor (result : MonitorResult)
deriving DecidableEq

/-- The head of the log at an accepted exchange. -/
def Report.head : Report → VerifiedTreeHead
  | distinguished head => head
  | search result => result.treeHead
  | monitor result => result.treeHead

/-- What a client remembers after an accepted exchange. -/
def LastSeen.after (seen : LastSeen) : Report → LastSeen
  | .distinguished head => seen.acceptDistinguished head
  | .search result => seen.accept result.treeHead
  | .monitor result => seen.accept result.treeHead

end KeyTransparency
