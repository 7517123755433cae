import KeyTransparency.Hash

/-!
# Tree heads

A tree head says what the log was at some time: its size, the time and its root.  The operator of
the log signs tree heads, and so may an auditor who follows the log.  A client remembers the heads
that it has verified, and asks with every request for proofs that the log extends them.
-/

namespace KeyTransparency

/-- A signed tree head.  Times are in milliseconds since the start of 1970. -/
structure TreeHead where
  treeSize : UInt64
  timestamp : Int64
  root : Hash
  signature : Bytes
deriving DecidableEq

/-- An auditor's tree head.  Where the auditor's tree is smaller than the log, its root comes along,
and a proof that the log extends it. -/
structure AuditorTreeHead where
  treeHead : TreeHead
  rootValue : Option Hash
  consistency : List Hash
deriving DecidableEq

/-- The heads in a response, with proofs that the log extends the heads that the client
remembers. -/
structure FullTreeHead where
  treeHead : TreeHead
  consistencyToLast : List Hash
  consistencyToDistinguished : List Hash
  auditorTreeHead : Option AuditorTreeHead
deriving DecidableEq

/-- The sizes from which a client wants consistency proofs. -/
structure ConsistencyParameters where
  last : Option UInt64
  distinguished : Option UInt64
deriving DecidableEq

/-- A tree head that has been verified. -/
structure VerifiedTreeHead where
  treeSize : UInt64
  timestamp : Int64
  root : Hash
deriving DecidableEq

namespace TreeHead

/-- The head without its signature. -/
def verified (head : TreeHead) : VerifiedTreeHead := ⟨head.treeSize, head.timestamp, head.root⟩

end TreeHead

namespace ConsistencyParameters

/-- The parameters of a client that remembers nothing. -/
def empty : ConsistencyParameters := ⟨none, none⟩

/-- An optional size as error texts show it. -/
def shownSize : Option UInt64 → String
  | none => "None"
  | some size => s!"Some({size})"

/-- The parameters as error texts show them. -/
def shown (parameters : ConsistencyParameters) : String :=
  "ConsistencyParameters \x7b last: " ++ shownSize parameters.last ++ ", distinguished: "
    ++ shownSize parameters.distinguished ++ " \x7d"

end ConsistencyParameters

/-- The heads that a client remembers: that of the last response it accepted, and that of the last
response for the distinguished key. -/
structure LastSeen where
  last : Option VerifiedTreeHead
  distinguished : Option VerifiedTreeHead
deriving DecidableEq

namespace LastSeen

/-- What a client remembers at first. -/
def empty : LastSeen := ⟨none, none⟩

/-- The parameters that a request must carry. -/
def consistencyParameters (seen : LastSeen) : ConsistencyParameters :=
  ⟨seen.last.map (·.treeSize), seen.distinguished.map (·.treeSize)⟩

/-- What a client remembers after accepting a search or a monitoring response. -/
def accept (seen : LastSeen) (head : VerifiedTreeHead) : LastSeen := { seen with last := some head }

/-- What a client remembers after accepting a response for the distinguished key. -/
def acceptDistinguished (_seen : LastSeen) (head : VerifiedTreeHead) : LastSeen :=
  ⟨some head, some head⟩

end LastSeen

end KeyTransparency
