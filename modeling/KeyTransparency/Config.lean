import KeyTransparency.Head
import KeyTransparency.Signature
import KeyTransparency.Time.Duration
import KeyTransparency.Vrf

/-!
# What a client trusts

A client is given the keys of a log once, and bounds on what it accepts.  Together with the heads
that it remembers and the time of day, they decide what becomes of a response.
-/

namespace KeyTransparency

/-- How far tree heads may lie in the past or in the future, and how many entries an auditor may be
behind.  The limits of a configuration are lengths of time; settings give them in seconds. -/
structure Limits (Span : Type) where
  maxTreeHeadAge : Span
  maxAuditorTreeHeadAge : Span
  maxClockSkew : Span
  maxAuditorLag : UInt64
deriving DecidableEq

namespace Limits

/-- The limits where none are given: a day, a week, a minute, and ten million entries. -/
def standard : Limits UInt64 where
  maxTreeHeadAge := 24 * 60 * 60
  maxAuditorTreeHeadAge := 7 * 24 * 60 * 60
  maxClockSkew := 60
  maxAuditorLag := 10000000

/-- Limits in seconds as lengths of time. -/
def ofSeconds (limits : Limits UInt64) : Limits Duration where
  maxTreeHeadAge := .ofSeconds limits.maxTreeHeadAge
  maxAuditorTreeHeadAge := .ofSeconds limits.maxAuditorTreeHeadAge
  maxClockSkew := .ofSeconds limits.maxClockSkew
  maxAuditorLag := limits.maxAuditorLag

end Limits

/-- The keys of a log and the limits that a client sets. -/
structure Config (G : PointGroup) where
  logId : String
  serviceKey : Signature.PublicKey G
  vrfKey : Vrf.PublicKey G
  /-- The key of the auditor, if the log has one. -/
  auditorKey : Option (Signature.PublicKey G)
  limits : Limits Duration

/-- All that a response is verified against.  The time is in milliseconds since the start of
1970. -/
structure Trust (G : PointGroup) where
  config : Config G
  lastSeen : LastSeen
  now : Int64

end KeyTransparency
