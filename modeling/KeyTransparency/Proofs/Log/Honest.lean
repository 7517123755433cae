import KeyTransparency.Proofs.Log.Service
import KeyTransparency.Proofs.Session.Heads
import KeyTransparency.Proofs.Tree.Prefix
import Mathlib.Data.Option.NAry

/-!
# No honest response is rejected

A log answers a search with a signed head, with proofs that it extends the heads that the client
remembers, and with what it knows about the identifiers that were asked for.  If these heads are
heads of the log's own past, all checks pass, and the client finds the first entry of every
identifier.
-/

namespace KeyTransparency

open KeyTransparency.Tree (Stores)

variable {G : PointGroup}

namespace Log

variable {log : Log} {size : UInt64} {timestamp : Int64}

/-- A head that the log has had before, or has now. -/
structure Precedes (log : Log) (size : UInt64) (timestamp : Int64) (seen : VerifiedTreeHead) :
    Prop where
  size_pos : 1 ≤ seen.treeSize.toNat
  size_le : seen.treeSize ≤ size
  root_eq : seen.root = log.root seen.treeSize.toNat
  timestamp_le : seen.timestamp ≤ timestamp
  timestamp_eq : seen.treeSize = size → seen.timestamp = timestamp

/-- The proof that the log extends the tree of the wanted size, from its stored hashes.  It is empty
unless this tree is smaller. -/
def extension (stored : Array Hash) (size : UInt64) : Option UInt64 → Except TreeError (List Hash)
  | none => .ok []
  | some old =>
    if old < size then Tree.proveTree size.toNat old.toNat (.ofStored stored) else .ok []

/-- The identifiers of a search among the first entries of a log. -/
structure Lookup (log : Log) (size : Nat) where
  aci : log.Occurrence size
  e164 : Option (log.Occurrence size)
  usernameHash : Option (log.Occurrence size)

namespace Lookup

/-- Every identifier was asked for, and its proof shows its index. -/
structure Answers {size : Nat} (lookup : log.Lookup size) (request : SearchRequest) (config : Config G) :
    Prop where
  aci : lookup.aci.BelongsTo (.aci request.aci) config
  e164 : ∀ occurrence ∈ lookup.e164,
    ∃ key ∈ request.e164.map .e164, occurrence.BelongsTo key config
  usernameHash : ∀ occurrence ∈ lookup.usernameHash,
    ∃ key ∈ request.usernameHash.map .usernameHash, occurrence.BelongsTo key config

/-- What a client finds out about the identifiers of a search. -/
def found (lookup : log.Lookup size.toNat) (request : SearchRequest) (timestamp : Int64) :
    SearchResult :=
  ⟨lookup.aci.found (.aci request.aci),
    Option.map₂ Occurrence.found lookup.e164 (request.e164.map .e164),
    Option.map₂ Occurrence.found lookup.usernameHash (request.usernameHash.map .usernameHash),
    log.head size timestamp⟩

end Lookup

/-- What the log answers to a search, from its stored hashes. -/
def respond (stored : Array Hash) (size : UInt64) (timestamp : Int64) (signature : Bytes)
    (request : SearchRequest) (lookup : log.Lookup size.toNat) :
    Except TreeError SearchResponse := do
  let root ← Tree.treeHash size.toNat (.ofStored stored)
  let toLast ← extension stored size request.consistency.last
  let toDistinguished ← extension stored size request.consistency.distinguished
  let aci ← answer stored lookup.aci
  let e164 ← lookup.e164.mapM (answer stored)
  let usernameHash ← lookup.usernameHash.mapM (answer stored)
  return ⟨⟨⟨size, timestamp, root, signature⟩, toLast, toDistinguished, none⟩, aci, e164,
    usernameHash⟩

/-! ## The head -/

theorem Precedes.checkAfter {seen : Option VerifiedTreeHead}
    (h : ∀ earlier ∈ seen, log.Precedes size timestamp earlier) (root : Hash) (signature : Bytes)
    (baseline : Baseline) :
    TreeHead.checkAfter ⟨size, timestamp, root, signature⟩ baseline seen = .ok () := by
  cases seen with
  | none => rfl
  | some earlier =>
    have hearlier := h earlier rfl
    exact TreeHead.checkAfter_some_eq_ok_iff.mpr ⟨hearlier.size_le, hearlier.timestamp_le,
      fun hsize => (hearlier.timestamp_eq hsize.symm).symm⟩

/-- The log can prove that it extends a head of its past, and the proof is accepted. -/
theorem exists_extension {stored : Array Hash} (hstores : Stores stored log.leaves)
    (hsize : size.toNat ≤ log.entries.length) {seen : Option VerifiedTreeHead}
    (h : ∀ earlier ∈ seen, log.Precedes size timestamp earlier) (baseline : Baseline) :
    ∃ proof, extension stored size (seen.map (·.treeSize)) = .ok proof ∧
      (log.head size timestamp).checkBaseline baseline proof seen = .ok () := by
  cases seen with
  | none => exact ⟨[], rfl, rfl⟩
  | some earlier =>
    have hearlier := h earlier rfl
    rcases UInt64.lt_or_eq_of_le hearlier.size_le with hless | hsame
    · obtain ⟨proof, hproof, haccepted⟩ := hstores.exists_proveTree hearlier.size_pos
        (UInt64.le_iff_toNat_le.mp hearlier.size_le) (log.length_leaves ▸ hsize)
      have hprove : ¬(earlier.treeSize = (log.head size timestamp).treeSize ∨
          earlier.treeSize = 0) := by
        refine not_or.mpr ⟨UInt64.ne_of_lt hless, ?_⟩
        intro hzero
        have hpos := hearlier.size_pos
        rw [hzero] at hpos
        cases hpos
      refine ⟨proof, (if_pos hless).trans hproof, ?_⟩
      refine VerifiedTreeHead.checkBaseline_some_eq_ok_iff.mpr ⟨hearlier.size_le, ?_⟩
      rw [if_neg hprove, hearlier.root_eq]
      exact haccepted
    · refine ⟨[], if_neg (hsame ▸ UInt64.lt_irrefl _), ?_⟩
      refine VerifiedTreeHead.checkBaseline_some_eq_ok_iff.mpr ⟨hearlier.size_le, ?_⟩
      rw [if_pos (.inl hsame), hearlier.root_eq, hsame]
      exact ⟨rfl, fun _ => rfl⟩

/-- A head that the log signs is accepted, if all that the client remembers is the log's past and
the log has no auditor. -/
theorem verify_head {trust : Trust G} (hauditor : trust.config.auditorKey = none)
    (hlast : ∀ seen ∈ trust.lastSeen.last, log.Precedes size timestamp seen)
    (hdistinguished : ∀ seen ∈ trust.lastSeen.distinguished, log.Precedes size timestamp seen)
    (hwindow : InWindow timestamp trust.now trust.config.limits.maxTreeHeadAge
      trust.config.limits.maxClockSkew)
    {signature : Bytes}
    (hsigned : trust.config.serviceKey.verify (treeHeadMessage trust.config .service size timestamp
      (log.root size.toNat)) signature = true)
    {toLast toDistinguished : List Hash}
    (htoLast : (log.head size timestamp).checkBaseline .last toLast trust.lastSeen.last = .ok ())
    (htoDistinguished : (log.head size timestamp).checkBaseline .distinguished toDistinguished
      trust.lastSeen.distinguished = .ok ()) :
    (FullTreeHead.verify ⟨⟨size, timestamp, log.root size.toNat, signature⟩, toLast,
      toDistinguished, none⟩ trust.lastSeen.consistencyParameters trust).result =
        .ok (log.head size timestamp) := by
  refine FullTreeHead.verify_eq_ok_iff.mpr ⟨none, ?_, htoLast, htoDistinguished, rfl⟩
  refine FullTreeHead.authenticate_eq_ok_iff.mpr ⟨rfl, ?_, TreeHead.checkFresh_eq_ok_iff.mpr hwindow,
    TreeHead.checkSignature_eq_ok_iff.mpr hsigned, ?_, rfl⟩
  · exact bind_eq_ok_iff.mpr
      ⟨(), Precedes.checkAfter hlast _ _ _, Precedes.checkAfter hdistinguished _ _ _⟩
  · rw [FullTreeHead.authenticateAuditor, hauditor]
    rfl

/-! ## The response -/

theorem exists_answer_optional {stored : Array Hash} (hstores : Stores stored log.leaves)
    (hsize : size.toNat ≤ log.entries.length) {occurrence : Option (log.Occurrence size.toNat)}
    {key : Option SearchKey} {config : Config G}
    (h : ∀ present ∈ occurrence, ∃ wanted ∈ key, present.BelongsTo wanted config)
    (timestamp : Int64) (name : String) :
    ∃ proof, occurrence.mapM (answer stored) = .ok proof ∧
      (IdentifierProof.verifyOptional proof key name config (log.head size timestamp)).result =
        .ok (Option.map₂ Occurrence.found occurrence key) := by
  cases occurrence with
  | none =>
    refine ⟨none, rfl, ?_⟩
    cases key with
    | none => rfl
    | some key => rfl
  | some present =>
    obtain ⟨wanted, hwanted, hpresent⟩ := h present rfl
    obtain rfl : key = some wanted := hwanted
    obtain ⟨proof, hproof, hverify⟩ := exists_answer hstores hsize present hpresent timestamp
    refine ⟨some proof, ?_, Attempt.result_map_eq_ok_iff.mpr ⟨_, hverify, rfl⟩⟩
    exact bind_eq_ok_iff.mpr ⟨proof, hproof, rfl⟩

/-- What a log answers to a search is accepted, and the client finds the first entry of every
identifier that was answered. -/
theorem verify_respond {trust : Trust G} {request : SearchRequest} {signature : Bytes}
    (lookup : log.Lookup size.toNat) (hsize : size.toNat ≤ log.entries.length)
    (hauditor : trust.config.auditorKey = none)
    (hlast : ∀ seen ∈ trust.lastSeen.last, log.Precedes size timestamp seen)
    (hdistinguished : ∀ seen ∈ trust.lastSeen.distinguished, log.Precedes size timestamp seen)
    (hwindow : InWindow timestamp trust.now trust.config.limits.maxTreeHeadAge
      trust.config.limits.maxClockSkew)
    (hsigned : trust.config.serviceKey.verify (treeHeadMessage trust.config .service size timestamp
      (log.root size.toNat)) signature = true)
    (hrequest : request.consistency = trust.lastSeen.consistencyParameters)
    (hlookup : lookup.Answers request trust.config) :
    ∃ stored response, Tree.storedHashes log.leaves = .ok stored ∧
      respond stored size timestamp signature request lookup = .ok response ∧
      (response.verify request trust).result = .ok (lookup.found request timestamp) := by
  obtain ⟨stored, hstored, hstores⟩ := Tree.exists_stores_storedHashes log.leaves
  have hroot := hstores.treeHash_eq_ok (log.length_leaves ▸ hsize)
  obtain ⟨toLast, hmadeLast, htoLast⟩ := exists_extension hstores hsize hlast .last
  obtain ⟨toDistinguished, hmadeDistinguished, htoDistinguished⟩ :=
    exists_extension hstores hsize hdistinguished .distinguished
  obtain ⟨aci, hmadeAci, haci⟩ := exists_answer hstores hsize lookup.aci hlookup.aci timestamp
  obtain ⟨e164, hmadeE164, he164⟩ :=
    exists_answer_optional hstores hsize hlookup.e164 timestamp "e164"
  obtain ⟨usernameHash, hmadeHash, husernameHash⟩ :=
    exists_answer_optional hstores hsize hlookup.usernameHash timestamp "username hash"
  have hhead := verify_head hauditor hlast hdistinguished hwindow hsigned htoLast htoDistinguished
  rw [← hrequest] at hhead
  refine ⟨stored, ⟨⟨⟨size, timestamp, log.root size.toNat, signature⟩, toLast, toDistinguished,
    none⟩, aci, e164, usernameHash⟩, hstored, ?_, ?_⟩
  · unfold respond
    rw [hrequest]
    refine bind_eq_ok_iff.mpr ⟨_, hroot, bind_eq_ok_iff.mpr ⟨_, hmadeLast, ?_⟩⟩
    refine bind_eq_ok_iff.mpr ⟨_, hmadeDistinguished, bind_eq_ok_iff.mpr ⟨_, hmadeAci, ?_⟩⟩
    exact bind_eq_ok_iff.mpr ⟨_, hmadeE164, bind_eq_ok_iff.mpr ⟨_, hmadeHash, rfl⟩⟩
  · exact SearchResponse.verify_eq_ok_iff.mpr ⟨hhead, haci, he164, husernameHash⟩

end Log

/-! ## An answer to the second of two searches -/

namespace TwoSearches

def firstVersion : LogEntry := ⟨index, ⟨[], 0⟩, opening, value⟩

def secondVersion : LogEntry := ⟨index, ⟨[], 1⟩, opening, utf8 "other value"⟩

def log : Log where
  entries := [firstVersion, secondVersion]
  ordered := ⟨by decide, by decide⟩
  length_copath_le := by decide

def lookup : log.Lookup (2 : UInt64).toNat where
  aci := ⟨index, vrfProof, 0, firstVersion, rfl, by decide⟩
  e164 := none
  usernameHash := none

def logSignature : Bytes :=
  key.bytes ++ bigEndian 32 0xf1fedf466aeee0c2201af4f791734f69fa31960940e8ab8ff5ee4379b6391604

theorem precedes_small : log.Precedes 2 2000 small where
  size_pos := by decide
  size_le := by decide
  root_eq := by
    change leaf firstEntry = Tree.root [leaf firstEntry]
    exact (Tree.root_singleton _).symm
  timestamp_le := by decide
  timestamp_eq := by decide

theorem belongsTo_account : lookup.aci.BelongsTo (.aci account) client := by
  obtain ⟨-, haci, -⟩ := SearchResponse.verify_eq_ok_iff.mp verify_response
  obtain ⟨shown, outcome, step, hresolve, -, -, hfound⟩ := IdentifierProof.verify_eq_ok_iff.mp haci
  have hindex : index = shown := congrArg VerifiedValue.index hfound
  rw [Log.Occurrence.BelongsTo]
  rw [← hindex] at hresolve
  exact hresolve

theorem answers_request : lookup.Answers request client where
  aci := belongsTo_account
  e164 := by
    intro occurrence hoccurrence
    cases hoccurrence
  usernameHash := by
    intro occurrence hoccurrence
    cases hoccurrence

/-- The account has two versions, and the first one is found. -/
theorem verify_respond_second_search :
    ∃ stored response, Tree.storedHashes log.leaves = .ok stored ∧
      Log.respond stored 2 2000 logSignature request lookup = .ok response ∧
      (response.verify request trust).result = .ok ⟨found, none, none, log.head 2 2000⟩ := by
  have hlast : ∀ seen ∈ trust.lastSeen.last, log.Precedes 2 2000 seen := by
    intro seen hseen
    cases hseen
    exact precedes_small
  have hdistinguished : ∀ seen ∈ trust.lastSeen.distinguished, log.Precedes 2 2000 seen := by
    intro seen hseen
    cases hseen
  have hsigned : trust.config.serviceKey.verify (treeHeadMessage trust.config .service 2 2000
      (log.root (2 : UInt64).toNat)) logSignature = true := by
    decide +kernel
  have hwindow : InWindow 2000 trust.now trust.config.limits.maxTreeHeadAge
      trust.config.limits.maxClockSkew := ⟨by decide, by decide⟩
  have hfound : lookup.found request 2000 = ⟨found, none, none, log.head 2 2000⟩ := rfl
  rw [← hfound]
  exact Log.verify_respond lookup (by decide) rfl hlast hdistinguished hwindow hsigned rfl
    answers_request

end TwoSearches

end KeyTransparency
