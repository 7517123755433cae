import KeyTransparency.Curve.Edwards25519
import KeyTransparency.Proofs.Session

/-!
# The heads of a session

Throughout a session heads come in order, whatever mixture of exchanges it is made of.  A client
checks a new head against two remembered ones only, but it remembers the last one, so that the order
reaches back to the first.  For the same reason the roots of all earlier heads are roots of
beginnings of the last one's leaves.
-/

namespace KeyTransparency

variable {G : PointGroup} {config : Config G}

/-! ## Order -/

/-- What a client remembers is in order: the head for the distinguished key is no later than the
last head, and neither is of an empty tree. -/
structure LastSeen.Coherent (seen : LastSeen) : Prop where
  last_pos : ∀ last, seen.last = some last → 1 ≤ last.treeSize.toNat
  distinguished_pos : ∀ distinguished, seen.distinguished = some distinguished →
    1 ≤ distinguished.treeSize.toNat
  last_after_distinguished : ∀ distinguished, seen.distinguished = some distinguished →
    ∃ last, seen.last = some last ∧ last.After distinguished

theorem LastSeen.coherent_empty : LastSeen.empty.Coherent := by
  constructor
  · intro last h
    cases h
  · intro distinguished h
    cases h
  · intro distinguished h
    cases h

/-- What is remembered after an acceptance is in order. -/
theorem Acceptance.coherent_after (acceptance : Acceptance config)
    (h : acceptance.seen.Coherent) : (acceptance.seen.after acceptance.report).Coherent := by
  have hlast := LastSeen.last_after acceptance.seen acceptance.report
  constructor
  · intro last hnew
    cases hlast.symm.trans hnew
    exact acceptance.treeSize_pos
  · intro distinguished hnew
    rcases LastSeen.distinguished_after acceptance.seen acceptance.report with hhere | hkept
    · cases hhere.symm.trans hnew
      exact acceptance.treeSize_pos
    · exact h.distinguished_pos distinguished (hkept.symm.trans hnew)
  · intro distinguished hnew
    refine ⟨acceptance.report.head, hlast, ?_⟩
    rcases LastSeen.distinguished_after acceptance.seen acceptance.report with hhere | hkept
    · cases hhere.symm.trans hnew
      exact .refl _
    · exact (acceptance.follows_distinguished (hkept.symm.trans hnew)).toAfter

namespace History

variable {seen : LastSeen} {accepted : List (Acceptance config)}

theorem coherent (h : History seen accepted) : seen.Coherent := by
  induction h with
  | start => exact LastSeen.coherent_empty
  | accept acceptance _ ih => exact acceptance.coherent_after ih

/-- Every head comes after all heads before it. -/
theorem pairwise_after (h : History seen accepted) :
    (accepted.map (·.report.head)).Pairwise VerifiedTreeHead.After := by
  induction h with
  | start => exact .nil
  | @accept acceptance past hpast ih =>
    refine List.pairwise_cons.mpr ⟨?_, ih⟩
    intro earlier hmem
    have hseen := hpast.last_eq
    -- the new head follows the last one, and the last one comes after the rest
    cases hheads : past.map (·.report.head) with
    | nil =>
      rw [hheads] at hmem
      cases hmem
    | cons last rest =>
      rw [hheads] at hmem hseen ih
      have hnext := (acceptance.follows_last hseen).toAfter
      rcases List.mem_cons.mp hmem with rfl | hrest
      · exact hnext
      · exact hnext.trans ((List.pairwise_cons.mp ih).1 earlier hrest)

end History

/-- In every session, what is remembered is in order, and every accepted head comes after all heads
accepted before it. -/
theorem Session.heads_in_order (config : Config G) (turns : List Turn) :
    (run config turns).seen.Coherent ∧
      (run config turns).heads.Pairwise VerifiedTreeHead.After := by
  have hhistory := History.run config turns
  rw [heads, reports, List.map_map]
  exact ⟨hhistory.coherent, hhistory.pairwise_after⟩

/-! ## Growth -/

/-- The byte strings that are hashed when each accepted head is proven to extend the one before. -/
def Session.consistencyMessages (session : Session config) : List Bytes :=
  session.accepted.flatMap Acceptance.consistencyMessages

/-- If the last root is that of the first leaves of a list, every root is. -/
theorem History.roots_take {hashed : List Bytes} (hsafe : ¬Collision hashed) {seen : LastSeen}
    {accepted : List (Acceptance config)} (h : History seen accepted)
    (hconsistency : accepted.flatMap Acceptance.consistencyMessages ⊆ hashed)
    {leaves : List Hash} (hleaves : Tree.prefixMessages leaves ⊆ hashed)
    (hlast : ∀ last, seen.last = some last → last.treeSize.toNat ≤ leaves.length ∧
      last.root = Tree.root (leaves.take last.treeSize.toNat)) :
    ∀ head ∈ accepted.map (·.report.head), 1 ≤ head.treeSize.toNat ∧
      head.treeSize.toNat ≤ leaves.length ∧
        head.root = Tree.root (leaves.take head.treeSize.toNat) := by
  induction h with
  | start =>
    intro head hmem
    cases hmem
  | accept acceptance hpast ih =>
    obtain ⟨hle, hroot⟩ := hlast _ (LastSeen.last_after acceptance.seen acceptance.report)
    rw [List.flatMap_cons] at hconsistency
    obtain ⟨hhere, hbefore⟩ := List.append_subset.mp hconsistency
    intro head hmem
    rcases List.mem_cons.mp hmem with rfl | hearlier
    · exact ⟨acceptance.treeSize_pos, hle, hroot⟩
    · -- the proof in the response starts from the head accepted just before
      refine ih hbefore ?_ head hearlier
      intro earlier hseen
      have hne := hpast.treeSize_ne_zero_of_last hseen
      rw [acceptance.consistencyMessages_eq hseen] at hhere
      have hlength : acceptance.report.head.treeSize.toNat =
          (leaves.take acceptance.report.head.treeSize.toNat).length := by
        rw [List.length_take, Nat.min_eq_left hle]
      have hmessages := List.Subset.trans (Tree.messages_take_subset_prefixMessages hle) hleaves
      obtain ⟨hsmaller, hbeginning⟩ := (acceptance.follows_last hseen).root_take hsafe hne hlength
        hroot hhere hmessages
      rw [List.take_take, Nat.min_eq_left (hlength ▸ hsmaller)] at hbeginning
      exact ⟨Nat.le_trans (hlength ▸ hsmaller) hle, hbeginning⟩

/-- If the root of the last accepted head is the root of some leaves, the root of every accepted
head is the root of the first of these leaves, or two different byte strings that were hashed have
the same digest. -/
theorem Session.roots_take_or_collision (config : Config G) (turns : List Turn)
    {last : VerifiedTreeHead} (hlast : (run config turns).seen.last = some last)
    {leaves : List Hash} (hlength : leaves.length = last.treeSize.toNat)
    (hroot : last.root = Tree.root leaves) :
    (∀ head ∈ (run config turns).heads, 1 ≤ head.treeSize.toNat ∧
        head.treeSize.toNat ≤ leaves.length ∧
          head.root = Tree.root (leaves.take head.treeSize.toNat)) ∨
      Collision ((run config turns).consistencyMessages ++ Tree.prefixMessages leaves) := by
  by_cases hsafe :
      Collision ((run config turns).consistencyMessages ++ Tree.prefixMessages leaves)
  · exact .inr hsafe
  · refine .inl ?_
    rw [heads, reports, List.map_map]
    refine (History.run config turns).roots_take hsafe (List.subset_append_left _ _)
      (List.subset_append_right _ _) ?_
    intro head hhead
    cases hlast.symm.trans hhead
    rw [← hlength, List.take_length]
    exact ⟨Nat.le_refl _, hroot⟩

/-! ## A session over two heads

A client searches for an account twice.  Between the searches the log grows by a second version of
the account, so that the second search visits both entries and ends at the first. -/

namespace TwoSearches

open KeyTransparency.Edwards25519 (group)

/-- The key of the log for signatures and for the random function.  It is the base point, so the
secret scalar is one. -/
def key : Octets 32 := group.encode group.base

def client : Config group where
  logId := "log"
  serviceKey := ⟨key, group.base⟩
  vrfKey := ⟨key, group.base⟩
  auditorKey := none
  limits := .ofSeconds .standard

def account : Octets 16 := ⟨List.replicate 16 0x0a, rfl⟩

def index : CommitmentIndex :=
  ⟨⟨bigEndian 32 0xd755741eaf61365e2c9a5c0625b71c14ace231c5219ddf7cda1690e0147e12df, rfl⟩⟩

/-- The proof that the index is the account's. -/
def vrfProof : Bytes :=
  bigEndian 32 0x4976c0ac4f79a272c31871b13d1ef28dedef5e4b8e36aef66a7d5c3ca864ab05
    ++ bigEndian 16 0x08d16949dce0218ffab38465a0c1de77
    ++ bigEndian 32 0x31c70c6a305c7bb90b470666155e22a98a1d25841de9d24a7b1bde95c22f3403

def opening : Octets Commitment.openingSize := ⟨List.replicate 32 0x0b, rfl⟩

def value : Bytes := utf8 "value"

def firstEntry : ProofStep := ⟨index, ⟨[], 0⟩, Commitment.commit opening 0 value⟩

/-- The second version of the account.  Its commitment is never opened. -/
def secondEntry : ProofStep := ⟨index, ⟨[], 1⟩, ⟨⟨List.replicate 32 0x00, rfl⟩⟩⟩

def leaf (entry : ProofStep) : Hash := entryLeafHash entry.prefixRoot entry.commitment

def small : VerifiedTreeHead := ⟨1, 1000, leaf firstEntry⟩

def large : VerifiedTreeHead := ⟨2, 2000, nodeHash (leaf firstEntry) (leaf secondEntry)⟩

def smallSignature : Bytes :=
  key.bytes ++ bigEndian 32 0x0f6c962b6aa59dc281d097445d5e75a08a14b559586e14af319a78b1deaa2a0a

def largeSignature : Bytes :=
  key.bytes ++ bigEndian 32 0x5c1628d4c28f9f0e2819a01867e7d9284c7d161138af8278b11f40dee2c9bc05

/-- The first version of the account with the entries on the way to it, all of which are visited. -/
def proof (steps : List ProofStep) : IdentifierProof :=
  ⟨vrfProof, ⟨0, steps, []⟩, opening.bytes, ⟨value⟩⟩

def turns : List Turn :=
  [⟨1000, .search ⟨account, none, none, .empty⟩
      ⟨⟨⟨1, 1000, small.root, smallSignature⟩, [], [], none⟩, proof [firstEntry], none, none⟩⟩,
    ⟨2000, .search ⟨account, none, none, ⟨some 1, none⟩⟩
      ⟨⟨⟨2, 2000, large.root, largeSignature⟩, [leaf secondEntry], [], none⟩,
        proof [secondEntry, firstEntry], none, none⟩⟩]

def found : VerifiedValue := ⟨.aci account, index, 0, value⟩

theorem reports_run : (Session.run client turns).reports =
    [.search ⟨found, none, none, large⟩, .search ⟨found, none, none, small⟩] := by
  decide +kernel

theorem heads_run : (Session.run client turns).heads = [large, small] := by
  rw [Session.heads, reports_run]
  rfl

theorem last_run : (Session.run client turns).seen.last = some large := by
  rw [Session.last_run, heads_run]
  rfl

/-- The client before the second search. -/
def trust : Trust group := ⟨client, ⟨some small, none⟩, 2000⟩

def request : SearchRequest := ⟨account, none, none, ⟨some 1, none⟩⟩

def response : SearchResponse :=
  ⟨⟨⟨2, 2000, large.root, largeSignature⟩, [leaf secondEntry], [], none⟩,
    proof [secondEntry, firstEntry], none, none⟩

theorem verify_response :
    (response.verify request trust).result = .ok ⟨found, none, none, large⟩ := by
  have hverify := Session.verify_of_reports_pair reports_run
  rw [Exchange.verify, Attempt.result_recordError] at hverify
  obtain ⟨result, hresult, hreport⟩ := Attempt.result_map_eq_ok_iff.mp hverify
  cases hreport
  exact hresult

theorem root_large : large.root = Tree.root [leaf firstEntry, leaf secondEntry] :=
  (Tree.root_pair (leaf firstEntry) (leaf secondEntry)).symm

/-- The smaller of the two heads has the root of the first leaf, unless there is a collision. -/
theorem roots_take_two_searches :
    (Session.run client turns).heads = [large, small] ∧
      ((∀ head ∈ (Session.run client turns).heads, 1 ≤ head.treeSize.toNat ∧
          head.treeSize.toNat ≤ 2 ∧ head.root =
            Tree.root ([leaf firstEntry, leaf secondEntry].take head.treeSize.toNat)) ∨
        Collision ((Session.run client turns).consistencyMessages ++
          Tree.prefixMessages [leaf firstEntry, leaf secondEntry])) := by
  refine ⟨heads_run, ?_⟩
  exact Session.roots_take_or_collision client turns last_run rfl root_large

end TwoSearches

end KeyTransparency
