import KeyTransparency.Head.Consistency
import KeyTransparency.Proofs.Head.Freshness
import KeyTransparency.Proofs.Tree.Inclusion

/-!
# What an accepted head shows

A head that is accepted follows both heads that the client remembers.  The checks behind this are
spread over two places: the order of sizes and times is checked before the signature, the roots
afterwards.  `Follows` brings them together, for one remembered head.  What a root commits to is
passed on from each head to those that follow it.
-/

namespace KeyTransparency

open KeyTransparency.Tree (Contains)

variable {G : PointGroup}

namespace VerifiedTreeHead

/-- A head does not fall behind an earlier one, and repeats it where the size is the same. -/
structure After (head earlier : VerifiedTreeHead) : Prop where
  size_le : earlier.treeSize ≤ head.treeSize
  timestamp_le : earlier.timestamp ≤ head.timestamp
  eq_of_size_eq : earlier.treeSize = head.treeSize → earlier = head

/-- A head comes after an earlier one, and is proven to extend it where the size is not the same.
Nothing is proven about an earlier head of size zero. -/
structure Follows (head earlier : VerifiedTreeHead) (proof : List Hash) : Prop
    extends head.After earlier where
  extends_of_size_ne : earlier.treeSize ≠ 0 → earlier.treeSize ≠ head.treeSize →
    Tree.checkTree proof head.treeSize.toNat head.root earlier.treeSize.toNat earlier.root = .ok ()

theorem After.refl (head : VerifiedTreeHead) : head.After head :=
  ⟨UInt64.le_refl _, Int64.le_refl _, fun _ => rfl⟩

/-- The order of heads is transitive: between two heads of one size there is only this size. -/
theorem After.trans {head middle earlier : VerifiedTreeHead} (h : head.After middle)
    (h' : middle.After earlier) : head.After earlier := by
  refine ⟨UInt64.le_trans h'.size_le h.size_le, Int64.le_trans h'.timestamp_le h.timestamp_le, ?_⟩
  intro hsize
  have hmiddle : earlier.treeSize = middle.treeSize :=
    UInt64.le_antisymm h'.size_le (hsize ▸ h.size_le)
  rw [h'.eq_of_size_eq hmiddle, h.eq_of_size_eq (hmiddle.symm.trans hsize)]

end VerifiedTreeHead

/-! ## The checks one by one -/

namespace TreeHead

theorem checkAfter_some_eq_ok_iff {head : TreeHead} {baseline : Baseline}
    {seen : VerifiedTreeHead} :
    head.checkAfter baseline (some seen) = .ok () ↔
      seen.treeSize ≤ head.treeSize ∧ seen.timestamp ≤ head.timestamp ∧
        (head.treeSize = seen.treeSize → head.timestamp = seen.timestamp) := by
  rw [checkAfter, refuse_eq_ok_iff, refuse_eq_ok_iff, refuse_last_eq_ok_iff, UInt64.not_lt,
    Int64.not_lt]
  simp

theorem checkFresh_eq_ok_iff {head : TreeHead} {signer : Signer} {now : Int64}
    {maxAge maxSkew : Duration} :
    head.checkFresh signer now maxAge maxSkew = .ok () ↔
      InWindow head.timestamp now maxAge maxSkew :=
  (require_eq_ok_iff.trans (and_iff_left rfl)).trans isFresh_iff

theorem checkSignature_eq_ok_iff {head : TreeHead} {config : Config G}
    {key : Signature.PublicKey G} {signer : Signer} {root : Hash} :
    head.checkSignature config key signer root = .ok () ↔
      key.verify (treeHeadMessage config signer head.treeSize head.timestamp root)
        head.signature = true :=
  require_eq_ok_iff.trans (and_iff_left rfl)

end TreeHead

namespace VerifiedTreeHead

theorem checkExtends_eq_ok_iff {head earlier : VerifiedTreeHead} {baseline : Baseline}
    {proof : List Hash} :
    head.checkExtends earlier baseline proof = .ok () ↔
      Tree.checkTree proof head.treeSize.toNat head.root earlier.treeSize.toNat earlier.root =
        .ok () := by
  rw [checkExtends, mapError_eq_ok_iff]

/-- What the check against a remembered head wants: no proof where there is nothing to prove, and
otherwise one that leads to both roots. -/
theorem checkBaseline_some_eq_ok_iff {head seen : VerifiedTreeHead} {baseline : Baseline}
    {proof : List Hash} :
    head.checkBaseline baseline proof (some seen) = .ok () ↔
      seen.treeSize ≤ head.treeSize ∧
        if seen.treeSize = head.treeSize ∨ seen.treeSize = 0 then
          proof = [] ∧ (seen.treeSize = head.treeSize → seen.root = head.root)
        else
          Tree.checkTree proof head.treeSize.toNat head.root seen.treeSize.toNat seen.root =
            .ok () := by
  rw [checkBaseline, refuse_eq_ok_iff, UInt64.not_lt]
  by_cases hskip : seen.treeSize = head.treeSize ∨ seen.treeSize = 0
  · rw [if_pos hskip, if_pos hskip, refuse_eq_ok_iff, refuse_last_eq_ok_iff]
    simp
  · rw [if_neg hskip, if_neg hskip, checkExtends_eq_ok_iff]

theorem follows_of_checks {head : TreeHead} {seen : VerifiedTreeHead} {baseline : Baseline}
    {proof : List Hash} (hafter : head.checkAfter baseline (some seen) = .ok ())
    (hbaseline : head.verified.checkBaseline baseline proof (some seen) = .ok ()) :
    head.verified.Follows seen proof := by
  obtain ⟨hsize, htime, hsame⟩ := TreeHead.checkAfter_some_eq_ok_iff.mp hafter
  obtain ⟨-, hproof⟩ := checkBaseline_some_eq_ok_iff.mp hbaseline
  refine ⟨⟨hsize, htime, ?_⟩, ?_⟩
  · intro heq
    rw [if_pos (.inl heq)] at hproof
    have htimes := hsame heq.symm
    have hroots := hproof.2 heq
    cases seen
    simp_all [TreeHead.verified]
  · intro hpos hne
    rwa [if_neg (by simp [hpos, hne])] at hproof

end VerifiedTreeHead

/-! ## What is passed on -/

namespace VerifiedTreeHead

/-- The byte strings that are hashed when a head is proven to extend an earlier one.  No proof is
evaluated where the sizes are the same or the earlier tree is empty. -/
def extensionMessages (head earlier : VerifiedTreeHead) (proof : List Hash) : List Bytes :=
  if earlier.treeSize = head.treeSize ∨ earlier.treeSize = 0 then []
  else Tree.checkTreeMessages proof head.treeSize.toNat earlier.treeSize.toNat earlier.root

variable {head earlier : VerifiedTreeHead} {proof : List Hash} {hashed : List Bytes}

theorem extensionMessages_of_size_ne (hpos : earlier.treeSize ≠ 0)
    (hne : earlier.treeSize ≠ head.treeSize) :
    head.extensionMessages earlier proof =
      Tree.checkTreeMessages proof head.treeSize.toNat earlier.treeSize.toNat earlier.root :=
  if_neg (by simp [hpos, hne])

/-- If the root of a head is that of some leaves, the root of a head that it follows is that of the
first of them. -/
theorem Follows.root_take (hsafe : ¬Collision hashed) (h : head.Follows earlier proof)
    (hpos : earlier.treeSize ≠ 0) {leaves : List Hash}
    (hlength : head.treeSize.toNat = leaves.length) (hroot : head.root = Tree.root leaves)
    (hproof : head.extensionMessages earlier proof ⊆ hashed)
    (hleaves : (Tree.ofLeaves leaves).messages ⊆ hashed) :
    earlier.treeSize.toNat ≤ leaves.length ∧
      earlier.root = Tree.root (leaves.take earlier.treeSize.toNat) := by
  by_cases hsize : earlier.treeSize = head.treeSize
  · rw [h.eq_of_size_eq hsize, hlength, List.take_length]
    exact ⟨Nat.le_refl _, hroot⟩
  · have hextends := h.extends_of_size_ne hpos hsize
    rw [extensionMessages_of_size_ne hpos hsize, hlength] at hproof
    rw [hlength, hroot] at hextends
    exact (Tree.root_take_of_checkTree hsafe hextends hproof hleaves).2

/-- What the root of an earlier head commits to, the root of a head that follows it commits to. -/
theorem Follows.contains (hsafe : ¬Collision hashed) (h : head.Follows earlier proof)
    (hpos : earlier.treeSize ≠ 0) (hproof : head.extensionMessages earlier proof ⊆ hashed)
    {position : Nat} {leaf : Hash}
    (hearlier : Contains hashed earlier.treeSize.toNat earlier.root position leaf) :
    Contains hashed head.treeSize.toNat head.root position leaf := by
  by_cases hsize : earlier.treeSize = head.treeSize
  · rw [← h.eq_of_size_eq hsize]
    exact hearlier
  · obtain ⟨-, -, before, after, hextends, hbefore, hafter, hmessages⟩ :=
      Tree.extends_of_checkTree (h.extends_of_size_ne hpos hsize)
    rw [extensionMessages_of_size_ne hpos hsize, hmessages] at hproof
    rw [← hbefore] at hearlier
    rw [← hafter]
    obtain ⟨hold, hnew⟩ := List.append_subset.mp hproof
    exact hextends.contains hsafe hold hnew hearlier

end VerifiedTreeHead

/-! ## A whole head -/

namespace FullTreeHead

theorem authenticate_eq_ok_iff {full : FullTreeHead} {requested : ConsistencyParameters}
    {trust : Trust G} {heads : AuthenticatedHead} :
    (full.authenticate requested trust).result = .ok heads ↔
      requested = trust.lastSeen.consistencyParameters ∧
        full.treeHead.checkMonotonic trust.lastSeen = .ok () ∧
        full.treeHead.checkFresh .service trust.now trust.config.limits.maxTreeHeadAge
          trust.config.limits.maxClockSkew = .ok () ∧
        full.treeHead.checkSignature trust.config trust.config.serviceKey .service
          full.treeHead.root = .ok () ∧
        (full.authenticateAuditor trust).result = .ok heads.auditor ∧
        heads.head = full.treeHead.verified := by
  unfold authenticate
  rw [Attempt.refuse_result_eq_ok_iff, not_not]
  simp only [Attempt.result_bind, Attempt.liftM_result, Attempt.result_record,
    Attempt.result_pure]
  constructor
  · rintro ⟨hrequested, h⟩
    obtain ⟨_, hmonotonic, h⟩ := bind_eq_ok_iff.mp h
    obtain ⟨_, hfresh, h⟩ := bind_eq_ok_iff.mp h
    obtain ⟨_, hsigned, h⟩ := bind_eq_ok_iff.mp h
    obtain ⟨_, -, h⟩ := bind_eq_ok_iff.mp h
    obtain ⟨auditor, hauditor, h⟩ := bind_eq_ok_iff.mp h
    cases h
    exact ⟨hrequested, hmonotonic, hfresh, hsigned, hauditor, rfl⟩
  · rintro ⟨hrequested, hmonotonic, hfresh, hsigned, hauditor, hhead⟩
    refine ⟨hrequested, bind_eq_ok_iff.mpr ⟨(), hmonotonic, bind_eq_ok_iff.mpr ⟨(), hfresh, ?_⟩⟩⟩
    refine bind_eq_ok_iff.mpr ⟨(), hsigned, bind_eq_ok_iff.mpr ⟨(), rfl, ?_⟩⟩
    refine bind_eq_ok_iff.mpr ⟨heads.auditor, hauditor, ?_⟩
    rw [← hhead]

/-- A head is accepted exactly if it is authentic and passes the check against each remembered head
and the check against the auditor's. -/
theorem verify_eq_ok_iff {full : FullTreeHead} {requested : ConsistencyParameters}
    {trust : Trust G} {head : VerifiedTreeHead} :
    (full.verify requested trust).result = .ok head ↔
      ∃ auditor, (full.authenticate requested trust).result = .ok ⟨head, auditor⟩ ∧
        head.checkBaseline .last full.consistencyToLast trust.lastSeen.last = .ok () ∧
        head.checkBaseline .distinguished full.consistencyToDistinguished
          trust.lastSeen.distinguished = .ok () ∧
        ((⟨head, auditor⟩ : AuthenticatedHead).checkAuditor full
          trust.config.limits.maxAuditorLag).result = .ok () := by
  unfold verify AuthenticatedHead.checkConsistency
  simp only [Attempt.result_bind, Attempt.liftM_result, Attempt.result_pure]
  constructor
  · intro h
    obtain ⟨⟨_, auditor⟩, hauthentic, h⟩ := bind_eq_ok_iff.mp h
    obtain ⟨_, hlast, h⟩ := bind_eq_ok_iff.mp h
    obtain ⟨_, hdistinguished, h⟩ := bind_eq_ok_iff.mp h
    obtain ⟨_, hauditor, h⟩ := bind_eq_ok_iff.mp h
    cases h
    exact ⟨auditor, hauthentic, hlast, hdistinguished, hauditor⟩
  · rintro ⟨auditor, hauthentic, hlast, hdistinguished, hauditor⟩
    refine bind_eq_ok_iff.mpr ⟨_, hauthentic, bind_eq_ok_iff.mpr ⟨(), hlast, ?_⟩⟩
    refine bind_eq_ok_iff.mpr ⟨(), hdistinguished, ?_⟩
    exact bind_eq_ok_iff.mpr ⟨(), hauditor, rfl⟩

/-- A head that is accepted is the one that was sent, and it follows both remembered heads. -/
theorem follows_of_verify {full : FullTreeHead} {requested : ConsistencyParameters}
    {trust : Trust G} {head : VerifiedTreeHead}
    (h : (full.verify requested trust).result = .ok head) :
    head = full.treeHead.verified ∧
      (∀ seen, trust.lastSeen.last = some seen → head.Follows seen full.consistencyToLast) ∧
      ∀ seen, trust.lastSeen.distinguished = some seen →
        head.Follows seen full.consistencyToDistinguished := by
  obtain ⟨auditor, hauthentic, hbaseLast, hbaseDistinguished, -⟩ := verify_eq_ok_iff.mp h
  obtain ⟨-, hmonotonic, -, -, -, hhead⟩ := authenticate_eq_ok_iff.mp hauthentic
  obtain ⟨_, hlast, hdistinguished⟩ := bind_eq_ok_iff.mp hmonotonic
  obtain rfl : head = full.treeHead.verified := hhead
  refine ⟨rfl, ?_, ?_⟩
  · intro seen hseen
    rw [hseen] at hlast hbaseLast
    exact VerifiedTreeHead.follows_of_checks hlast hbaseLast
  · intro seen hseen
    rw [hseen] at hdistinguished hbaseDistinguished
    exact VerifiedTreeHead.follows_of_checks hdistinguished hbaseDistinguished

end FullTreeHead

end KeyTransparency
