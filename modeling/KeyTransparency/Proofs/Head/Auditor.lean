import KeyTransparency.Curve.Edwards25519
import KeyTransparency.Proofs.Head

/-!
# What an auditor's head shows

Where the log has an auditor, a head is accepted only beside a head that the auditor signed.  Which
root the auditor signed is read from different places, depending on how far the auditor is behind,
and only a later check finds out whether it was the right place.  `Agrees` is what the checks amount
to: the auditor is behind and the log is proven to extend the auditor's tree, or both trees are the
same.
-/

namespace KeyTransparency

variable {G : PointGroup}

/-- What is known of an auditor's head beside which a head is accepted. -/
structure AuditorTreeHead.Agrees (auditor : AuditorTreeHead) (key : Signature.PublicKey G)
    (trust : Trust G) (head : VerifiedTreeHead) : Prop where
  size_le : auditor.treeHead.treeSize ≤ head.treeSize
  lag_le : head.treeSize.toNat - auditor.treeHead.treeSize.toNat ≤
    trust.config.limits.maxAuditorLag.toNat
  inWindow : InWindow auditor.treeHead.timestamp trust.now
    trust.config.limits.maxAuditorTreeHeadAge trust.config.limits.maxClockSkew
  signed : key.verify (treeHeadMessage trust.config .auditor auditor.treeHead.treeSize
    auditor.treeHead.timestamp auditor.treeHead.root) auditor.treeHead.signature = true
  caught_up : auditor.treeHead.treeSize = head.treeSize →
    auditor.treeHead.root = head.root ∧ auditor.rootValue = none ∧ auditor.consistency = []
  behind : auditor.treeHead.treeSize < head.treeSize →
    1 ≤ auditor.treeHead.treeSize ∧ auditor.rootValue = some auditor.treeHead.root ∧
      Tree.checkTree auditor.consistency head.treeSize.toNat head.root
        auditor.treeHead.treeSize.toNat auditor.treeHead.root = .ok ()

/-! ## The checks one by one -/

namespace AuditorTreeHead

variable {auditor : AuditorTreeHead}

/-- The root that was signed is the one that is given, or the service's if none is. -/
theorem signedRoot_eq_ok_iff {service : TreeHead} {root : Hash} :
    auditor.signedRoot service = .ok root ↔
      auditor.rootValue = some root ∨
        auditor.rootValue = none ∧ service.treeSize ≤ auditor.treeHead.treeSize ∧
          service.root = root := by
  unfold signedRoot
  split
  · rename_i given hgiven
    rw [hgiven]
    simp
  · rename_i hnone
    rw [hnone]
    split
    · rename_i hbehind
      simp [UInt64.not_le.mpr hbehind]
    · rename_i hcaught
      simp [UInt64.not_lt.mp hcaught]

theorem eq_ok_of_authenticate {key : Signature.PublicKey G} {service : TreeHead} {trust : Trust G}
    {verified : VerifiedTreeHead}
    (h : (auditor.authenticate key service trust).result = .ok verified) :
    verified = auditor.treeHead.verified ∧
      auditor.signedRoot service = .ok auditor.treeHead.root ∧
      auditor.treeHead.checkFresh .auditor trust.now trust.config.limits.maxAuditorTreeHeadAge
        trust.config.limits.maxClockSkew = .ok () ∧
      auditor.treeHead.checkSignature trust.config key .auditor auditor.treeHead.root = .ok () := by
  unfold authenticate at h
  simp only [Attempt.result_bind, Attempt.liftM_result] at h
  obtain ⟨root, hroot, h⟩ := bind_eq_ok_iff.mp h
  obtain ⟨_, hfresh, h⟩ := bind_eq_ok_iff.mp h
  obtain ⟨_, hsigned, h⟩ := bind_eq_ok_iff.mp h
  obtain ⟨hsame, h⟩ := Attempt.refuse_result_eq_ok_iff.mp h
  obtain rfl := not_not.mp hsame
  cases h
  exact ⟨rfl, hroot, hfresh, hsigned⟩

end AuditorTreeHead

namespace VerifiedTreeHead

/-- A proof is checked if the auditor is behind, and neither a proof nor a root may come along if it
is not. -/
theorem checkAuditor_eq_ok_iff {head auditor : VerifiedTreeHead} {shown : AuditorTreeHead}
    {maxLag : UInt64} :
    head.checkAuditor auditor shown maxLag = .ok () ↔
      auditor.treeSize ≤ head.treeSize ∧
        head.treeSize.toNat - auditor.treeSize.toNat ≤ maxLag.toNat ∧
        (auditor.treeSize = head.treeSize → shown.rootValue = none ∧ shown.consistency = []) ∧
        (auditor.treeSize < head.treeSize →
          Tree.checkTree shown.consistency head.treeSize.toNat head.root
            auditor.treeSize.toNat auditor.root = .ok ()) := by
  unfold checkAuditor
  simp only
  rw [refuse_eq_ok_iff, refuse_eq_ok_iff, UInt64.not_lt, UInt64.not_lt]
  apply and_congr_right
  intro hsize
  have hlag := UInt64.toNat_sub_of_le _ _ hsize
  rw [UInt64.le_iff_toNat_le, hlag]
  apply and_congr_right
  intro _
  by_cases hsame : auditor.treeSize = head.treeSize
  · have hzero : head.treeSize - auditor.treeSize = 0 := by
      rw [hsame]
      exact UInt64.sub_self _
    have hnot : ¬auditor.treeSize < head.treeSize := by
      rw [hsame]
      exact UInt64.lt_irrefl _
    rw [if_pos hzero, refuse_last_eq_ok_iff]
    simp [hsame, not_or]
  · have hbehind := UInt64.lt_of_le_of_ne hsize hsame
    have hpos : ¬head.treeSize - auditor.treeSize = 0 := by
      intro hzero
      rw [hzero] at hlag
      have hlt := UInt64.lt_iff_toNat_lt.mp hbehind
      simp at hlag
      omega
    rw [if_neg hpos, checkExtends_eq_ok_iff]
    simp [hsame, hbehind]

end VerifiedTreeHead

/-- If the root of a head is that of some leaves, the auditor's root is that of the first of
them. -/
theorem AuditorTreeHead.Agrees.root_take {auditor : AuditorTreeHead} {key : Signature.PublicKey G}
    {trust : Trust G} {head : VerifiedTreeHead} {hashed : List Bytes} (hsafe : ¬Collision hashed)
    (h : auditor.Agrees key trust head) {leaves : List Hash}
    (hlength : leaves.length = head.treeSize.toNat) (hroot : head.root = Tree.root leaves)
    (hproof : head.extensionMessages auditor.treeHead.verified auditor.consistency ⊆ hashed)
    (hleaves : (Tree.ofLeaves leaves).messages ⊆ hashed) :
    auditor.treeHead.root = Tree.root (leaves.take auditor.treeHead.treeSize.toNat) := by
  by_cases hsame : auditor.treeHead.treeSize = head.treeSize
  · rw [(h.caught_up hsame).1, hroot, hsame, ← hlength, List.take_length]
  · obtain ⟨hpos, -, hextends⟩ := h.behind (UInt64.lt_of_le_of_ne h.size_le hsame)
    have hne : auditor.treeHead.treeSize ≠ 0 := by
      intro hzero
      rw [hzero] at hpos
      exact absurd hpos (by decide)
    rw [VerifiedTreeHead.extensionMessages_of_size_ne hne hsame, ← hlength] at hproof
    rw [← hlength, hroot] at hextends
    exact (Tree.root_take_of_checkTree hsafe hextends hproof hleaves).2.2

/-! ## The whole check -/

namespace FullTreeHead

variable {full : FullTreeHead} {requested : ConsistencyParameters} {trust : Trust G}
  {head : VerifiedTreeHead}

/-- Where the log has an auditor, an accepted head comes with an auditor's head that agrees with
it. -/
theorem agrees_of_verify {key : Signature.PublicKey G} (hkey : trust.config.auditorKey = some key)
    (h : (full.verify requested trust).result = .ok head) :
    head = full.treeHead.verified ∧
      ∃ auditor, full.auditorTreeHead = some auditor ∧ auditor.Agrees key trust head := by
  obtain ⟨verified, hauthentic, -, -, hconsistent⟩ := verify_eq_ok_iff.mp h
  obtain ⟨-, -, -, -, hauditor, hhead⟩ := authenticate_eq_ok_iff.mp hauthentic
  obtain rfl : head = full.treeHead.verified := hhead
  unfold authenticateAuditor at hauditor
  unfold AuthenticatedHead.checkAuditor at hconsistent
  rw [hkey] at hauditor
  cases hfull : full.auditorTreeHead with
  | none =>
    rw [hfull] at hauditor
    cases hauditor
  | some auditor =>
    rw [hfull] at hauditor hconsistent
    obtain ⟨accepted, haccepted, hverified⟩ := Attempt.result_map_eq_ok_iff.mp hauditor
    obtain rfl : some accepted = verified := hverified
    obtain ⟨haccepted, hroot, hfresh, hsigned⟩ := auditor.eq_ok_of_authenticate haccepted
    rw [Attempt.result_bind, Attempt.liftM_result] at hconsistent
    obtain ⟨_, hchecked, -⟩ := bind_eq_ok_iff.mp hconsistent
    rw [haccepted] at hchecked
    obtain ⟨hsize, hlag, hcaught, hbehind⟩ :=
      VerifiedTreeHead.checkAuditor_eq_ok_iff.mp hchecked
    refine ⟨rfl, auditor, rfl, hsize, hlag, TreeHead.checkFresh_eq_ok_iff.mp hfresh,
      TreeHead.checkSignature_eq_ok_iff.mp hsigned, ?_, ?_⟩
    · -- without a root of its own, the auditor has signed the service's
      intro hsame
      obtain ⟨hnone, hproof⟩ := hcaught hsame
      rcases AuditorTreeHead.signedRoot_eq_ok_iff.mp hroot with hgiven | ⟨-, -, hservice⟩
      · rw [hnone] at hgiven
        cases hgiven
      · exact ⟨hservice.symm, hnone, hproof⟩
    · intro hless
      have hextends := hbehind hless
      obtain ⟨hpos, -⟩ := Tree.extends_of_checkTree hextends
      rcases AuditorTreeHead.signedRoot_eq_ok_iff.mp hroot with hgiven | ⟨-, hnotBehind, -⟩
      · exact ⟨UInt64.le_iff_toNat_le.mpr hpos, hgiven, hextends⟩
      · exact absurd hless (UInt64.not_lt.mpr hnotBehind)

/-- Where the log has an auditor, an accepted head comes with an auditor's head that agrees with it.
If the accepted root is the root of a list of leaves, the auditor's root is the root of the first of
them, or two different byte strings that were hashed have the same digest. -/
theorem auditor_root_take_or_collision {key : Signature.PublicKey G}
    (hkey : trust.config.auditorKey = some key)
    (h : (full.verify requested trust).result = .ok head) :
    head = full.treeHead.verified ∧
      ∃ auditor, full.auditorTreeHead = some auditor ∧ auditor.Agrees key trust head ∧
        ∀ leaves : List Hash, leaves.length = head.treeSize.toNat →
          head.root = Tree.root leaves →
          auditor.treeHead.root = Tree.root (leaves.take auditor.treeHead.treeSize.toNat) ∨
            Collision (head.extensionMessages auditor.treeHead.verified auditor.consistency ++
              (Tree.ofLeaves leaves).messages) := by
  obtain ⟨hhead, auditor, hauditor, hagrees⟩ := agrees_of_verify hkey h
  refine ⟨hhead, auditor, hauditor, hagrees, ?_⟩
  intro leaves hlength hroot
  by_cases hsafe : Collision (head.extensionMessages auditor.treeHead.verified
      auditor.consistency ++ (Tree.ofLeaves leaves).messages)
  · exact .inr hsafe
  · exact .inl (hagrees.root_take hsafe hlength hroot (List.subset_append_left _ _)
      (List.subset_append_right _ _))

end FullTreeHead

/-! ## An auditor who is one entry behind -/

namespace OneBehind

open KeyTransparency.Edwards25519 (group)

/-- The key of the log and of its auditor.  It is the base point, so the secret scalar is one. -/
def key : Signature.PublicKey group := ⟨group.encode group.base, group.base⟩

def config : Config group where
  logId := "log"
  serviceKey := key
  vrfKey := ⟨key.bytes, key.point⟩
  auditorKey := some key
  limits := .ofSeconds .standard

def trust : Trust group := ⟨config, .empty, 2000⟩

def first : Hash := ⟨⟨List.replicate 32 0x01, rfl⟩⟩

def second : Hash := ⟨⟨List.replicate 32 0x02, rfl⟩⟩

def serviceSignature : Bytes :=
  key.bytes.bytes
    ++ bigEndian 32 0x8053c473b419998935b6d120244da0e5081e934f8e789fe934c3f71ba7d13d0d

def auditorSignature : Bytes :=
  key.bytes.bytes
    ++ bigEndian 32 0x74be3bd93764808973bcc70011518c42ca0478df8ea3bcea02ab228ed8427803

def full : FullTreeHead :=
  ⟨⟨2, 2000, nodeHash first second, serviceSignature⟩, [], [],
    some ⟨⟨1, 1000, first, auditorSignature⟩, some first, [second]⟩⟩

theorem verify_full :
    (full.verify .empty trust).result = .ok ⟨2, 2000, nodeHash first second⟩ := by
  decide +kernel

/-- The auditor has signed the tree of the first leaf, unless there is a collision. -/
theorem auditor_root_one_behind :
    config.auditorKey = some key ∧
      (full.verify .empty trust).result = .ok ⟨2, 2000, nodeHash first second⟩ ∧
      ∃ auditor, full.auditorTreeHead = some auditor ∧
        auditor.Agrees key trust ⟨2, 2000, nodeHash first second⟩ ∧
        (auditor.treeHead.root =
            Tree.root ([first, second].take auditor.treeHead.treeSize.toNat) ∨
          Collision (VerifiedTreeHead.extensionMessages ⟨2, 2000, nodeHash first second⟩
            auditor.treeHead.verified auditor.consistency ++
              (Tree.ofLeaves [first, second]).messages)) := by
  have hkey : trust.config.auditorKey = some key := rfl
  obtain ⟨-, auditor, hauditor, hagrees, hroot⟩ :=
    FullTreeHead.auditor_root_take_or_collision hkey verify_full
  refine ⟨rfl, verify_full, auditor, hauditor, hagrees, ?_⟩
  exact hroot [first, second] rfl (Tree.root_pair first second).symm

end OneBehind

end KeyTransparency
