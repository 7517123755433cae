import KeyTransparency.Curve.Edwards25519
import KeyTransparency.Head.Message
import KeyTransparency.Proofs.Collision

/-!
# What is signed can be read back

What is signed for a tree head is a row of fields, two of which have no fixed length: the name of
the log stands behind its length, and the auditor's key behind a byte that says whether there is
one.  So every field can be cut off from what follows it, and two heads are signed with the same
bytes only if all their fields agree.

Names are the exception.  A name is signed only up to a greatest length, and `Config.SignedAlike`
says what two configurations have in common that no signature tells apart.
-/

namespace KeyTransparency

variable {G : PointGroup}

theorem utf8_inj {text text' : String} (h : utf8 text = utf8 text') : text = text' :=
  String.toByteArray_inj.mp (ByteArray.ext (Array.toList_inj.mp h))

/-! ## Fields of their own length -/

/-- A name as far as it is signed. -/
def keptName (logId : String) : Bytes := (utf8 logId).take maxSignedName

theorem length_keptName_le (logId : String) : (keptName logId).length ≤ maxSignedName :=
  List.length_take_le _ _

/-- A name that is not too long is signed to its end. -/
theorem keptName_of_length_le {logId : String} (h : (utf8 logId).length ≤ maxSignedName) :
    keptName logId = utf8 logId :=
  List.take_of_length_le h

/-- The length before a name says where the name ends. -/
theorem signedName_append_inj {logId logId' : String} {rest rest' : Bytes}
    (h : signedName logId ++ rest = signedName logId' ++ rest') :
    keptName logId = keptName logId' ∧ rest = rest' := by
  have hfields : bigEndian 2 (keptName logId).length ++ (keptName logId ++ rest) =
      bigEndian 2 (keptName logId').length ++ (keptName logId' ++ rest') := by
    rw [← List.append_assoc, ← List.append_assoc]
    exact h
  obtain ⟨hwritten, hname⟩ := List.append_inj hfields (by rw [length_bigEndian, length_bigEndian])
  have hfits : maxSignedName < 256 ^ 2 := by decide
  have hlength : (keptName logId).length = (keptName logId').length := by
    have hmod := mod_eq_of_bigEndian_eq hwritten
    rwa [Nat.mod_eq_of_lt (Nat.lt_of_le_of_lt (length_keptName_le logId) hfits),
      Nat.mod_eq_of_lt (Nat.lt_of_le_of_lt (length_keptName_le logId') hfits)] at hmod
  exact List.append_inj hname hlength

/-- The byte before an auditor's key says whether the key is there. -/
theorem signedAuditorKey_append_inj {key key' : Option (Signature.PublicKey G)} {rest rest' : Bytes}
    (h : signedAuditorKey key ++ rest = signedAuditorKey key' ++ rest') :
    key.map (·.bytes) = key'.map (·.bytes) ∧ rest = rest' := by
  cases key with
  | none =>
    cases key' with
    | none => exact ⟨rfl, (List.cons.inj h).2⟩
    | some key' => exact absurd (List.cons.inj h).1 (by decide)
  | some key =>
    cases key' with
    | none => exact absurd (List.cons.inj h).1 (by decide)
    | some key' =>
      obtain ⟨hbytes, hrest⟩ := List.append_inj (List.cons.inj h).2
        (by rw [key.bytes.length_bytes, key'.bytes.length_bytes])
      exact ⟨congrArg some (Octets.eq_of_bytes_eq hbytes), hrest⟩

theorem Signer.tag_inj {signer signer' : Signer} (h : signer.tag = signer'.tag) :
    signer = signer' := by
  cases signer <;> cases signer' <;> first | rfl | exact absurd h (by decide)

/-! ## All fields together -/

/-- What two configurations have in common if no signature tells them apart. -/
structure Config.SignedAlike (config config' : Config G) : Prop where
  name : keptName config.logId = keptName config'.logId
  serviceKey : config.serviceKey.bytes = config'.serviceKey.bytes
  vrfKey : config.vrfKey.bytes = config'.vrfKey.bytes
  auditorKey : config.auditorKey.map (·.bytes) = config'.auditorKey.map (·.bytes)

theorem Config.SignedAlike.signedAuditorKey_eq {config config' : Config G}
    (h : config.SignedAlike config') :
    signedAuditorKey config.auditorKey = signedAuditorKey config'.auditorKey := by
  have hkeys := h.auditorKey
  cases hkey : config.auditorKey <;> cases hkey' : config'.auditorKey <;>
    simp_all [signedAuditorKey]

/-- Two heads are signed with the same bytes exactly if everything that is signed for them
agrees. -/
theorem treeHeadMessage_eq_iff {config config' : Config G} {signer signer' : Signer}
    {size size' : UInt64} {timestamp timestamp' : Int64} {root root' : Hash} :
    treeHeadMessage config signer size timestamp root =
        treeHeadMessage config' signer' size' timestamp' root' ↔
      config.SignedAlike config' ∧ signer = signer' ∧ size = size' ∧ timestamp = timestamp' ∧
        root = root' := by
  constructor
  · intro h
    simp only [treeHeadMessage, List.append_assoc, List.singleton_append] at h
    obtain ⟨hname, h⟩ := signedName_append_inj (List.append_cancel_left h)
    obtain ⟨htag, h⟩ := List.cons.inj h
    obtain ⟨hservice, h⟩ := List.append_inj h
      (by rw [config.serviceKey.bytes.length_bytes, config'.serviceKey.bytes.length_bytes])
    obtain ⟨hvrf, h⟩ := List.append_inj h
      (by rw [config.vrfKey.bytes.length_bytes, config'.vrfKey.bytes.length_bytes])
    obtain ⟨hauditor, h⟩ := signedAuditorKey_append_inj h
    obtain ⟨hsize, h⟩ := List.append_inj h (by rw [length_bigEndian, length_bigEndian])
    obtain ⟨htime, hroot⟩ := List.append_inj h (by rw [length_bigEndian, length_bigEndian])
    have htimestamp : timestamp = timestamp' :=
      congrArg Int64.ofUInt64 (eq_of_bigEndian_eight_eq htime)
    exact ⟨⟨hname, Octets.eq_of_bytes_eq hservice, Octets.eq_of_bytes_eq hvrf, hauditor⟩,
      Signer.tag_inj htag, eq_of_bigEndian_eight_eq hsize, htimestamp, Hash.eq_of_bytes_eq hroot⟩
  · rintro ⟨halike, rfl, rfl, rfl, rfl⟩
    have hname : signedName config.logId = signedName config'.logId := by
      have hkept := halike.name
      simp only [keptName] at hkept
      simp only [signedName, hkept]
    simp only [treeHeadMessage]
    rw [hname, halike.serviceKey, halike.vrfKey, halike.signedAuditorKey_eq]

/-- Among logs whose names are signed to their end, what is signed says for which log, by which
signer and with which keys it is signed, and which head of the log it is.  A service and an auditor
never sign the same bytes. -/
theorem treeHeadMessage_eq_iff_of_short_names {config config' : Config G}
    (hname : (utf8 config.logId).length ≤ maxSignedName)
    (hname' : (utf8 config'.logId).length ≤ maxSignedName) (size size' : UInt64)
    (timestamp timestamp' : Int64) (root root' : Hash) :
    (∀ signer signer' : Signer,
      treeHeadMessage config signer size timestamp root =
          treeHeadMessage config' signer' size' timestamp' root' ↔
        config.logId = config'.logId ∧ signer = signer' ∧
          config.serviceKey.bytes = config'.serviceKey.bytes ∧
          config.vrfKey.bytes = config'.vrfKey.bytes ∧
          config.auditorKey.map (·.bytes) = config'.auditorKey.map (·.bytes) ∧
          size = size' ∧ timestamp = timestamp' ∧ root = root') ∧
      treeHeadMessage config .service size timestamp root ≠
        treeHeadMessage config' .auditor size' timestamp' root' := by
  refine ⟨?_, ?_⟩
  · intro signer signer'
    constructor
    · intro h
      obtain ⟨halike, hsigner, hhead⟩ := treeHeadMessage_eq_iff.mp h
      have hutf8 : utf8 config.logId = utf8 config'.logId := by
        rw [← keptName_of_length_le hname, halike.name, keptName_of_length_le hname']
      exact ⟨utf8_inj hutf8, hsigner, halike.serviceKey, halike.vrfKey, halike.auditorKey, hhead⟩
    · rintro ⟨hlog, hsigner, hservice, hvrf, hauditor, hhead⟩
      have halike : config.SignedAlike config' :=
        ⟨congrArg keptName hlog, hservice, hvrf, hauditor⟩
      exact treeHeadMessage_eq_iff.mpr ⟨halike, hsigner, hhead⟩
  · intro h
    obtain ⟨-, hsigner, -⟩ := treeHeadMessage_eq_iff.mp h
    cases hsigner

namespace TwoNames

open Edwards25519 (group)

def key : Signature.PublicKey group := ⟨group.encode group.base, group.base⟩

def audited : Config group where
  logId := "log"
  serviceKey := key
  vrfKey := ⟨key.bytes, key.point⟩
  auditorKey := some key
  limits := .ofSeconds .standard

/-- A log whose name ends in the byte that stands behind the other log's name when its service
signs. -/
def longer : Config group := { audited with logId := "log\x00", auditorKey := none }

def root : Hash := ⟨.replicate 32 0x01⟩

/-- The two logs sign the same head differently, and neither is taken for the other's auditor. -/
theorem signed_differently :
    (utf8 audited.logId).length ≤ maxSignedName ∧ (utf8 longer.logId).length ≤ maxSignedName ∧
      treeHeadMessage audited .service 5 (-1) root ≠
        treeHeadMessage longer .service 5 (-1) root ∧
      treeHeadMessage audited .service 5 (-1) root ≠
        treeHeadMessage longer .auditor 5 (-1) root := by
  have hname : (utf8 audited.logId).length ≤ maxSignedName := by decide +kernel
  have hname' : (utf8 longer.logId).length ≤ maxSignedName := by decide +kernel
  obtain ⟨hfields, hroles⟩ :=
    treeHeadMessage_eq_iff_of_short_names hname hname' 5 5 (-1) (-1) root root
  refine ⟨hname, hname', ?_, hroles⟩
  intro h
  have hlog := ((hfields .service .service).mp h).1
  exact absurd hlog (by decide)

end TwoNames

end KeyTransparency
