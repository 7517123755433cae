import KeyTransparency.Proofs.Head.Message
import KeyTransparency.Proofs.Settings

/-!
# How far a log's name is signed

Settings may give a log a name of up to 65535 characters, while a name is signed up to 65535 bytes.
So there are logs with different names for which the same bytes are signed, and the main statement
says which they are: those with the same keys whose names differ only behind the last byte signed.
-/

namespace KeyTransparency

theorem utf8_ofList (chars : List Char) :
    utf8 (String.ofList chars) = chars.flatMap String.utf8EncodeChar := by
  simp [utf8, List.utf8Encode]

/-- Two logs with different names are signed alike exactly if they have the same keys and names that
agree as far as they are signed, and then one of the names is cut off. -/
theorem treeHeadMessage_eq_iff_cut {G : PointGroup} {config config' : Config G}
    (hne : config.logId ≠ config'.logId) (signer : Signer) (size : UInt64) (timestamp : Int64)
    (root : Hash) :
    treeHeadMessage config signer size timestamp root =
        treeHeadMessage config' signer size timestamp root ↔
      config.SignedAlike config' ∧
        (maxSignedName < (utf8 config.logId).length ∨
          maxSignedName < (utf8 config'.logId).length) := by
  constructor
  · intro h
    have halike := (treeHeadMessage_eq_iff.mp h).1
    refine ⟨halike, ?_⟩
    by_contra hshort
    obtain ⟨hname, hname'⟩ := not_or.mp hshort
    have hutf8 : utf8 config.logId = utf8 config'.logId := by
      rw [← keptName_of_length_le (Nat.le_of_not_lt hname), halike.name,
        keptName_of_length_le (Nat.le_of_not_lt hname')]
    exact hne (utf8_inj hutf8)
  · rintro ⟨halike, -⟩
    exact treeHeadMessage_eq_iff.mpr ⟨halike, rfl, rfl, rfl, rfl⟩

namespace LongNames

open Edwards25519 (group)

/-- A name that ends in a given character, before which another one stands again and again. -/
def name (count : Nat) (last : Char) : String :=
  String.ofList (List.replicate count 'é' ++ [last])

/-- The bytes of all characters but the last. -/
def stem (count : Nat) : Bytes := (List.replicate count 'é').flatMap String.utf8EncodeChar

theorem length_name (count : Nat) (last : Char) : (name count last).length = count + 1 := by
  simp [name]

theorem last_eq_of_name_eq {count : Nat} {last last' : Char}
    (h : name count last = name count last') : last = last' := by
  have hchars := congrArg String.toList h
  simpa [name] using hchars

theorem utf8_name (count : Nat) (last : Char) :
    utf8 (name count last) = stem count ++ String.utf8EncodeChar last := by
  rw [name, utf8_ofList, List.flatMap_append, List.flatMap_singleton, stem]

theorem length_stem (count : Nat) : (stem count).length = 2 * count := by
  have htwo : 'é'.utf8Size = 2 := by decide
  simp [stem, List.length_flatMap, htwo, Nat.mul_comm]

/-- Of a last character that is written with two bytes, only the first may be signed. -/
theorem keptName_name {count : Nat} (hfull : 2 * count + 1 = maxSignedName) {last : Char}
    {first second : UInt8} (hlast : String.utf8EncodeChar last = [first, second]) :
    keptName (name count last) = stem count ++ [first] := by
  have hstem : (stem count).length ≤ maxSignedName := by
    rw [length_stem]
    omega
  have hone : maxSignedName - (stem count).length = 1 := by
    rw [length_stem]
    omega
  rw [keptName, utf8_name, hlast, List.take_append, List.take_of_length_le hstem, hone]
  rfl

def keyBytes : Octets 32 := group.encode group.base

def keyText : String := String.ofList (Text.Base64.encode keyBytes.bytes)

theorem writesKey : Settings.WritesKey keyText keyBytes := by
  constructor <;> decide +kernel

/-- The text of settings that give a name and one key twice. -/
def text (name : String) : String := (Settings.plainJson name keyText keyText).compact

/-- Names are configured with the same keys, as long as they have no more than 65535 characters. -/
theorem exists_gives_text : ∃ (serviceKey : Signature.PublicKey group)
    (vrfKey : Vrf.PublicKey group), ∀ name : String, 1 ≤ name.length → name.length ≤ 65535 →
      Settings.Gives (text name) ⟨name, serviceKey, vrfKey, none, .ofSeconds .standard⟩ := by
  have hservice : (Signature.PublicKey.ofBytes? (G := group) keyBytes).isSome := by decide +kernel
  have hvrf : (Vrf.PublicKey.ofBytes (G := group) keyBytes).isOk := by decide +kernel
  obtain ⟨serviceKey, hservice⟩ := Option.isSome_iff_exists.mp hservice
  cases hkey : Vrf.PublicKey.ofBytes (G := group) keyBytes with
  | error error =>
    rw [hkey] at hvrf
    cases hvrf
  | ok vrfKey =>
    refine ⟨serviceKey, vrfKey, ?_⟩
    intro name hleast hgreatest
    exact Settings.gives_plainJson hleast hgreatest writesKey writesKey hservice hkey

/-- Two accepted logs of which the names differ and nothing else, and the signed names do not. -/
theorem exists_signedAlike : ∃ config config' : Config group,
    Settings.Gives (text (name 32767 'é')) config ∧
      Settings.Gives (text (name 32767 'è')) config' ∧
      config.logId = name 32767 'é' ∧ config'.logId = name 32767 'è' ∧
      config.SignedAlike config' := by
  obtain ⟨serviceKey, vrfKey, hgives⟩ := exists_gives_text
  have hlength : ∀ last, 1 ≤ (name 32767 last).length ∧ (name 32767 last).length ≤ 65535 := by
    intro last
    rw [length_name]
    decide
  have hkept : keptName (name 32767 'é') = keptName (name 32767 'è') := by
    rw [keptName_name rfl (show String.utf8EncodeChar 'é' = [0xc3, 0xa9] from rfl),
      keptName_name rfl (show String.utf8EncodeChar 'è' = [0xc3, 0xa8] from rfl)]
  obtain ⟨hleast, hgreatest⟩ := hlength 'é'
  obtain ⟨hleast', hgreatest'⟩ := hlength 'è'
  exact ⟨_, _, hgives _ hleast hgreatest, hgives _ hleast' hgreatest', rfl, rfl, hkept, rfl, rfl,
    rfl⟩

theorem name_ne : name 32767 'é' ≠ name 32767 'è' := by
  intro h
  exact absurd (last_eq_of_name_eq h) (by decide)

/-- Both logs sign the same bytes for every head. -/
theorem treeHeadMessage_long_names : ∃ config config' : Config group,
    config.logId = name 32767 'é' ∧ config'.logId = name 32767 'è' ∧
      config.logId ≠ config'.logId ∧
      ∀ signer size timestamp root,
        treeHeadMessage config signer size timestamp root =
          treeHeadMessage config' signer size timestamp root := by
  obtain ⟨config, config', -, -, hname, hname', halike⟩ := exists_signedAlike
  have hne : config.logId ≠ config'.logId := by
    rw [hname, hname']
    exact name_ne
  have hcut : maxSignedName < (utf8 config.logId).length := by
    have htwo : (String.utf8EncodeChar 'é').length = 2 := rfl
    rw [hname, utf8_name, List.length_append, length_stem, htwo]
    decide
  refine ⟨config, config', hname, hname', hne, ?_⟩
  intro signer size timestamp root
  exact (treeHeadMessage_eq_iff_cut hne signer size timestamp root).mpr ⟨halike, .inl hcut⟩

/-- That settings give a log its name does not bind signatures to that name. -/
theorem not_forall_name_signed : ¬∀ (text text' : String) (config config' : Config group),
    Settings.Gives text config → Settings.Gives text' config' → config.logId ≠ config'.logId →
      ∀ signer size timestamp root,
        treeHeadMessage config signer size timestamp root ≠
          treeHeadMessage config' signer size timestamp root := by
  intro hbound
  obtain ⟨config, config', hgives, hgives', hname, hname', halike⟩ := exists_signedAlike
  have hne : config.logId ≠ config'.logId := by
    rw [hname, hname']
    exact name_ne
  have hsame : treeHeadMessage config .service 1 0 TwoNames.root =
      treeHeadMessage config' .service 1 0 TwoNames.root :=
    treeHeadMessage_eq_iff.mpr ⟨halike, rfl, rfl, rfl, rfl⟩
  exact hbound _ _ config config' hgives hgives' hne .service 1 0 TwoNames.root hsame

end LongNames

end KeyTransparency
