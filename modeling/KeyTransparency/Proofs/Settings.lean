import KeyTransparency.Json.Printer
import KeyTransparency.Json.Reader
import KeyTransparency.Proofs.Json.Token
import KeyTransparency.Settings.Schema

/-!
# Settings that are accepted

Settings with nothing but what must be there, a name and two keys, are read from their text whatever
the name is, as long as it has one to 65535 characters.
-/

namespace KeyTransparency.Settings

/-- The value that gives a name and two keys. -/
def plainJson (name serviceText vrfText : String) : Json :=
  .record [("log_id", .text name), ("service_public_key", .text serviceText),
    ("vrf_public_key", .text vrfText)]

/-- The tokens of the value that gives a name and two keys. -/
def plainTokens (name serviceText vrfText : String) : List Json.Token :=
  [.openObject, .string (some "log_id"), .colon, .string (some name), .comma,
    .string (some "service_public_key"), .colon, .string (some serviceText), .comma,
    .string (some "vrf_public_key"), .colon, .string (some vrfText), .closeObject]

theorem tokens?_compact_plainJson (name serviceText vrfText : String) :
    Json.tokens? (plainJson name serviceText vrfText).compact =
      some (plainTokens name serviceText vrfText) := by
  have hpieces : ((plainJson name serviceText vrfText).pieces 0).filterMap Json.Piece.token? =
      plainTokens name serviceText vrfText := rfl
  have hclosed : ∀ token ∈ plainTokens name serviceText vrfText, token.isClosed := by
    simp [plainTokens, Json.Token.isClosed]
  rw [Json.compact, hpieces, Json.tokens?, String.toList_ofList,
    Json.tokensFrom_flatMap_chars _ hclosed]
  rfl

theorem readPlain?_compact_plainJson (name serviceText vrfText : String) :
    Json.readPlain? (plainJson name serviceText vrfText).compact =
      some (plainJson name serviceText vrfText) := by
  rw [Json.readPlain?, tokens?_compact_plainJson]
  rfl

/-- A text that looks like a key and writes one. -/
structure WritesKey (text : String) (key : Octets 32) : Prop where
  looksLikeKey : looksLikeKey text
  ofJson?_eq : Wire.ofJson? (.text text) = some key

theorem matchesSchema_plainJson {name serviceText vrfText : String} (hleast : 1 ≤ name.length)
    (hgreatest : name.length ≤ 65535) (hservice : looksLikeKey serviceText)
    (hvrf : looksLikeKey vrfText) : matchesSchema (plainJson name serviceText vrfText) := by
  simp [matchesSchema, plainJson, Json.record, rules, List.lookup_cons, Rule.admits, Json.text,
    hservice, hvrf, hleast, hgreatest, requiredNames]

theorem ofJson?_plainJson {name serviceText vrfText : String} {service vrf : Octets 32}
    (hservice : Wire.ofJson? (.text serviceText) = some service)
    (hvrf : Wire.ofJson? (.text vrfText) = some vrf) :
    ofJson? (plainJson name serviceText vrfText) =
      some ⟨none, name, service, vrf, none, .standard⟩ := by
  have hread : ofJson? (plainJson name serviceText vrfText) =
      (Wire.ofJson? (.text serviceText)).bind fun servicePublicKey =>
        (Wire.ofJson? (.text vrfText)).bind fun vrfPublicKey =>
          some ⟨none, name, servicePublicKey, vrfPublicKey, none, .standard⟩ := rfl
  rw [hread, hservice, hvrf]
  rfl

theorem ofText_plainJson {name serviceText vrfText : String} {service vrf : Octets 32}
    (hleast : 1 ≤ name.length) (hgreatest : name.length ≤ 65535)
    (hservice : WritesKey serviceText service) (hvrf : WritesKey vrfText vrf) :
    ofText (plainJson name serviceText vrfText).compact =
      .ok ⟨none, name, service, vrf, none, .standard⟩ := by
  have hschema := matchesSchema_plainJson hleast hgreatest hservice.looksLikeKey hvrf.looksLikeKey
  have hfields := @ofJson?_plainJson name _ _ _ _ hservice.ofJson?_eq hvrf.ofJson?_eq
  simp only [ofText, readPlain?_compact_plainJson, hschema, hfields]
  rfl

theorem toConfig_eq_ok {G : PointGroup} {settings : Settings} {serviceKey : Signature.PublicKey G}
    {vrfKey : Vrf.PublicKey G}
    (hservice : Signature.PublicKey.ofBytes? settings.servicePublicKey = some serviceKey)
    (hvrf : Vrf.PublicKey.ofBytes settings.vrfPublicKey = .ok vrfKey)
    (hauditor : settings.auditorPublicKey = none) :
    settings.toConfig G =
      .ok ⟨settings.logId, serviceKey, vrfKey, none, .ofSeconds settings.limits⟩ := by
  rw [toConfig, hservice, hvrf, hauditor]
  rfl

/-- What is configured by the text of a settings file. -/
def Gives {G : PointGroup} (text : String) (config : Config G) : Prop :=
  ∃ settings, ofText text = .ok settings ∧ settings.toConfig G = .ok config

/-- A name of any characters becomes the name of the configured log. -/
theorem gives_plainJson {G : PointGroup} {name serviceText vrfText : String}
    {service vrf : Octets 32} {serviceKey : Signature.PublicKey G} {vrfKey : Vrf.PublicKey G}
    (hleast : 1 ≤ name.length) (hgreatest : name.length ≤ 65535)
    (hserviceText : WritesKey serviceText service) (hvrfText : WritesKey vrfText vrf)
    (hservice : Signature.PublicKey.ofBytes? service = some serviceKey)
    (hvrf : Vrf.PublicKey.ofBytes vrf = .ok vrfKey) :
    Gives (plainJson name serviceText vrfText).compact
      ⟨name, serviceKey, vrfKey, none, .ofSeconds .standard⟩ :=
  ⟨_, ofText_plainJson hleast hgreatest hserviceText hvrfText, toConfig_eq_ok hservice hvrf rfl⟩

end KeyTransparency.Settings
