import KeyTransparency.Config
import KeyTransparency.Wire.Fields

/-!
# Settings

A client's settings name the log and give its keys as bytes and its limits in seconds.  They become
a configuration if the bytes are keys.
-/

namespace KeyTransparency

/-- The settings of a client. -/
structure Settings where
  /-- How much is recorded while a response is verified. -/
  loggingLevel : Option String
  logId : String
  servicePublicKey : Octets 32
  vrfPublicKey : Octets 32
  auditorPublicKey : Option (Octets 32)
  /-- The limits in seconds. -/
  limits : Limits UInt64
deriving DecidableEq

namespace Settings

/-- Why settings are refused. -/
inductive Error where
  | malformed
  | outsideSchema
  | serviceKey
  | vrfKey
  | auditorKey
deriving DecidableEq

/-- The error in words. -/
def Error.message : Error → String
  | malformed => "failed to deserialize JSON config"
  | outsideSchema => "config does not match schema 'config.schema.json'"
  | serviceKey => "invalid service public key"
  | vrfKey => "invalid VRF public key"
  | auditorKey => "invalid auditor public key"

/-- The names of the settings, in the order in which an array gives them. -/
def names : List String :=
  ["logging_level", "log_id", "service_public_key", "vrf_public_key", "auditor_public_key",
    "max_tree_head_age_secs", "max_auditor_tree_head_age_secs", "max_clock_skew_secs",
    "max_auditor_lag"]

/-- The settings that a JSON value gives. -/
def ofJson? (json : Json) : Option Settings := do
  let fields ← Wire.Fields.ofJson? names json
  let standard := Limits.standard
  return {
    loggingLevel := ← fields.optional? "logging_level"
    logId := ← fields.required? "log_id"
    servicePublicKey := ← fields.required? "service_public_key"
    vrfPublicKey := ← fields.required? "vrf_public_key"
    auditorPublicKey := ← fields.optional? "auditor_public_key"
    limits := {
      maxTreeHeadAge := ← fields.withDefault? "max_tree_head_age_secs" standard.maxTreeHeadAge
      maxAuditorTreeHeadAge :=
        ← fields.withDefault? "max_auditor_tree_head_age_secs" standard.maxAuditorTreeHeadAge
      maxClockSkew := ← fields.withDefault? "max_clock_skew_secs" standard.maxClockSkew
      maxAuditorLag := ← fields.withDefault? "max_auditor_lag" standard.maxAuditorLag } }

/-- The configuration that settings give, if all keys are usable. -/
def toConfig (G : PointGroup) (settings : Settings) : Except Error (Config G) := do
  let some serviceKey := Signature.PublicKey.ofBytes? settings.servicePublicKey
    | throw .serviceKey
  let vrfKey ← match Vrf.PublicKey.ofBytes settings.vrfPublicKey with
    | .ok key => pure key
    | .error _ => throw .vrfKey
  let auditorKey ← match settings.auditorPublicKey with
    | none => pure none
    | some bytes =>
      match Signature.PublicKey.ofBytes? bytes with
      | some key => pure (some key)
      | none => throw .auditorKey
  return ⟨settings.logId, serviceKey, vrfKey, auditorKey, .ofSeconds settings.limits⟩

end Settings

end KeyTransparency
