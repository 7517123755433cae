import KeyTransparency.Json.Double
import KeyTransparency.Settings
import KeyTransparency.Text.Base64

/-!
# The text of settings

A settings file is a JSON object whose members are settings and nothing else.  Each member has a
rule that its value must keep, and three must be there.  The rules are about the form of values
only: what they admit may still be refused when the values are read, such as a number beyond the
range of its setting.
-/

namespace KeyTransparency.Settings

/-- What the value of a setting must look like. -/
inductive Rule where
  /-- The name of a level. -/
  | level
  /-- A text whose number of characters lies between the bounds. -/
  | characters (least greatest : Nat)
  /-- The digits of 32 bytes in base64 with their padding. -/
  | key
  /-- A number without a fractional part that is not below the bound. -/
  | integer (least : Nat)
deriving DecidableEq

/-- The levels that settings may name. -/
def levels : List String := ["error", "warn", "info", "debug", "trace"]

/-- Whether a text looks like a key. -/
def looksLikeKey (text : String) : Bool :=
  let chars := text.toList
  chars.length == 44 && (chars.take 43).all (fun c => (Text.Base64.digit? c).isSome)
    && chars.drop 43 == ['=']

/-- Whether a value keeps a rule. -/
def Rule.admits : Rule → Json → Bool
  | level, .string (some text) => levels.contains text
  | characters least greatest, .string (some text) =>
    decide (least ≤ text.length ∧ text.length ≤ greatest)
  | key, .string (some text) => looksLikeKey text
  | integer least, .number value =>
    match value.toDouble? with
    | some double => double.isWhole && double.atLeast least
    | none => false
  | _, _ => false

/-- The settings that a file may have, with their rules. -/
def rules : List (String × Rule) :=
  [("logging_level", .level), ("log_id", .characters 1 65535), ("service_public_key", .key),
    ("vrf_public_key", .key), ("auditor_public_key", .key),
    ("max_tree_head_age_secs", .integer 1), ("max_auditor_tree_head_age_secs", .integer 1),
    ("max_clock_skew_secs", .integer 0), ("max_auditor_lag", .integer 0)]

/-- The settings that a file must have. -/
def requiredNames : List String := ["log_id", "service_public_key", "vrf_public_key"]

/-- Whether a value is an object in which every member is a setting that keeps its rule, and no
required setting is missing. -/
def matchesSchema : Json → Bool
  | .object members =>
    members.all (fun (name, value) =>
      match name.bind fun name => rules.lookup name with
      | some rule => rule.admits value
      | none => false)
      && requiredNames.all fun name => members.any (·.1 == some name)
  | _ => false

/-- The settings in the text of a file. -/
def ofText (text : String) : Except Error Settings := do
  let some json := Json.readPlain? text | throw .malformed
  if !matchesSchema json then throw .outsideSchema
  let some settings := ofJson? json | throw .malformed
  return settings

end KeyTransparency.Settings
