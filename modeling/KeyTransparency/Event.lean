import KeyTransparency.Error
import KeyTransparency.Identifier

/-!
# What a verifier records

While it works, a verifier says what it has established, and at the end why it refuses a response.
The events here name what happened, and one function puts each into words.
-/

namespace KeyTransparency

/-- How much an event matters. -/
inductive Level where
  | error
  | warn
  | info
  | debug
  | trace
deriving DecidableEq

namespace Level

/-- All levels, the gravest first. -/
def all : List Level := [error, warn, info, debug, trace]

/-- The name of a level. -/
def name : Level → String
  | error => "ERROR"
  | warn => "WARN"
  | info => "INFO"
  | debug => "DEBUG"
  | trace => "TRACE"

/-- How far a level is from the gravest. -/
def rank : Level → Nat
  | error => 0
  | warn => 1
  | info => 2
  | debug => 3
  | trace => 4

/-- The level that a text names, in letters of any case. -/
def ofName? (text : String) : Option Level :=
  all.find? fun level => level.name.toList = text.toList.map Char.toUpper

end Level

/-- What a client can ask a log. -/
inductive Topic where
  | distinguished
  | search
  | monitor
deriving DecidableEq

/-- The topic in words. -/
def Topic.name : Topic → String
  | distinguished => "distinguished"
  | search => "search"
  | monitor => "monitor"

/-- What happens while a response is verified. -/
inductive Event where
  | serviceHeadVerified (size : UInt64)
  | auditorHeadVerified (size : UInt64)
  | auditorConsistent (size : UInt64)
  | resolved (key : SearchKey) (index : CommitmentIndex)
  | located (key : SearchKey) (position : UInt64)
  | monitored (count : Nat)
  | rejected (topic : Topic) (error : VerificationError)
deriving DecidableEq

namespace Event

/-- How much an event matters. -/
def level : Event → Level
  | rejected .. => .warn
  | _ => .debug

/-- The event in words. -/
def message : Event → String
  | serviceHeadVerified size => s!"service tree head verified: size {size}"
  | auditorHeadVerified size => s!"auditor tree head verified: size {size}"
  | auditorConsistent size => s!"auditor tree at size {size} is consistent"
  | resolved key index => key.shown ++ " resolved to index " ++ hex index.bytes
  | located key position => key.shown ++ s!" verified at position {position}"
  | monitored count => s!"{count} monitored keys verified"
  | rejected topic error =>
    topic.name ++ " response rejected (" ++ error.kind.name ++ "): " ++ error.message

end Event

end KeyTransparency
