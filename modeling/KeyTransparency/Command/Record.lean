import KeyTransparency.Event
import KeyTransparency.Json.Basic

/-!
# Log records

What the command has to say beside its result is a sequence of records, one for each event that
matters enough.
-/

namespace KeyTransparency.Command

/-- A record: what it says, how much it matters, and named values. -/
structure Record where
  message : String
  level : Level
  fields : List (String × String)
deriving DecidableEq

namespace Record

/-- The record of an event. -/
def ofEvent (event : Event) : Record := ⟨event.message, event.level, []⟩

/-- The record of a failure. -/
def ofFailure (message : String) : Record := ⟨message, .error, []⟩

/-- The record of an accepted response. -/
def ofAccepted (head : VerifiedTreeHead) : Record where
  message := "response accepted"
  level := .info
  fields := [("tree_size", toString head.treeSize), ("timestamp", toString head.timestamp)]

/-- A record as JSON. -/
def toJson (record : Record) : Json :=
  .record ([("message", .text record.message), ("level", .text record.level.name)]
    ++ record.fields.map fun (name, value) => (name, .text value))

end Record

/-- Whether an event matters enough, if everything up to `greatest` does. -/
def isShown (greatest level : Level) : Bool := decide (level.rank ≤ greatest.rank)

/-- The greatest level to show: the one that is named, if it is one. -/
def levelOrDefault (name : Option String) : Level := (name.bind Level.ofName?).getD .info

end KeyTransparency.Command
