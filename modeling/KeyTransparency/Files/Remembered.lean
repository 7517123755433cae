import KeyTransparency.Files.Access
import KeyTransparency.Files.Path
import KeyTransparency.Wire.Head

/-!
# The file of what a client remembers

A client keeps the heads that it remembers in a file.  They are replaced by writing the new ones to
another file and renaming it, so that at no time the file holds only a part of them.
-/

namespace KeyTransparency.LastSeen

/-- Why the file cannot be read. -/
inductive LoadFault where
  | unreadable
  | malformed
deriving DecidableEq

/-- What a client remembers, given what comes of reading its file.  Without a file it remembers
nothing. -/
def ofReading : Reading → Except LoadFault LastSeen
  | .absent => .ok .empty
  | .unreadable => .error .unreadable
  | .text content =>
    match Wire.ofText? content with
    | some seen => .ok seen
    | none => .error .malformed

/-- The path that new contents are written to, before they replace those at a path. -/
def temporaryPath (path : String) : String := Path.withExtension path "tmp"

/-- The changes that write the new contents. -/
def writing (path : String) (seen : LastSeen) : List Change :=
  [.create (temporaryPath path), .append (temporaryPath path) (Wire.prettyText seen)]

/-- The change that puts the new contents in the place of the old ones. -/
def replacing (path : String) : Change := .rename (temporaryPath path) path

/-- Which part of the replacement fails. -/
inductive SaveFault where
  | unwritten
  | unreplaced
deriving DecidableEq

variable {m : Type → Type} [Monad m]

/-- Makes changes up to the first that fails, and tells whether all succeeded. -/
def makeAll (files : FileAccess m) : List Change → m Bool
  | [] => return true
  | change :: rest => do if ← files.change change then makeAll files rest else return false

/-- Replaces what a client remembers at a path. -/
def save (files : FileAccess m) (path : String) (seen : LastSeen) : m (Except SaveFault Unit) := do
  if !(← makeAll files (writing path seen)) then return .error .unwritten
  if !(← files.change (replacing path)) then return .error .unreplaced
  return .ok ()

end KeyTransparency.LastSeen
