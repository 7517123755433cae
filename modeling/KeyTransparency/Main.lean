import KeyTransparency.Command.Run
import Std.Time.DateTime.Timestamp

/-!
# The command

Verifies responses of a key transparency log that are saved as JSON, and keeps the heads of accepted
ones.  This module only connects a run to the disk, the clock and the terminal.
-/

namespace KeyTransparency.Command

/-- What comes of reading a file on the disk. -/
def readDisk (path : String) : IO Reading := do
  try
    match String.fromUTF8? (← IO.FS.readBinFile path) with
    | some content => return .text content
    | none => return .unreadable
  catch
    | .noFileOrDirectory .. => return .absent
    | _ => return .unreadable

/-- Makes a change on the disk. -/
def changeDisk : Change → IO Unit
  | .create path => IO.FS.writeFile path ""
  | .append path text => do (← IO.FS.Handle.mk path .append).putStr text
  | .rename source target => IO.FS.rename source target

/-- The files on the disk. -/
def disk : FileAccess IO where
  read := readDisk
  change change := do
    try
      changeDisk change
      return true
    catch _ => return false

/-- The present, in milliseconds since the start of 1970. -/
def clock : IO Int64 := do
  return .ofInt (← Std.Time.Timestamp.now).toMillisecondsSinceUnixEpoch.val

/-- Shows what a run comes to. -/
def Outcome.show (outcome : Outcome) : IO UInt32 := do
  for record in outcome.records do
    IO.eprintln record.toJson.compact
  if let some result := outcome.printed then
    IO.println result.sorted.pretty
  return outcome.status.code.toUInt32

/-- Shows how the command is used, to who asked for it or to who did not know. -/
def Refusal.show : Refusal → IO Unit
  | usage => IO.eprintln Command.usage
  | information => IO.println Command.usage

end KeyTransparency.Command

open KeyTransparency.Command in
/-- Runs the command with the arguments that it is given. -/
def main (arguments : List String) : IO UInt32 := do
  if let .error refusal := Options.parse arguments then refusal.show
  (← runArguments disk clock arguments).show
