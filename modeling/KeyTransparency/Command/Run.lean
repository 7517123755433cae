import KeyTransparency.Command.Options
import KeyTransparency.Command.Record
import KeyTransparency.Curve.Edwards25519
import KeyTransparency.Files.Remembered
import KeyTransparency.Settings.Schema
import KeyTransparency.Verification
import KeyTransparency.Wire.Exchange

/-!
# A run of the command

A run reads the settings, what the client remembers, and an exchange, and verifies the exchange.  If
it is accepted, the run replaces what the client remembers and prints what the exchange shows.  If
it is refused, the run prints why and changes nothing.  If it cannot come to a verdict, it only
leaves a record.
-/

namespace KeyTransparency.Command

/-- The group of the keys and proofs of logs. -/
abbrev curve : PointGroup := Edwards25519.group

/-- Why a run comes to no verdict, or cannot keep it. -/
inductive Failure where
  | configUnreadable (path : String)
  | configInvalid (path : String) (error : Settings.Error)
  | keyUnusable (error : Settings.Error)
  | stateUnread (path : String) (fault : LastSeen.LoadFault)
  | exchangeUnreadable (path : String)
  | exchangeMalformed (path : String)
  | stateUnsaved (path : String) (fault : LastSeen.SaveFault)
deriving DecidableEq

/-- A path between quotes. -/
def quoted (path : String) : String := "'" ++ path ++ "'"

/-- The failure in words. -/
def Failure.message : Failure → String
  | configUnreadable path => "failed to read config file " ++ quoted path
  | configInvalid path error => "invalid config file " ++ quoted path ++ ": " ++ error.message
  | keyUnusable error => error.message
  | stateUnread path .unreadable => "failed to read state file " ++ quoted path
  | stateUnread path .malformed => "failed to deserialize state file " ++ quoted path
  | exchangeUnreadable path => "failed to read " ++ quoted path
  | exchangeMalformed path => "failed to deserialize " ++ quoted path
  | stateUnsaved path .unwritten =>
    "failed to write state file " ++ quoted (LastSeen.temporaryPath path)
  | stateUnsaved path .unreplaced => "failed to replace state file " ++ quoted path

/-- The exit status of a run. -/
inductive Status where
  | accepted
  /-- The exchange was refused, or the arguments were not understood. -/
  | refused
  | failed
deriving DecidableEq

/-- The number of a status. -/
def Status.code : Status → UInt8
  | accepted => 0
  | failed => 1
  | refused => 2

/-- What a run comes to: its status, what it prints, and its records. -/
structure Outcome where
  status : Status
  printed : Option Json
  records : List Record

/-- The outcome of a run that fails after some records. -/
def Outcome.ofFailure (records : List Record) (failure : Failure) : Outcome :=
  ⟨.failed, none, records ++ [.ofFailure failure.message]⟩

/-- What is printed about a refused exchange. -/
def refusalToJson (error : VerificationError) : Json :=
  .record
    [("accepted", .bool false), ("kind", .text error.kind.name), ("error", .text error.message)]

/-- The settings in a configuration file. -/
def settingsOfReading (path : String) : Reading → Except Failure Settings
  | .text content => (Settings.ofText content).mapError (.configInvalid path)
  | _ => .error (.configUnreadable path)

/-- The part of an exchange in a file. -/
def ofReading {α : Type} [Wire α] (path : String) : Reading → Except Failure α
  | .text content =>
    match Wire.ofText? content with
    | some value => .ok value
    | none => .error (.exchangeMalformed path)
  | _ => .error (.exchangeUnreadable path)

variable {m : Type → Type} [Monad m]

/-- Reads a request and then the response to it. -/
def readPair {α β : Type} [Wire α] [Wire β] (files : FileAccess m) (options : Options)
    (exchange : α → β → Exchange) : ExceptT Failure m Exchange := do
  let request ← ExceptT.mk (ofReading options.requestPath <$> files.read options.requestPath)
  let response ← ExceptT.mk (ofReading options.responsePath <$> files.read options.responsePath)
  return exchange request response

/-- Reads the exchange that a run is about. -/
def readExchange (files : FileAccess m) (options : Options) : ExceptT Failure m Exchange :=
  match options.topic with
  | .distinguished => readPair files options .distinguished
  | .search => readPair files options .search
  | .monitor => readPair files options .monitor

/-- All that a run needs for its verdict. -/
structure Case where
  level : Level
  trust : Trust curve
  exchange : Exchange

/-- Reads all that a run needs for its verdict. -/
def readCase (files : FileAccess m) (clock : m Int64) (options : Options) :
    ExceptT Failure m Case := do
  let settings ← ExceptT.mk
    (settingsOfReading options.configPath <$> files.read options.configPath)
  let level := levelOrDefault (options.logLevel <|> settings.loggingLevel)
  let config ← ((settings.toConfig curve).mapError .keyUnusable : Except Failure _)
  let reading ← files.read options.statePath
  let lastSeen ← ((LastSeen.ofReading reading).mapError (.stateUnread options.statePath) :
    Except Failure _)
  let now ← match options.now with
    | some now => pure now
    | none => clock
  let exchange ← readExchange files options
  return ⟨level, ⟨config, lastSeen, now⟩, exchange⟩

/-- Verifies the exchange of a case and keeps the verdict. -/
def conclude (files : FileAccess m) (statePath : String) (case : Case) : m Outcome := do
  let attempt := case.exchange.verify case.trust
  let records := (attempt.events.map Record.ofEvent).filter (isShown case.level ·.level)
  match attempt.result with
  | .error error => return ⟨.refused, some (refusalToJson error), records⟩
  | .ok report =>
    match ← LastSeen.save files statePath (case.trust.lastSeen.after report) with
    | .error fault => return .ofFailure records (.stateUnsaved statePath fault)
    | .ok () =>
      let accepted := [Record.ofAccepted report.head].filter (isShown case.level ·.level)
      return ⟨.accepted, some (Wire.reportToJson report), records ++ accepted⟩

/-- A run of the command with given options. -/
def run (files : FileAccess m) (clock : m Int64) (options : Options) : m Outcome := do
  match ← (readCase files clock options).run with
  | .error failure => return .ofFailure [] failure
  | .ok case => conclude files options.statePath case

/-- What arguments come to that ask for no run. -/
def Refusal.outcome : Refusal → Outcome
  | usage => ⟨.refused, none, []⟩
  | information => ⟨.accepted, none, []⟩

/-- A run of the command with given arguments. -/
def runArguments (files : FileAccess m) (clock : m Int64) (arguments : List String) : m Outcome :=
  match Options.parse arguments with
  | .ok options => run files clock options
  | .error refusal => return refusal.outcome

end KeyTransparency.Command
