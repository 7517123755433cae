import KeyTransparency.Event
import KeyTransparency.Time.Rfc3339

/-!
# Arguments of the command

The arguments are options, a topic, and the options of the exchange.  An option has two dashes
before its name and a value, either after an equals sign or as the next argument, which then must
not look like an option itself.  No option may be given twice.  A value that is an argument of its
own is looked at only when the next option is reached or the arguments end, so that a request for
information after a topic is granted even if the last option before the topic has a wrong value.
-/

namespace KeyTransparency.Command

/-- What a run of the command is to do. -/
structure Options where
  configPath : String
  statePath : String
  logLevel : Option String
  /-- The time to verify at, if it is not the present. -/
  now : Option Int64
  topic : Topic
  requestPath : String
  responsePath : String
deriving DecidableEq

/-- Why arguments ask for no run. -/
inductive Refusal where
  /-- They are not understood. -/
  | usage
  /-- They ask how the command is used, or which version it is. -/
  | information
deriving DecidableEq

/-- How the command is used. -/
def usage : String :=
  "usage: kt [--config FILE] [--state FILE] [--log-level LEVEL] [--now TIME] "
    ++ "(distinguished | search | monitor) --request FILE --response FILE"

/-- A name, and the value that is attached to it if there is one. -/
def splitAttached (chars : List Char) : String × Option String :=
  let name := chars.takeWhile (· != '=')
  let value := match chars.dropWhile (· != '=') with
    | _ :: value => some (String.ofList value)
    | [] => none
  (String.ofList name, value)

/-- What an argument looks like. -/
inductive Shape where
  /-- Two dashes, a name and perhaps a value. -/
  | long (name : String) (attached : Option String)
  /-- One dash and letters, the first of which is given. -/
  | short (letter : Char)
  /-- Two dashes alone, after which nothing is an option. -/
  | terminator
  | plain
deriving DecidableEq

/-- What an argument looks like. -/
def shape (argument : String) : Shape :=
  match argument.toList with
  | ['-', '-'] => .terminator
  | '-' :: '-' :: name =>
    let (name, attached) := splitAttached name
    .long name attached
  | '-' :: letter :: _ => .short letter
  | _ => .plain

/-- Whether one dash and a letter ask for information. -/
def asksByLetter (letter : Char) : Bool := letter == 'h' || letter == 'V'

/-- Whether a name asks for information. -/
def asksByName (name : String) : Bool := name == "help" || name == "version"

/-- The options that may be given in one place. -/
structure OptionSet (σ : Type) where
  names : List String
  /-- What becomes of the options read so far when one more is given a value. -/
  assign : σ → (name value : String) → Option σ

/-- Options as far as they are read. -/
structure Progress (σ : Type) where
  settled : σ
  /-- The last option and its value, as long as the value is not looked at. -/
  pending : Option (String × String)

namespace OptionSet

variable {σ : Type}

/-- Gives a value to an option. -/
def give (set : OptionSet σ) (options : σ) (name value : String) : Except Refusal σ :=
  match set.assign options name value with
  | some options => .ok options
  | none => .error .usage

/-- Gives its value to the option whose value was not looked at. -/
def settle (set : OptionSet σ) (progress : Progress σ) : Except Refusal σ :=
  match progress.pending with
  | some (name, value) => set.give progress.settled name value
  | none => .ok progress.settled

/-- What becomes of a request for information, which is granted if the options before it are
settled. -/
def inform {α : Type} (set : OptionSet σ) (progress : Progress σ) : Except Refusal α := do
  let _ ← set.settle progress
  throw .information

/-- Reads options as long as there are any, and returns what follows them. -/
def read (set : OptionSet σ) :
    Progress σ → List String → Except Refusal (Progress σ × List String)
  | progress, [] => .ok (progress, [])
  | progress, argument :: rest =>
    match shape argument with
    | .plain | .terminator => .ok (progress, argument :: rest)
    | .short letter => if asksByLetter letter then set.inform progress else throw .usage
    | .long name (some value) => do
      let options ← set.give (← set.settle progress) name value
      set.read ⟨options, none⟩ rest
    | .long name none =>
      if asksByName name then set.inform progress
      else
        match rest with
        | [] => throw .usage
        | value :: rest =>
          if shape value = .plain ∧ name ∈ set.names then do
            set.read ⟨← set.settle progress, some (name, value)⟩ rest
          else throw .usage

end OptionSet

/-- The options before the topic, as far as they are given. -/
structure Globals where
  config : Option String
  state : Option String
  logLevel : Option String
  now : Option Int64

/-- A path as the value of an option that has no value yet. -/
def newPath? (old : Option String) (value : String) : Option String :=
  if old = none ∧ value ≠ "" then some value else none

/-- Gives a value to an option before the topic. -/
def Globals.assign (options : Globals) : (name value : String) → Option Globals
  | "config", value => (newPath? options.config value).map fun path =>
    { options with config := some path }
  | "state", value => (newPath? options.state value).map fun path =>
    { options with state := some path }
  | "log-level", value =>
    if options.logLevel = none then some { options with logLevel := some value } else none
  | "now", value =>
    if options.now = none then
      (Time.Rfc3339.ofText? value).map fun time => { options with now := some time }
    else none
  | _, _ => none

/-- The options before the topic. -/
def globalOptions : OptionSet Globals := ⟨["config", "state", "log-level", "now"], Globals.assign⟩

/-- The options after the topic, as far as they are given. -/
structure Files where
  request : Option String
  response : Option String

/-- Gives a value to an option after the topic. -/
def Files.assign (options : Files) : (name value : String) → Option Files
  | "request", value => (newPath? options.request value).map fun path =>
    { options with request := some path }
  | "response", value => (newPath? options.response value).map fun path =>
    { options with response := some path }
  | _, _ => none

/-- The options after the topic. -/
def fileOptions : OptionSet Files := ⟨["request", "response"], Files.assign⟩

/-- The topic of a name. -/
def topic? : String → Option Topic
  | "distinguished" => some .distinguished
  | "search" => some .search
  | "monitor" => some .monitor
  | _ => none

/-- Reads the options of an exchange, after which at most the terminator may follow. -/
def readFiles (arguments : List String) : Except Refusal (String × String) := do
  let (progress, rest) ← fileOptions.read ⟨⟨none, none⟩, none⟩ arguments
  let files ← fileOptions.settle progress
  match files.request, files.response with
  | some request, some response =>
    if rest = [] ∨ rest = ["--"] then return (request, response) else throw .usage
  | _, _ => throw .usage

/-- Whether a request for help is about something that there is. -/
def isHelpTopic : List String → Bool
  | [] => true
  | [name] => (topic? name).isSome || name == "help"
  | _ => false

/-- What the arguments of the command ask for.  The last option before the topic is settled after
the arguments of the topic are read, and not at all before a request for help. -/
def Options.parse (arguments : List String) : Except Refusal Options := do
  let (progress, rest) ← globalOptions.read ⟨⟨none, none, none, none⟩, none⟩ arguments
  match rest with
  | [] => throw .usage
  | name :: rest =>
    match topic? name with
    | some topic =>
      let (requestPath, responsePath) ← readFiles rest
      let globals ← globalOptions.settle progress
      return {
        configPath := globals.config.getD "kt.json"
        statePath := globals.state.getD "kt-state.json"
        logLevel := globals.logLevel
        now := globals.now
        topic, requestPath, responsePath }
    | none => throw (if name = "help" ∧ isHelpTopic rest then .information else .usage)

end KeyTransparency.Command
