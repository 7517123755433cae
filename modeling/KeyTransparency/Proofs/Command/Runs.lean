import KeyTransparency.Command.Run
import KeyTransparency.Proofs.Files.Remembered
import KeyTransparency.Proofs.Session
import Mathlib.Data.List.Induction

/-!
# Runs of the command keep a session

The command is run many times with one configuration file and one file of what is remembered, while
requests and responses come and go.  What is remembered in the file is then what a session remembers
that goes through the exchanges that were accepted, and the status of a run tells what became of its
exchange.
-/

namespace KeyTransparency.Command

variable {σ α β : Type}

theorem Status.code_cases (status : Status) :
    status.code = 0 ∨ status.code = 1 ∨ status.code = 2 := by
  cases status <;> simp [Status.code]

/-! ## What runs read -/

/-- The configuration that a file gives, if it gives one. -/
def configuration? : Reading → Option (Config curve)
  | .text content => do
    let settings ← (Settings.ofText content).toOption
    (settings.toConfig curve).toOption
  | _ => none

/-- The value that a file writes, if it writes one. -/
def value? [Wire α] : Reading → Option α
  | .text content => Wire.ofText? content
  | _ => none

theorem toOption_bind {ε : Type} (first : Except ε α) (next : α → Except ε β) :
    (first >>= next).toOption = first.toOption.bind fun a => (next a).toOption := by
  cases first <;> rfl

theorem toOption_mapError {ε ε' : Type} (f : ε → ε') (result : Except ε α) :
    (result.mapError f).toOption = result.toOption := by
  cases result <;> rfl

theorem toOption_ofReading [Wire α] (path : String) (reading : Reading) :
    (ofReading path reading : Except Failure α).toOption = value? reading := by
  cases reading with
  | text content =>
    rw [ofReading, value?]
    cases (Wire.ofText? content : Option α) <;> rfl
  | absent => rfl
  | unreadable => rfl

theorem configuration?_eq (path : String) (reading : Reading) :
    configuration? reading = (settingsOfReading path reading).toOption.bind fun settings =>
      (settings.toConfig curve).toOption := by
  cases reading with
  | text content =>
    rw [settingsOfReading, toOption_mapError]
    rfl
  | absent => rfl
  | unreadable => rfl

/-- The files that are the same in all runs. -/
structure Places where
  config : String
  state : String

/-- The paths of the configuration, of what is remembered, and of what will be remembered lead to
three files. -/
structure Places.Distinct (places : Places) (Apart : String → String → Prop) : Prop where
  state_temporary : Apart places.state (LastSeen.temporaryPath places.state)
  config_state : Apart places.config places.state
  config_temporary : Apart places.config (LastSeen.temporaryPath places.state)

/-- A run at a given time, and what happens to the files between the run before it and this one. -/
structure Invocation (σ : Type) where
  prepare : σ → σ
  arguments : List String
  logLevel : Option String
  now : Int64
  topic : Topic
  requestPath : String
  responsePath : String

namespace Invocation

variable (invocation : Invocation σ) (files : FileAccess (StateM σ)) (clock : StateM σ Int64)
  (places : Places)

/-- What the arguments of a run ask for. -/
def options : Options where
  configPath := places.config
  statePath := places.state
  logLevel := invocation.logLevel
  now := some invocation.now
  topic := invocation.topic
  requestPath := invocation.requestPath
  responsePath := invocation.responsePath

/-- What a run comes to that finds some files, and the files after it. -/
def perform (found : σ) : Outcome × σ :=
  (runArguments files clock invocation.arguments).run found

/-- The request and the response that a run finds, if both are there. -/
def pair? [Wire α] [Wire β] (exchange : α → β → Exchange) (found : σ) : Option Exchange := do
  let request ← value? (files.readAt found invocation.requestPath)
  let response ← value? (files.readAt found invocation.responsePath)
  return exchange request response

/-- The exchange that a run finds, if there is one. -/
def exchange? (found : σ) : Option Exchange :=
  match invocation.topic with
  | .distinguished => invocation.pair? files .distinguished found
  | .search => invocation.pair? files .search found
  | .monitor => invocation.pair? files .monitor found

/-- The verdict about the exchange that a run finds, given what is remembered.  There is none
without a configuration or without an exchange. -/
def verdict? (seen : LastSeen) (found : σ) : Option (Except VerificationError Report) :=
  (configuration? (files.readAt found places.config)).bind fun config =>
    (invocation.exchange? files found).map fun exchange =>
      (exchange.verify ⟨config, seen, invocation.now⟩).result

/-- The exit status of a run that begins with some files. -/
def exitCode (s : σ) : UInt8 :=
  (invocation.perform files clock (invocation.prepare s)).1.status.code

/-- The files after a run that begins with some files. -/
def filesAfter (s : σ) : σ :=
  (invocation.perform files clock (invocation.prepare s)).2

/-- A run that fits to others.  Its arguments are understood and name the same places, and anything
may happen to the files before it but to the configuration and to what is remembered. -/
structure Fits : Prop where
  parse_arguments : Options.parse invocation.arguments = .ok (invocation.options places)
  keeps_config : ∀ s,
    files.readAt (invocation.prepare s) places.config = files.readAt s places.config
  keeps_state : ∀ s,
    files.readAt (invocation.prepare s) places.state = files.readAt s places.state

end Invocation

/-! ## Reading a case -/

/-- A computation that comes to a result and changes no file. -/
def Yields (s : σ) (computation : ExceptT Failure (StateM σ) α) (result : Except Failure α) :
    Prop :=
  computation.run.run s = (result, s)

section Yields

variable {files : FileAccess (StateM σ)} {Apart : String → String → Prop} {s : σ}

theorem Yields.result (result : Except Failure α) : Yields s (liftM result) result := by
  cases result <;> rfl

theorem Yields.bind {first : ExceptT Failure (StateM σ) α} {result : Except Failure α}
    {next : α → ExceptT Failure (StateM σ) β} {rest : α → Except Failure β}
    (hfirst : Yields s first result) (hnext : ∀ a, Yields s (next a) (rest a)) :
    Yields s (first >>= next) (result >>= rest) := by
  rw [Yields, ExceptT.run_bind, StateT.run_bind, hfirst]
  cases result with
  | error failure => rfl
  | ok a => exact hnext a

theorem Yields.read_bind (hfiles : files.Lawful Apart) {path : String}
    {next : Reading → ExceptT Failure (StateM σ) α} {result : Except Failure α}
    (hnext : Yields s (next (files.readAt s path)) result) :
    Yields s (liftM (files.read path) >>= next) result := by
  have hread : (liftM (files.read path) : ExceptT Failure (StateM σ) Reading).run.run s =
      (.ok (files.readAt s path), s) := by
    change (Except.ok <$> files.read path : StateM σ (Except Failure Reading)).run s = _
    rw [StateT.run_map, hfiles.read_eq]
    rfl
  rw [Yields, ExceptT.run_bind, StateT.run_bind, hread]
  exact hnext

theorem Yields.judge (hfiles : files.Lawful Apart) (path : String)
    (judge : Reading → Except Failure α) :
    Yields s (ExceptT.mk (judge <$> files.read path)) (judge (files.readAt s path)) := by
  change (judge <$> files.read path).run s = _
  rw [StateT.run_map, hfiles.read_eq]
  rfl

end Yields

namespace Invocation

variable (invocation : Invocation σ) (files : FileAccess (StateM σ)) (clock : StateM σ Int64)
  (places : Places)

/-- The request and the response that a run reads. -/
def pairAt [Wire α] [Wire β] (exchange : α → β → Exchange) (found : σ) :
    Except Failure Exchange := do
  let request ← ofReading invocation.requestPath (files.readAt found invocation.requestPath)
  let response ← ofReading invocation.responsePath (files.readAt found invocation.responsePath)
  return exchange request response

/-- The exchange that a run reads. -/
def exchangeAt (found : σ) : Except Failure Exchange :=
  match invocation.topic with
  | .distinguished => invocation.pairAt files .distinguished found
  | .search => invocation.pairAt files .search found
  | .monitor => invocation.pairAt files .monitor found

/-- The case that a run reads. -/
def caseAt (found : σ) : Except Failure Case := do
  let settings ← settingsOfReading places.config (files.readAt found places.config)
  let config ← (settings.toConfig curve).mapError .keyUnusable
  let seen ← (LastSeen.ofReading (files.readAt found places.state)).mapError
    (.stateUnread places.state)
  let exchange ← invocation.exchangeAt files found
  return ⟨levelOrDefault (invocation.logLevel <|> settings.loggingLevel),
    ⟨config, seen, invocation.now⟩, exchange⟩

variable {invocation files clock places} {Apart : String → String → Prop} {seen : LastSeen}
  {found : σ}

theorem yields_readPair [Wire α] [Wire β] (hfiles : files.Lawful Apart)
    (exchange : α → β → Exchange) :
    Yields found (readPair files (invocation.options places) exchange)
      (invocation.pairAt files exchange found) :=
  (Yields.judge hfiles _ _).bind fun _ => (Yields.judge hfiles _ _).bind fun _ => rfl

theorem yields_readExchange (hfiles : files.Lawful Apart) :
    Yields found (readExchange files (invocation.options places))
      (invocation.exchangeAt files found) := by
  have htopic : (invocation.options places).topic = invocation.topic := rfl
  rw [readExchange, exchangeAt, htopic]
  cases invocation.topic with
  | distinguished => exact yields_readPair hfiles _
  | search => exact yields_readPair hfiles _
  | monitor => exact yields_readPair hfiles _

theorem yields_readCase (hfiles : files.Lawful Apart) :
    Yields found (readCase files clock (invocation.options places))
      (invocation.caseAt files places found) := by
  refine (Yields.judge hfiles _ _).bind fun settings => ?_
  refine (Yields.result _).bind fun config => ?_
  refine Yields.read_bind hfiles ?_
  refine (Yields.result _).bind fun seen => ?_
  have hnow : (invocation.options places).now = some invocation.now := rfl
  simp only [hnow, pure_bind]
  exact (yields_readExchange hfiles).bind fun exchange => rfl

/-! ## Verdicts -/

theorem toOption_pairAt [Wire α] [Wire β] (exchange : α → β → Exchange) :
    (invocation.pairAt files exchange found).toOption = invocation.pair? files exchange found := by
  simp only [pairAt, pair?, toOption_bind, toOption_ofReading]
  rfl

theorem toOption_exchangeAt :
    (invocation.exchangeAt files found).toOption = invocation.exchange? files found := by
  rw [exchangeAt, exchange?]
  cases invocation.topic with
  | distinguished => exact toOption_pairAt _
  | search => exact toOption_pairAt _
  | monitor => exact toOption_pairAt _

theorem toOption_caseAt
    (hseen : LastSeen.ofReading (files.readAt found places.state) = .ok seen) :
    (invocation.caseAt files places found).toOption =
      (settingsOfReading places.config (files.readAt found places.config)).toOption.bind
        fun settings => (settings.toConfig curve).toOption.bind fun config =>
          (invocation.exchange? files found).map fun exchange =>
            ⟨levelOrDefault (invocation.logLevel <|> settings.loggingLevel),
              ⟨config, seen, invocation.now⟩, exchange⟩ := by
  rw [caseAt, toOption_bind]
  congr 1
  funext settings
  rw [toOption_bind, toOption_mapError]
  congr 1
  funext config
  rw [hseen, toOption_bind, toOption_mapError]
  change (invocation.exchangeAt files found >>= _).toOption = _
  rw [toOption_bind, toOption_exchangeAt]
  cases invocation.exchange? files found with
  | none => rfl
  | some exchange => rfl

/-- There is a verdict exactly about what is read as a case. -/
theorem verdict?_eq (hseen : LastSeen.ofReading (files.readAt found places.state) = .ok seen) :
    invocation.verdict? files places seen found =
      (invocation.caseAt files places found).toOption.map fun case =>
        (case.exchange.verify case.trust).result := by
  rw [toOption_caseAt hseen, verdict?, configuration?_eq places.config, Option.bind_assoc,
    Option.map_bind]
  congr 1
  funext settings
  rw [Function.comp_apply, Option.map_bind]
  congr 1
  funext config
  rw [Function.comp_apply, Option.map_map]
  rfl

theorem exists_of_verdict? {verdict : Except VerificationError Report}
    (h : invocation.verdict? files places seen found = some verdict) :
    ∃ config exchange, configuration? (files.readAt found places.config) = some config ∧
      invocation.exchange? files found = some exchange ∧
      (exchange.verify ⟨config, seen, invocation.now⟩).result = verdict := by
  obtain ⟨config, hconfig, h⟩ := Option.bind_eq_some_iff.mp h
  obtain ⟨exchange, hexchange, hverify⟩ := Option.map_eq_some_iff.mp h
  exact ⟨config, exchange, hconfig, hexchange, hverify⟩

/-! ## What becomes of a verdict -/

/-- What becomes of the verdict about an exchange: the status of the run, and the files after it. -/
inductive Concludes (files : FileAccess (StateM σ)) (places : Places) (seen : LastSeen)
    (found : σ) : (verdict : Option (Except VerificationError Report)) → Status → σ → Prop where
  | none : Concludes files places seen found none .failed found
  | refused (error : VerificationError) :
      Concludes files places seen found (some (.error error)) .refused found
  | unsaved {report : Report} {fault : LastSeen.SaveFault} {after : σ}
      (hsave : (LastSeen.save files places.state (seen.after report)).run found =
        (.error fault, after)) :
      Concludes files places seen found (some (.ok report)) .failed after
  | saved {report : Report} {after : σ}
      (hsave : (LastSeen.save files places.state (seen.after report)).run found =
        (.ok (), after)) :
      Concludes files places seen found (some (.ok report)) .accepted after

/-- A run concludes from its verdict. -/
theorem Fits.concludes_perform (hfits : invocation.Fits files places) (clock : StateM σ Int64)
    (hfiles : files.Lawful Apart)
    (hseen : LastSeen.ofReading (files.readAt found places.state) = .ok seen) :
    Concludes files places seen found (invocation.verdict? files places seen found)
      (invocation.perform files clock found).1.status
      (invocation.perform files clock found).2 := by
  have hread : (readCase files clock (invocation.options places)).run.run found =
      (invocation.caseAt files places found, found) := yields_readCase hfiles
  have hremembered {case : Case} (hcase : invocation.caseAt files places found = .ok case) :
      case.trust.lastSeen = seen := by
    have hsome := @toOption_caseAt _ invocation files places seen found hseen
    rw [hcase] at hsome
    obtain ⟨settings, -, hsome⟩ := Option.bind_eq_some_iff.mp hsome.symm
    obtain ⟨config, -, hsome⟩ := Option.bind_eq_some_iff.mp hsome
    obtain ⟨exchange, -, rfl⟩ := Option.map_eq_some_iff.mp hsome
    rfl
  rw [verdict?_eq hseen, perform, runArguments, hfits.parse_arguments]
  simp only [Command.run]
  rw [StateT.run_bind, hread]
  cases hcase : invocation.caseAt files places found with
  | error failure => exact .none
  | ok case =>
    change Concludes files places seen found (some (case.exchange.verify case.trust).result)
      ((conclude files places.state case).run found).1.status
      ((conclude files places.state case).run found).2
    rw [conclude]
    cases hverdict : (case.exchange.verify case.trust).result with
    | error error => exact .refused error
    | ok report =>
      simp only
      rw [StateT.run_bind, hremembered hcase]
      rcases hsave : (LastSeen.save files places.state (seen.after report)).run found with
        ⟨fault | _, after⟩
      · exact .unsaved hsave
      · exact .saved hsave

variable {verdict : Option (Except VerificationError Report)} {status : Status} {after : σ}

theorem Concludes.code_eq_zero_iff (h : Concludes files places seen found verdict status after) :
    status.code = 0 ↔ ∃ report, verdict = some (.ok report) ∧
      ((LastSeen.save files places.state (seen.after report)).run found).1 = .ok () := by
  cases h with
  | none | refused => simp [Status.code]
  | unsaved hsave | saved hsave => simp [Status.code, hsave]

theorem Concludes.code_eq_two_iff (h : Concludes files places seen found verdict status after) :
    status.code = 2 ↔ ∃ error, verdict = some (.error error) := by
  cases h <;> simp [Status.code]

/-- What an accepted exchange shows is remembered. -/
theorem Concludes.ofReading_eq {report : Report}
    (h : Concludes files places seen found (some (.ok report)) status after)
    (hfiles : files.Lawful Apart) (hstatus : status.code = 0) :
    LastSeen.ofReading (files.readAt after places.state) = .ok (seen.after report) := by
  cases h with
  | unsaved hsave => cases hstatus
  | saved hsave =>
    rw [LastSeen.readAt_of_save_eq_ok hfiles hsave, LastSeen.ofReading_prettyText]

/-- Unless a verdict is accepted and saved, what is remembered stays. -/
theorem Concludes.readAt_eq (h : Concludes files places seen found verdict status after)
    (hfiles : files.Lawful Apart) (hplaces : places.Distinct Apart) (hstatus : status.code ≠ 0) :
    files.readAt after places.state = files.readAt found places.state := by
  cases h with
  | none | refused => rfl
  | unsaved hsave => exact LastSeen.readAt_of_save_eq_error hfiles hplaces.state_temporary hsave
  | saved hsave => exact absurd rfl hstatus

theorem Concludes.readAt_config (h : Concludes files places seen found verdict status after)
    (hfiles : files.Lawful Apart) (hplaces : places.Distinct Apart) :
    files.readAt after places.config = files.readAt found places.config := by
  have hsaved (next : LastSeen) := LastSeen.readAt_save hfiles hplaces.config_state
    hplaces.config_temporary next found
  cases h with
  | none | refused => rfl
  | @unsaved report fault after hsave | @saved report after hsave =>
    have hkept := hsaved (seen.after report)
    rw [hsave] at hkept
    exact hkept

/-- How the status of a run and the file of what is remembered follow from the verdict about the
exchange that the run finds, where `seen` was remembered before. -/
structure Refines (invocation : Invocation σ) (files : FileAccess (StateM σ))
    (clock : StateM σ Int64) (places : Places) (seen : LastSeen) (s : σ) : Prop where
  accepted_iff : invocation.exitCode files clock s = 0 ↔
    ∃ report, invocation.verdict? files places seen (invocation.prepare s) = some (.ok report) ∧
      ((LastSeen.save files places.state (seen.after report)).run (invocation.prepare s)).1 =
        .ok ()
  refused_iff : invocation.exitCode files clock s = 2 ↔
    ∃ error, invocation.verdict? files places seen (invocation.prepare s) = some (.error error)
  failed_of_ne : invocation.exitCode files clock s ≠ 0 →
    invocation.exitCode files clock s ≠ 2 → invocation.exitCode files clock s = 1
  unchanged : invocation.exitCode files clock s ≠ 0 →
    files.readAt (invocation.filesAfter files clock s) places.state =
      files.readAt s places.state

theorem Fits.refines (hfits : invocation.Fits files places) (hfiles : files.Lawful Apart)
    (hplaces : places.Distinct Apart) {s : σ}
    (hseen : LastSeen.ofReading (files.readAt s places.state) = .ok seen) :
    invocation.Refines files clock places seen s := by
  have h := hfits.concludes_perform clock hfiles ((hfits.keeps_state s).symm ▸ hseen)
  refine ⟨h.code_eq_zero_iff, h.code_eq_two_iff, fun hzero htwo => ?_, fun hzero => ?_⟩
  · exact ((Status.code_cases _).resolve_left hzero).resolve_right htwo
  · exact (h.readAt_eq hfiles hplaces hzero).trans (hfits.keeps_state s)

end Invocation

/-! ## Runs one after the other -/

/-- The exchange of a run that begins with some files, if the run accepts it. -/
def Invocation.accepted? (invocation : Invocation σ) (files : FileAccess (StateM σ))
    (clock : StateM σ Int64) (s : σ) : Option Turn :=
  if invocation.exitCode files clock s = 0 then
    (invocation.exchange? files (invocation.prepare s)).map (Turn.mk invocation.now)
  else none

/-- The files after some runs, and the exchanges that were accepted. -/
def runs (files : FileAccess (StateM σ)) (clock : StateM σ Int64) (start : σ)
    (invocations : List (Invocation σ)) : σ × List Turn :=
  invocations.foldl (fun (s, turns) invocation =>
    (invocation.filesAfter files clock s, turns ++ (invocation.accepted? files clock s).toList))
    (start, [])

/-- What is remembered in a session that goes through some exchanges.  Without a configuration there
is no session, and nothing is remembered. -/
def remembered (config? : Option (Config curve)) (turns : List Turn) : LastSeen :=
  match config? with
  | some config => (Session.run config turns).seen
  | none => .empty

theorem remembered_concat (config : Config curve) (turns : List Turn) (turn : Turn) :
    remembered (some config) (turns ++ [turn]) =
      turn.exchange.next ⟨config, remembered (some config) turns, turn.now⟩ := by
  rw [remembered, Session.run, List.foldl_append]
  exact Session.seen_turn _ turn

/-- What is remembered is a fold over the accepted exchanges: one about the distinguished key
replaces both heads, a search or monitoring only the last one. -/
theorem remembered_concat_of_verify {config : Config curve} {turns : List Turn} {turn : Turn}
    {report : Report}
    (h : (turn.exchange.verify ⟨config, remembered (some config) turns, turn.now⟩).result =
      .ok report) :
    remembered (some config) (turns ++ [turn]) =
      match turn.exchange.topic with
      | .distinguished => (remembered (some config) turns).acceptDistinguished report.head
      | .search => (remembered (some config) turns).accept report.head
      | .monitor => (remembered (some config) turns).accept report.head := by
  rw [remembered_concat, Exchange.next, h]
  exact Exchange.after_of_verify h _

/-- The files after some runs are in order if what they keep is what a session remembers that goes
through the accepted exchanges. -/
structure InStep (files : FileAccess (StateM σ)) (places : Places) (config? : Option (Config curve))
    (s : σ) (turns : List Turn) : Prop where
  configuration?_eq : configuration? (files.readAt s places.config) = config?
  ofReading_eq :
    LastSeen.ofReading (files.readAt s places.state) = .ok (remembered config? turns)

section InStep

variable {invocation : Invocation σ} {files : FileAccess (StateM σ)} {clock : StateM σ Int64}
  {places : Places} {Apart : String → String → Prop} {config? : Option (Config curve)} {s : σ}
  {turns : List Turn}

/-- A run does to what is remembered what a session does with the exchange. -/
theorem InStep.filesAfter (h : InStep files places config? s turns) (hfiles : files.Lawful Apart)
    (hplaces : places.Distinct Apart) (hfits : invocation.Fits files places) :
    InStep files places config? (invocation.filesAfter files clock s)
      (turns ++ (invocation.accepted? files clock s).toList) := by
  have hfound : LastSeen.ofReading (files.readAt (invocation.prepare s) places.state) =
      .ok (remembered config? turns) := (hfits.keeps_state s).symm ▸ h.ofReading_eq
  have hperform := hfits.concludes_perform clock hfiles hfound
  refine ⟨?_, ?_⟩
  · rw [Invocation.filesAfter, hperform.readAt_config hfiles hplaces, hfits.keeps_config,
      h.configuration?_eq]
  · rw [Invocation.accepted?]
    split
    · rename_i hcode
      obtain ⟨report, hverdict, -⟩ := hperform.code_eq_zero_iff.mp hcode
      obtain ⟨config, exchange, hconfig, hexchange, hverify⟩ :=
        Invocation.exists_of_verdict? hverdict
      rw [hfits.keeps_config, h.configuration?_eq] at hconfig
      subst hconfig
      rw [hverdict] at hperform
      rw [hexchange, Option.map_some, Option.toList_some, remembered_concat, Exchange.next, hverify]
      exact hperform.ofReading_eq hfiles hcode
    · rename_i hcode
      rw [Option.toList_none, List.append_nil, Invocation.filesAfter,
        hperform.readAt_eq hfiles hplaces hcode, hfound]

theorem InStep.runs (hfiles : files.Lawful Apart) (hplaces : places.Distinct Apart)
    {start : σ} (hstart : files.readAt start places.state = .absent)
    {invocations : List (Invocation σ)}
    (hfits : ∀ invocation ∈ invocations, invocation.Fits files places) :
    InStep files places (configuration? (files.readAt start places.config))
      (runs files clock start invocations).1 (runs files clock start invocations).2 := by
  induction invocations using List.reverseRecOn with
  | nil =>
    refine ⟨rfl, ?_⟩
    change LastSeen.ofReading (files.readAt start places.state) = _
    rw [hstart]
    cases configuration? (files.readAt start places.config) with
    | none => rfl
    | some config => rfl
  | append_singleton before invocation ih =>
    have hbefore := ih fun earlier hearlier => hfits earlier (List.mem_append_left _ hearlier)
    have hlast := hfits invocation (List.mem_append_right _ List.mem_cons_self)
    rw [Command.runs, List.foldl_append]
    exact hbefore.filesAfter hfiles hplaces hlast

end InStep

/-- Runs with one configuration and one file of what is remembered, which is not there at first,
refine a session.  After any of them the file holds what a session remembers that goes through the
exchanges accepted so far, and whatever run comes next follows from the verdict about its exchange
in this session.  An exchange whose verdict cannot be kept is not accepted by its run.  Which heads
an accepted exchange replaces is what `remembered_concat_of_verify` says. -/
theorem runs_refine_session {files : FileAccess (StateM σ)} {Apart : String → String → Prop}
    {places : Places} (hfiles : files.Lawful Apart) (hplaces : places.Distinct Apart)
    (clock : StateM σ Int64) {start : σ} (hstart : files.readAt start places.state = .absent)
    {before : List (Invocation σ)}
    (hfits : ∀ invocation ∈ before, invocation.Fits files places) :
    let (s, turns) := runs files clock start before
    let seen := remembered (configuration? (files.readAt start places.config)) turns
    LastSeen.ofReading (files.readAt s places.state) = .ok seen ∧
      ∀ next : Invocation σ, next.Fits files places → next.Refines files clock places seen s := by
  have hsteps := @InStep.runs _ files clock places Apart hfiles hplaces start hstart before hfits
  exact ⟨hsteps.ofReading_eq, fun next hnext => hnext.refines hfiles hplaces hsteps.ofReading_eq⟩

/-! ## A run that is accepted

A client that monitors no entries yet learns the head of the log, which has one entry.  The log has
the base point for its keys. -/

namespace FirstMonitoring

def places : Places := ⟨"kt.json", "kt-state.json"⟩

def configText : String :=
  "\x7b\"log_id\":\"log\","
    ++ "\"service_public_key\":\"WGZmZmZmZmZmZmZmZmZmZmZmZmZmZmZmZmZmZmZmZmY=\","
    ++ "\"vrf_public_key\":\"WGZmZmZmZmZmZmZmZmZmZmZmZmZmZmZmZmZmZmZmZmY=\"\x7d"

def requestText : String := "\x7b\"keys\":[],\"consistency\":\x7b\x7d\x7d"

def responseText : String :=
  "\x7b\"tree_head\":\x7b\"tree_head\":\x7b\"tree_size\":1,\"timestamp\":1000,"
    ++ "\"root\":\"CM7Oh/pWF5z/5gKAIHlNDtmBaMBx3+LaIm0YIsX6XiY=\","
    ++ "\"signature\":\"WGZmZmZmZmZmZmZmZmZmZmZmZmZmZmZmZmZmZmZmZmYPbJYraqWdwoHQl0RdXnWgihS1W"
    ++ "VhuFK8xmnix3qoqCg==\"\x7d,\"consistency_to_last\":[],"
    ++ "\"consistency_to_distinguished\":[]\x7d,\"proofs\":[],"
    ++ "\"inclusion\":[\"CM7Oh/pWF5z/5gKAIHlNDtmBaMBx3+LaIm0YIsX6XiY=\"]\x7d"

def start : Directory := ⟨[("kt.json", some configText)]⟩

def monitor : Invocation Directory where
  prepare dir := (dir.insert "request.json" (some requestText)).insert "response.json"
    (some responseText)
  arguments := ["--now", "1970-01-01T00:00:01Z", "monitor", "--request", "request.json",
    "--response", "response.json"]
  logLevel := none
  now := 1000
  topic := .monitor
  requestPath := "request.json"
  responsePath := "response.json"

theorem temporaryPath_state : LastSeen.temporaryPath places.state = "kt-state.tmp" := by
  decide +kernel

theorem distinct_places : places.Distinct Directory.Apart where
  state_temporary := temporaryPath_state ▸ Directory.apart_of_ne (by decide) (by decide) (by decide)
  config_state := Directory.apart_of_ne (by decide) (by decide) (by decide)
  config_temporary :=
    temporaryPath_state ▸ Directory.apart_of_ne (by decide) (by decide) (by decide)

/-- A request and a response do not take the place of a file of another name. -/
theorem read_prepare {path : String} (hslash : '/' ∉ path.toList) (hrequest : path ≠ "request.json")
    (hresponse : path ≠ "response.json") (dir : Directory) :
    Directory.access.readAt (monitor.prepare dir) path = Directory.access.readAt dir path :=
  (Directory.read_insert_of_ne hslash (by decide) hresponse _ _).trans
    (Directory.read_insert_of_ne hslash (by decide) hrequest dir _)

theorem fits_monitor : monitor.Fits Directory.access places where
  parse_arguments := by decide +kernel
  keeps_config := read_prepare (by decide) (by decide) (by decide)
  keeps_state := read_prepare (by decide) (by decide) (by decide)

theorem absent_state : Directory.access.readAt start places.state = .absent := by
  decide +kernel

theorem exitCode_monitor : monitor.exitCode Directory.access (pure 0) start = 0 := by
  decide +kernel

/-- The response is accepted, and is in the session when the client monitors again. -/
theorem runs_refine_first_monitoring :
    let (s, turns) := runs Directory.access (pure 0) start [monitor]
    let config? := configuration? (Directory.access.readAt start places.config)
    monitor.exitCode Directory.access (pure 0) start = 0 ∧
      LastSeen.ofReading (Directory.access.readAt s places.state) =
        .ok (remembered config? turns) ∧
      monitor.Refines Directory.access (pure 0) places (remembered config? turns) s := by
  have hsession := runs_refine_session Directory.lawful_access distinct_places (pure 0)
    absent_state (List.forall_mem_singleton.mpr fits_monitor)
  exact ⟨exitCode_monitor, hsession.1, hsession.2 monitor fits_monitor⟩

end FirstMonitoring

end KeyTransparency.Command
