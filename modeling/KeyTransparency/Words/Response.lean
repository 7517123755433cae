import KeyTransparency.Verification
import KeyTransparency.Words.Frontier
import KeyTransparency.Words.Head
import KeyTransparency.Words.Search

/-!
# Monitoring responses, checked in words

The checks of monitoring proofs and of the responses that hold them as they are carried out in
words.  The positions of the leaves that are collected are words too.
-/

namespace KeyTransparency.Words

open KeyTransparency.Tree (PlacedLeaf)

variable {G : PointGroup} {α : Type}

/-! ## Checks that collect leaves -/

/-- A check in words that collects leaves. -/
abbrev Collect := ExceptT VerificationError (StateT LeafSet Option)

instance : MonadLift (Run VerificationError) Collect :=
  ⟨fun run => ExceptT.mk fun set => run.run.map fun result => (result, set)⟩

/-- The check that does what one does that never halts. -/
def ofCollect (check : KeyTransparency.Collect α) : Collect α :=
  ExceptT.mk fun set => some (check.run set)

/-- The value of a check that starts without leaves, and the leaves that it collects. -/
def Collect.fromEmpty (check : Collect α) : Run VerificationError (α × LeafSet) :=
  ExceptT.mk <| (check.run LeafSet.empty).map fun (result, set) =>
    result.map fun value => (value, set)

/-- Puts a leaf into the set, and fails if the set had another one at its position. -/
def collect (position : UInt64) (leaf : Hash) : Collect Unit :=
  ofCollect (KeyTransparency.Collect.insert ⟨position.toNat, leaf⟩)

/-! ## Monitoring proofs -/

/-- The leaf of the log for the entry at a position, if its prefix proof is in order. -/
def leafAt (position : UInt64) (step : ProofStep) (bound : Option UInt32) :
    Run VerificationError Hash :=
  (leaf step bound).adapt (VerificationError.ofPrefix position.toNat)

/-- Checks the step that shows the watched entry. -/
def checkEntry (key : MonitorKey) (step : ProofStep) : Collect Unit := do
  if step.index < key.commitmentIndex then
    throw (.searchPathInconsistent (.sortsBefore key.position))
  if step.index ≠ key.commitmentIndex then
    throw (.searchPathInconsistent (.otherIdentifier key.position))
  let leaf ← leafAt key.entryPosition step (some key.counter)
  if step.counter ≠ key.counter then
    throw (.searchPathInconsistent (.counterDiffers key.position step.counter key.counter))
  collect key.entryPosition leaf

/-- Checks the steps that show the frontier, and finds the counter of the identifier's latest
version. -/
def checkFrontier (key : MonitorKey) :
    (latest : UInt32) → (floor : CommitmentIndex) → List UInt64 → List ProofStep → Collect UInt32
  | latest, floor, position :: positions, step :: steps => do
    if step.index < floor then throw (.searchPathInconsistent (.sortsBefore position.toNat))
    let same := step.index = key.commitmentIndex
    let leaf ← leafAt position step (if same then some latest else none)
    if same ∧ step.counter = latest then
      throw (.versionRegression position.toNat step.counter latest)
    collect position leaf
    checkFrontier key (if same then step.counter else latest) step.index positions steps
  | latest, _, _, _ => return latest

/-- Checks the monitoring proof for a key in a tree of `size` entries, collecting the leaves that it
implies. -/
def verifyMonitorProof (key : MonitorKey) (proof : MonitorProof) (size : UInt64) :
    Collect MonitoredKey := do
  if size ≤ key.entryPosition then throw (.positionOutOfRange key.position size.toNat)
  let frontier ← frontier? key.entryPosition size
  let wanted := (key.entryPosition :: frontier).length
  let given := proof.steps.length
  if given < wanted then throw (.frontierIncomplete wanted given)
  if wanted < given then throw (.malformedProof (.monitorSteps given wanted))
  let some entry := proof.steps.head? | throw (.frontierIncomplete wanted given)
  checkEntry key entry
  let latest ← checkFrontier key key.counter key.commitmentIndex frontier proof.steps.tail
  return ⟨key.searchKey, key.entryPosition, latest⟩

/-- Checks the monitoring proofs for some keys, of which there must be as many. -/
def verifyMonitorProofs (keys : List MonitorKey) (proofs : List MonitorProof) (size : UInt64) :
    Collect (List MonitoredKey) := do
  (← zip? keys proofs).mapM fun (key, proof) => verifyMonitorProof key proof size

/-! ## Responses -/

/-- The positions of the leaves in a set, if all of them are words. -/
def positions? (set : LeafSet) : Option (List UInt64) :=
  (set.leaves.map (·.position)).mapM ofNat?

/-- Checks that the tree of `size` entries with the given root contains all leaves of a set. -/
def verifyLeaves (set : LeafSet) (size : UInt64) (root : Hash) (proof : List Hash) :
    Run VerificationError Unit := do
  let positions ← positions? set
  let result ← ((evaluateBatch size positions (set.leaves.map (·.leaf)) proof).run : Option _)
  match result with
  | .ok computed => if computed = root then return () else throw .inclusionMismatch
  | .error .rootMismatch => throw .inclusionMismatch
  | .error error => throw (.malformedProof (.inclusion error))

/-- Verifies a response about monitored entries. -/
def verifyMonitor (response : MonitorResponse) (request : MonitorRequest) (trust : Trust G) :
    Run VerificationError MonitorResult := do
  let head ← verifyHead response.treeHead request.consistency trust
  if request.keys.length ≠ response.proofs.length then
    throw (.malformedProof (.monitorProofs response.proofs.length request.keys.length))
  let (keys, leaves) ←
    (verifyMonitorProofs request.keys response.proofs head.treeSize).fromEmpty
  verifyLeaves leaves head.treeSize head.root response.inclusion
  return ⟨keys, head⟩

end KeyTransparency.Words
