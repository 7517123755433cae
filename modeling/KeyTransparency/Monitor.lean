import KeyTransparency.LeafSet
import KeyTransparency.Search
import KeyTransparency.Tree.Frontier

/-!
# Monitoring proofs

A client that knows the entry of an identifier watches the entry itself and its frontier.  A later
version of the identifier has to show on the frontier with a higher counter, and nothing on the
frontier may sort before what precedes it.
-/

namespace KeyTransparency

/-- An entry that a client watches. -/
structure MonitorKey where
  searchKey : SearchKey
  entryPosition : UInt64
  commitmentIndex : CommitmentIndex
  counter : UInt32
deriving DecidableEq

/-- The watched entry, followed by the entries on its frontier. -/
structure MonitorProof where
  steps : List ProofStep
deriving DecidableEq

/-- What monitoring found about an identifier. -/
structure MonitoredKey where
  searchKey : SearchKey
  entryPosition : UInt64
  latestCounter : UInt32
deriving DecidableEq

namespace MonitorKey

/-- The position of the watched entry. -/
def position (key : MonitorKey) : Nat := key.entryPosition.toNat

/-- Checks the step that shows the watched entry. -/
def checkEntry (key : MonitorKey) (step : ProofStep) : Collect Unit := do
  if step.index < key.commitmentIndex then
    throw (.searchPathInconsistent (.sortsBefore key.position))
  if step.index ≠ key.commitmentIndex then
    throw (.searchPathInconsistent (.otherIdentifier key.position))
  let leaf ← match step.leaf (some key.counter) with
    | .ok leaf => pure leaf
    | .error error => throw (VerificationError.ofPrefix key.position error)
  if step.counter ≠ key.counter then
    throw (.searchPathInconsistent (.counterDiffers key.position step.counter key.counter))
  Collect.insert ⟨key.position, leaf⟩

/-- Checks the steps that show the frontier, and finds the counter of the identifier's latest
version.  The indexes must not fall below `floor`, and a later version must raise the counter above
`latest`. -/
def checkFrontier (key : MonitorKey) :
    (latest : UInt32) → (floor : CommitmentIndex) → List Nat → List ProofStep → Collect UInt32
  | latest, floor, position :: positions, step :: steps => do
    if step.index < floor then throw (.searchPathInconsistent (.sortsBefore position))
    let same := step.index = key.commitmentIndex
    let leaf ← match step.leaf (if same then some latest else none) with
      | .ok leaf => pure leaf
      | .error error => throw (VerificationError.ofPrefix position error)
    if same ∧ step.counter = latest then
      throw (.versionRegression position step.counter latest)
    Collect.insert ⟨position, leaf⟩
    checkFrontier key (if same then step.counter else latest) step.index positions steps
  | latest, _, _, _ => return latest

/-- Checks the monitoring proof for a key in a tree of `size` entries, collecting the leaves that it
implies. -/
def verify (key : MonitorKey) (proof : MonitorProof) (size : Nat) : Collect MonitoredKey := do
  if size ≤ key.position then throw (.positionOutOfRange key.position size)
  let wanted := (Tree.monitoredPositions key.position size).length
  let given := proof.steps.length
  if given < wanted then throw (.frontierIncomplete wanted given)
  if wanted < given then throw (.malformedProof (.monitorSteps given wanted))
  let some entry := proof.steps.head? | throw (.frontierIncomplete wanted given)
  key.checkEntry entry
  let latest ← key.checkFrontier key.counter key.commitmentIndex
    (Tree.frontier key.position size) proof.steps.tail
  return ⟨key.searchKey, key.entryPosition, latest⟩

end MonitorKey

end KeyTransparency
