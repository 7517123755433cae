import KeyTransparency.Error
import KeyTransparency.Tree.Batch

/-!
# Search proofs

The log is sorted by commitment index, and the versions of one identifier are consecutive entries
with increasing counters, the first of which is zero.  A search proof lists the entries that a
binary search for an index visits.  Replaying the search shows where the identifier's first entry
lies, or that there is none.
-/

namespace KeyTransparency

open KeyTransparency.Tree (PlacedLeaf)

/-- An entry of the log as a proof shows it. -/
structure ProofStep where
  index : CommitmentIndex
  prefixProof : PrefixProof
  commitment : Hash
deriving DecidableEq

namespace ProofStep

/-- The version counter of the entry. -/
def counter (step : ProofStep) : UInt32 := step.prefixProof.counter

/-- The leaf of the log for the entry, if its prefix proof is in order. -/
def leaf (step : ProofStep) (bound : Option UInt32) : Except PrefixError Hash := do
  return entryLeafHash (← PrefixTree.verify step.index step.prefixProof bound) step.commitment

end ProofStep

namespace Search

/-- What a replayed search found. -/
structure Outcome where
  /-- The position of the identifier's first entry. -/
  position : Nat
  /-- The number of the step that showed this entry. -/
  step : Nat
  /-- The leaves of all entries visited, in the order of the visits. -/
  touched : List PlacedLeaf
deriving DecidableEq

/-- The position that a search between `lo` and `hi` visits next. -/
def midpoint (lo hi : Nat) : Nat := lo + (hi - lo) / 2

/-- How far a search has come. -/
structure Progress where
  lo : Nat
  hi : Nat
  /-- The position and the counter of the last entry of the identifier that was visited. -/
  latestMatch : Option (Nat × UInt32)
  /-- The leaves visited, last first. -/
  touched : List PlacedLeaf

/-- What a search shows that has no more steps and has not found a first entry. -/
def unfinished (progress : Progress) : SearchError :=
  if progress.lo < progress.hi then .pathInconsistent .stepsMissing
  else
    match progress.latestMatch with
    | some (position, counter) => .pathInconsistent (.noFirstVersion counter position)
    | none => .notFound progress.lo

/-- What a search shows that has found a first entry, with `later` more steps given. -/
def finished (progress : Progress) (leaf : PlacedLeaf) (claimed later : Nat) :
    Except SearchError Outcome :=
  if 0 < later then .error (.pathInconsistent (.stepsAfterEnd later))
  else if leaf.position = claimed then
    .ok ⟨leaf.position, progress.touched.length, (leaf :: progress.touched).reverse⟩
  else .error (.pathInconsistent (.endsElsewhere leaf.position claimed))

/-- Checks that an entry is an older version than the one visited before it. -/
def checkOlder (latestMatch : Option (Nat × UInt32)) (counter : UInt32) :
    Except SearchError Unit :=
  match latestMatch with
  | some (later, laterCounter) =>
    if laterCounter ≤ counter then .error (.versionRegression later laterCounter counter)
    else .ok ()
  | none => .ok ()

/-- Replays the rest of a search. -/
def replay (target : CommitmentIndex) (claimed : Nat) :
    Progress → List ProofStep → Except SearchError Outcome
  | progress, [] => .error (unfinished progress)
  | progress, step :: rest => do
    if progress.hi ≤ progress.lo then
      throw (.pathInconsistent (.stepsAfterEmpty (rest.length + 1)))
    let position := midpoint progress.lo progress.hi
    let leaf ← (step.leaf none).mapError (.prefixAt position)
    let touched := ⟨position, leaf⟩ :: progress.touched
    if step.index < target then
      replay target claimed { progress with lo := position + 1, touched } rest
    else if target < step.index then
      replay target claimed { progress with hi := position, touched } rest
    else
      checkOlder progress.latestMatch step.counter
      if step.counter = 0 then finished progress ⟨position, leaf⟩ claimed rest.length
      else
        replay target claimed
          { progress with hi := position, latestMatch := some (position, step.counter), touched }
          rest

/-- Replays the search for an index in a log of `size` entries, and checks that it ends at the
claimed position. -/
def verify (steps : List ProofStep) (target : CommitmentIndex) (size claimed : Nat) :
    Except SearchError Outcome :=
  if size ≤ claimed then .error (.positionOutOfRange claimed size)
  else replay target claimed ⟨0, size, none, []⟩ steps

end Search

end KeyTransparency
