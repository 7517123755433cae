import KeyTransparency.Search
import KeyTransparency.Words.Run

/-!
# Prefix proofs and searches, checked in words

The checks of prefix proofs and search proofs as they are carried out in words.  A prefix proof
looks up the bits of an index by numbers that are counted down from the length of its copath, and a
search moves the bounds of an interval.
-/

namespace KeyTransparency.Words

/-! ## Prefix proofs -/

/-- Bit `i` of an index, if it has that many bits. -/
def bit? (index : CommitmentIndex) (i : Nat) : Option Bool := do
  let byte ← member? (i / 8) index.bytes
  let shift ← difference? 7 (i % 8)
  if shift < 8 then some (byte.toNat.testBit shift) else none

/-- The root above a node on the way of an index, at a level that is counted from the leaf of a path
of the given depth. -/
def rootAbove? (index : CommitmentIndex) (depth : Nat) :
    (level : Nat) → (node : Hash) → (copath : List Hash) → Option Hash
  | _, node, [] => some node
  | level, node, sibling :: above => do
    let place ← difference? (← difference? depth 1) level
    let right ← bit? index place
    let parent :=
      if right then PrefixTree.nodeHash sibling node else PrefixTree.nodeHash node sibling
    rootAbove? index depth (level + 1) parent above

/-- The root that a proof leads to, if the proof is not too long and its counter has reached the
bound, where one is given. -/
def verifyPrefix (index : CommitmentIndex) (proof : PrefixProof) (bound : Option UInt32) :
    Run PrefixError Hash := do
  let depth := proof.copath.length
  if PrefixTree.maxDepth < depth then throw (.pathTooLong depth)
  if let some least := bound then
    if proof.counter < least then throw (.versionRegression proof.counter least)
  rootAbove? index depth 0 (PrefixTree.leafHash index proof.counter) proof.copath

/-- The leaf of the log for an entry, if its prefix proof is in order. -/
def leaf (step : ProofStep) (bound : Option UInt32) : Run PrefixError Hash := do
  return entryLeafHash (← verifyPrefix step.index step.prefixProof bound) step.commitment

/-! ## Searches -/

/-- How far a search has come. -/
structure Progress where
  lo : UInt64
  hi : UInt64
  /-- The position of the identifier's first entry, and the number of the step that showed it. -/
  found : Option (UInt64 × Nat)
  /-- The position and the counter of the last entry of the identifier that was visited. -/
  latestMatch : Option (UInt64 × UInt32)
  /-- The leaves visited, last first. -/
  touched : List Tree.PlacedLeaf

/-- The position that a search between `lo` and `hi` visits next. -/
def midpoint? (lo hi : UInt64) : Option UInt64 := do
  add? lo ((← sub? hi lo) / 2)

/-- What a search has come to when there are no more steps. -/
def conclude (progress : Progress) (claimed : UInt64) : Except SearchError Search.Outcome :=
  match progress.found, progress.latestMatch with
  | some (position, step), _ =>
    if position = claimed then .ok ⟨position.toNat, step, progress.touched.reverse⟩
    else .error (.pathInconsistent (.endsElsewhere position.toNat claimed.toNat))
  | none, latestMatch =>
    if progress.lo < progress.hi then .error (.pathInconsistent .stepsMissing)
    else
      match latestMatch with
      | some (position, counter) =>
        .error (.pathInconsistent (.noFirstVersion counter position.toNat))
      | none => .error (.notFound progress.lo.toNat)

/-- Checks that an entry is an older version than the one visited before it. -/
def checkOlder (latestMatch : Option (UInt64 × UInt32)) (counter : UInt32) :
    Except SearchError Unit :=
  Search.checkOlder (latestMatch.map fun (position, later) => (position.toNat, later)) counter

/-- Replays step `i` of a search of `count` steps. -/
def visit (target : CommitmentIndex) (count : Nat) (progress : Progress) (i : Nat)
    (step : ProofStep) : Run SearchError Progress :=
  if progress.found.isSome then do
    throw (.pathInconsistent (.stepsAfterEnd (← difference? count i)))
  else if progress.hi ≤ progress.lo then do
    throw (.pathInconsistent (.stepsAfterEmpty (← difference? count i)))
  else do
    let position ← midpoint? progress.lo progress.hi
    let leaf ← (leaf step none).adapt (SearchError.prefixAt position.toNat)
    let touched := ⟨position.toNat, leaf⟩ :: progress.touched
    if step.index < target then do
      let lo ← add? position 1
      return { progress with lo, touched }
    else if target < step.index then return { progress with hi := position, touched }
    else do
      checkOlder progress.latestMatch step.counter
      let latestMatch := some (position, step.counter)
      if step.counter = 0 then
        return { progress with found := some (position, i), latestMatch, touched }
      else return { progress with hi := position, latestMatch, touched }

/-- Replays the rest of a search of `count` steps, from step `i` on. -/
def replay (target : CommitmentIndex) (claimed : UInt64) (count : Nat) :
    Progress → (i : Nat) → List ProofStep → Run SearchError Search.Outcome
  | progress, _, [] => conclude progress claimed
  | progress, i, step :: rest => do
    let next ← visit target count progress i step
    replay target claimed count next (i + 1) rest

/-- Replays the search for an index in a log of `size` entries, and checks that it ends at the
claimed position. -/
def verifySearch (steps : List ProofStep) (target : CommitmentIndex) (size claimed : UInt64) :
    Run SearchError Search.Outcome :=
  if size ≤ claimed then throw (.positionOutOfRange claimed.toNat size.toNat)
  else replay target claimed steps.length ⟨0, size, none, none, []⟩ 0 steps

end KeyTransparency.Words
