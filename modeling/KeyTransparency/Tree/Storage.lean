import KeyTransparency.Tree.Error
import KeyTransparency.Tree.Layout
import KeyTransparency.Tree.Root

/-!
# Stored hashes

Proofs are made from stored hashes, which are read through a `HashReader`.  A `Plan` names the
places it wants to read and says what it makes of the hashes found there.  Plans are combined, and
only the whole plan is run, so that all hashes for one proof are read at once, and each part of a
plan gets as many hashes as it asked for.
-/

namespace KeyTransparency.Tree

/-- A way to read the hashes stored at the given places. -/
abbrev HashReader := List Nat → Except TreeError (List Hash)

/-- Reads from a list of stored hashes. -/
def HashReader.ofStored (stored : Array Hash) : HashReader := fun indexes =>
  indexes.mapM fun index =>
    match stored[index]? with
    | some hash => .ok hash
    | none => .error (.invalidInput (.notStored index))

/-- Reads one hash for every place.  Nothing is read if nothing is wanted. -/
def readExactly (reader : HashReader) (indexes : List Nat) : Except TreeError (List Hash) :=
  if indexes = [] then .ok []
  else do
    let hashes ← reader indexes
    if hashes.length = indexes.length then .ok hashes
    else .error (.invalidInput (.readCount hashes.length indexes.length))

/-- The hash of a range of leaves from the hashes of the complete subtrees that make it up. -/
def foldSubtrees : List Hash → Hash
  | [] => emptyTreeHash
  | [hash] => hash
  | hash :: rest => nodeHash hash (foldSubtrees rest)

/-- What to read, and what to make of the hashes read. -/
structure Plan (α : Type) where
  indexes : List Nat
  build : List Hash → α

namespace Plan

variable {α β : Type}

/-- Reads nothing. -/
def pure (a : α) : Plan α := ⟨[], fun _ => a⟩

/-- Does something more with the result. -/
def map (f : α → β) (p : Plan α) : Plan β := ⟨p.indexes, fun hashes => f (p.build hashes)⟩

/-- Reads for one plan and then for another. -/
def both (p : Plan α) (q : Plan β) : Plan (α × β) where
  indexes := p.indexes ++ q.indexes
  build hashes :=
    (p.build (hashes.take p.indexes.length), q.build (hashes.drop p.indexes.length))

/-- Finds the hash of `size` leaves from `start` on. -/
def rangeHash (start size : Nat) : Plan Hash := ⟨subtreeIndexes start size, foldSubtrees⟩

/-- Carries out a plan. -/
def run (p : Plan α) (reader : HashReader) : Except TreeError α := do
  return p.build (← readExactly reader p.indexes)

end Plan

/-- The hashes of the subtrees that end with a subtree whose hash is `last`, itself included, from
the hashes of their left halves, the smallest first. -/
def completed (last : Hash) : (lefts : List Hash) → List Hash
  | [] => [last]
  | left :: rest => last :: completed (nodeHash left last) rest

/-- The hashes to store when leaf `n` is appended: the leaf's hash and that of every subtree it
completes.  The left halves of these subtrees are read, the largest first. -/
def appendHashes (n : Nat) (leaf : Hash) (reader : HashReader) : Except TreeError (List Hash) := do
  let lefts := (List.range (trailingOnes n)).map fun level => storedIndex level ((n >>> level) - 1)
  let hashes ← readExactly reader lefts.reverse
  return completed leaf hashes.reverse

/-- The root of the tree of the first `size` leaves. -/
def treeHash (size : Nat) (reader : HashReader) : Except TreeError Hash :=
  (Plan.rangeHash 0 size).run reader

end KeyTransparency.Tree
