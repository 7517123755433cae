import KeyTransparency.Proofs.Response
import KeyTransparency.Proofs.Search.Path

/-!
# What a log answers

A log keeps its entries in order and stores the hashes of its tree.  For an identifier that occurs
among its first entries, it answers with the entries that a search visits, a batch proof for them,
and the opening and the value of the first entry.  The main statement says that such an answer can
always be made, and that a client who sees the root of these entries accepts it.
-/

namespace KeyTransparency

open KeyTransparency.Tree (PlacedIn PlacedLeaf Stores)

/-- An entry of a log, with what it takes to prove it. -/
structure LogEntry where
  index : CommitmentIndex
  prefixProof : PrefixProof
  opening : Octets Commitment.openingSize
  value : Bytes

namespace LogEntry

def version (entry : LogEntry) : Version := ⟨entry.index, entry.prefixProof.counter⟩

/-- The step that shows an entry, which commits to its value at its position. -/
def step (entry : LogEntry) (position : Nat) : ProofStep :=
  ⟨entry.index, entry.prefixProof,
    Commitment.commit entry.opening (UInt64.ofNat position) entry.value⟩

end LogEntry

/-- A log in order. -/
structure Log where
  entries : List LogEntry
  ordered : Ordered (entries.map LogEntry.version)
  length_copath_le : ∀ entry ∈ entries, entry.prefixProof.copath.length ≤ PrefixTree.maxDepth

namespace Log

variable {log : Log} {size : Nat}

def steps (log : Log) : List ProofStep := log.entries.mapIdx fun position entry => entry.step position

def leaves (log : Log) : List Hash := log.steps.map ProofStep.leafHash

def versions (log : Log) (size : Nat) : List Version := (log.entries.map LogEntry.version).take size

/-- The root of the first entries of a log. -/
def root (log : Log) (size : Nat) : Hash := Tree.root (log.leaves.take size)

def head (log : Log) (size : UInt64) (timestamp : Int64) : VerifiedTreeHead :=
  ⟨size, timestamp, log.root size.toNat⟩

/-- An identifier that occurs among the first entries of a log, with its first entry. -/
structure Occurrence (log : Log) (size : Nat) where
  index : CommitmentIndex
  /-- The proof that the index is the identifier's. -/
  vrfProof : Bytes
  position : Nat
  entry : LogEntry
  entry_eq : log.entries[position]? = some entry
  first : (log.versions size).findIdx? (·.index = index) = some position

/-- The occurrence is that of an identifier whose index the proof shows. -/
def Occurrence.BelongsTo {G : PointGroup} (occurrence : log.Occurrence size) (key : SearchKey)
    (config : Config G) : Prop :=
  config.resolve key occurrence.vrfProof = .ok occurrence.index

/-- What a client finds out about an identifier. -/
def Occurrence.found (occurrence : log.Occurrence size) (key : SearchKey) : VerifiedValue :=
  ⟨key, occurrence.index, UInt64.ofNat occurrence.position, occurrence.entry.value⟩

/-- The positions that a search for an identifier visits. -/
def Occurrence.visited (occurrence : log.Occurrence size) : List Nat :=
  Search.path (log.versions size) occurrence.index 0 size

def Occurrence.steps (occurrence : log.Occurrence size) : List ProofStep :=
  occurrence.visited.filterMap (log.steps[·]?)

/-- What comes of replaying the search. -/
def Occurrence.outcome (occurrence : log.Occurrence size) : Search.Outcome :=
  ⟨occurrence.position, occurrence.steps.length - 1,
    placedLeaves occurrence.visited occurrence.steps⟩

/-- What the log answers about an identifier, from its stored hashes. -/
def answer (stored : Array Hash) (occurrence : log.Occurrence size) :
    Except TreeError IdentifierProof := do
  let inclusion ← Tree.proveBatch size occurrence.visited.mergeSort (.ofStored stored)
  return ⟨occurrence.vrfProof,
    ⟨UInt64.ofNat occurrence.position, occurrence.steps, inclusion⟩,
    occurrence.entry.opening.bytes, ⟨occurrence.entry.value⟩⟩

/-! ## The entries of a log -/

theorem length_leaves (log : Log) : log.leaves.length = log.entries.length := by
  rw [leaves, steps, List.length_map, List.length_mapIdx]

theorem length_take_leaves (hsize : size ≤ log.entries.length) :
    (log.leaves.take size).length = size := by
  rw [List.length_take, length_leaves, Nat.min_eq_left hsize]

theorem length_versions (hsize : size ≤ log.entries.length) :
    (log.versions size).length = size := by
  rw [versions, List.length_take, List.length_map, Nat.min_eq_left hsize]

theorem ordered_versions (log : Log) (size : Nat) : Ordered (log.versions size) :=
  log.ordered.take size

theorem getElem?_steps {position : Nat} {step : ProofStep} :
    log.steps[position]? = some step ↔
      ∃ entry, log.entries[position]? = some entry ∧ entry.step position = step := by
  rw [steps, List.getElem?_mapIdx, Option.map_eq_some_iff]

theorem getElem?_leaves {position : Nat} {step : ProofStep}
    (h : log.steps[position]? = some step) : log.leaves[position]? = some step.leafHash := by
  rw [leaves, List.getElem?_map, h]
  rfl

theorem getElem?_versions {position : Nat} (hposition : position < size) {entry : LogEntry}
    (h : log.entries[position]? = some entry) :
    (log.versions size)[position]? = some entry.version := by
  rw [versions, List.getElem?_take_of_lt hposition, List.getElem?_map, h]
  rfl

theorem shows_step (log : Log) {position : Nat} {entry : LogEntry}
    (h : log.entries[position]? = some entry) : (entry.step position).Shows entry.version :=
  ⟨rfl, rfl, log.length_copath_le entry (List.mem_of_getElem? h)⟩

theorem forall₂_steps {positions : List Nat} (h : ∀ position ∈ positions, position < size)
    (hsize : size ≤ log.entries.length) :
    List.Forall₂ (fun position step => position < size ∧ log.steps[position]? = some step)
      positions (positions.filterMap (log.steps[·]?)) := by
  induction positions with
  | nil => exact .nil
  | cons position positions ih =>
    obtain ⟨hposition, hrest⟩ := List.forall_mem_cons.mp h
    have hbound : position < log.steps.length := by
      rw [steps, List.length_mapIdx]
      omega
    have hstep := List.getElem?_eq_getElem hbound
    rw [List.filterMap_cons_some hstep]
    exact .cons ⟨hposition, hstep⟩ (ih hrest)

theorem placedIn_placedLeaves {positions : List Nat} {steps : List ProofStep}
    (h : List.Forall₂ (fun position step => position < size ∧ log.steps[position]? = some step)
      positions steps) :
    PlacedIn (log.leaves.take size) (placedLeaves positions steps) := by
  induction h with
  | nil =>
    intro leaf hleaf
    cases hleaf
  | cons hstep _ ih =>
    intro leaf hleaf
    rcases List.mem_cons.mp hleaf with rfl | hlater
    · rw [List.getElem?_take_of_lt hstep.1]
      exact getElem?_leaves hstep.2
    · exact ih leaf hlater

/-! ## The search -/

namespace Occurrence

variable (occurrence : log.Occurrence size)

theorem position_lt : occurrence.position < size := by
  have hbound := (List.findIdx?_eq_some_iff_getElem.mp occurrence.first).1
  rw [versions, List.length_take] at hbound
  omega

theorem forall₂_visited (hsize : size ≤ log.entries.length) :
    List.Forall₂ (fun position step => position < size ∧ log.steps[position]? = some step)
      occurrence.visited occurrence.steps :=
  forall₂_steps (fun _ hposition => (Search.bounds_of_mem_path hposition).2) hsize

theorem shownAt_visited (hsize : size ≤ log.entries.length) :
    ShownAt (log.versions size) occurrence.visited occurrence.steps := by
  refine (occurrence.forall₂_visited hsize).imp ?_
  rintro position step ⟨hposition, hstep⟩
  obtain ⟨entry, hentry, rfl⟩ := getElem?_steps.mp hstep
  exact ⟨entry.version, getElem?_versions hposition hentry, log.shows_step hentry⟩

/-- The search that the log shows ends at the first entry of the identifier. -/
theorem verify_steps (hsize : size ≤ log.entries.length) :
    Search.verify occurrence.steps occurrence.index size occurrence.position =
      .ok occurrence.outcome := by
  have hverify := @Search.verify_of_shownAt _ _ (log.ordered_versions size) _ occurrence.first
    occurrence.steps
  rw [length_versions hsize] at hverify
  exact hverify (occurrence.shownAt_visited hsize)

theorem getElem?_steps_outcome (hsize : size ≤ log.entries.length) :
    occurrence.steps[occurrence.outcome.step]? =
      some (occurrence.entry.step occurrence.position) := by
  obtain ⟨-, -, -, last, found, htrace, -⟩ :=
    Search.trace_of_verify (occurrence.verify_steps hsize)
  obtain ⟨hlast, -, -, hindex, hcounter⟩ := htrace.last_spec
  rw [outcome, ← List.getLast?_eq_getElem?, hlast]
  -- the last step shows the first version, which stands at one position only
  obtain ⟨position, hposition, hstep⟩ := List.mem_filterMap.mp (List.mem_of_getLast? hlast)
  obtain ⟨entry, hentry, rfl⟩ := getElem?_steps.mp hstep
  have hbound : position < size := (Search.bounds_of_mem_path hposition).2
  have hversion : entry.version = .first occurrence.index := by
    rw [← hindex]
    exact congrArg (Version.mk _) hcounter
  have hfirst := getElem?_versions hbound hentry
  rw [hversion] at hfirst
  have hfound := Search.findIdx?_eq_some_of_first (log.ordered_versions size) hfirst
  cases hfound.symm.trans occurrence.first
  cases hentry.symm.trans occurrence.entry_eq
  rfl

/-! ## The answer -/

/-- The log can prove that it contains the entries visited, and the proof is accepted. -/
theorem exists_inclusion {stored : Array Hash} (hstores : Stores stored log.leaves)
    (hsize : size ≤ log.entries.length) :
    ∃ set inclusion,
      LeafSet.ofLeaves occurrence.outcome.touched = .ok set ∧
        Tree.proveBatch size occurrence.visited.mergeSort (.ofStored stored) = .ok inclusion ∧
        set.verify size (log.root size) inclusion = .ok () := by
  have hvisited := occurrence.forall₂_visited hsize
  have hpositions := (occurrence.shownAt_visited hsize).map_position
  have hdistinct : occurrence.visited.Nodup := Search.nodup_path 0 size
  rw [← hpositions] at hdistinct
  obtain ⟨set, hset, hsorted⟩ := LeafSet.exists_ofLeaves hdistinct
  rw [hpositions] at hsorted
  have hplaced : PlacedIn (log.leaves.take size) set.leaves := by
    intro leaf hleaf
    exact placedIn_placedLeaves hvisited leaf ((LeafSet.mem_leaves_ofLeaves hset leaf).mp hleaf)
  have hpos := Nat.zero_lt_of_lt occurrence.position_lt
  have hlength := length_take_leaves hsize
  have hproof := hstores.proveBatch_eq_ok hpos (log.length_leaves ▸ hsize)
    (List.pairwise_map.mpr set.sorted) ?_
  · have hverify := LeafSet.verify_batchHashes hplaced (by omega)
    rw [hlength] at hverify
    rw [hsorted] at hproof hverify
    exact ⟨set, _, hset, hproof, hverify⟩
  · intro position hposition
    obtain ⟨leaf, hleaf, rfl⟩ := List.mem_map.mp hposition
    exact hlength ▸ hplaced.position_lt hleaf

end Occurrence

variable {G : PointGroup}

/-- The log can answer about every identifier among its first entries, and a client who knows the
identifier's index and the root of these entries finds the first entry. -/
theorem exists_answer {stored : Array Hash} (hstores : Stores stored log.leaves) {size : UInt64}
    (hsize : size.toNat ≤ log.entries.length) (occurrence : log.Occurrence size.toNat)
    {config : Config G} {key : SearchKey}
    (hkey : occurrence.BelongsTo key config) (timestamp : Int64) :
    ∃ proof, answer stored occurrence = .ok proof ∧
      (proof.verify key config (log.head size timestamp)).result =
        .ok (occurrence.found key) := by
  obtain ⟨set, inclusion, hset, hproof, hincluded⟩ := occurrence.exists_inclusion hstores hsize
  have hposition : (UInt64.ofNat occurrence.position).toNat = occurrence.position :=
    UInt64.toNat_ofNat_of_lt' (Nat.lt_trans occurrence.position_lt size.toNat_lt)
  have hsearch := occurrence.verify_steps hsize
  rw [← hposition] at hsearch
  refine ⟨_, bind_eq_ok_iff.mpr ⟨inclusion, hproof, rfl⟩, ?_⟩
  refine IdentifierProof.verify_eq_ok_iff.mpr ⟨occurrence.index, occurrence.outcome,
    occurrence.entry.step occurrence.position, hkey, ?_, ?_, rfl⟩
  · exact IdentifierProof.locate_eq_ok_iff.mpr
      ⟨hsearch, occurrence.getElem?_steps_outcome hsize⟩
  · exact IdentifierProof.checkEntry_eq_ok_iff.mpr
      ⟨Commitment.opens_commit _ _ _, set, hset, hincluded⟩

end Log

end KeyTransparency
