import KeyTransparency.Proofs.LeafSet
import KeyTransparency.Proofs.Search.Trace

/-!
# Searches that a root accepts

A search proof comes with a proof that the log contains the entries visited.  `AcceptedSearch` holds
both, together with what was checked about them: the steps replay to an outcome, their leaves do not
contradict each other, and the root commits to all of them.
-/

namespace KeyTransparency

open KeyTransparency.Tree (Contains PlacedLeaf)

/-- A search for an index whose entries are all contained in a root of `size` leaves. -/
structure AcceptedSearch (target : CommitmentIndex) (size : Nat) (root : Hash) where
  steps : List ProofStep
  /-- The position at which the search is said to end. -/
  claimed : Nat
  inclusion : List Hash
  outcome : Search.Outcome
  leaves : LeafSet
  replayed : Search.verify steps target size claimed = .ok outcome
  collected : LeafSet.ofLeaves outcome.touched = .ok leaves
  included : leaves.verify size root inclusion = .ok ()

namespace AcceptedSearch

variable {target : CommitmentIndex} {size : Nat} {root : Hash}

def messages (search : AcceptedSearch target size root) : List Bytes :=
  search.steps.flatMap ProofStep.messages ++ search.leaves.messages size search.inclusion

theorem step_lt_length (search : AcceptedSearch target size root) :
    search.outcome.step < search.steps.length := by
  have hlast := (Search.trace_of_verify search.replayed).2.2.1
  omega

/-- The step that shows the entry that was found. -/
def entry (search : AcceptedSearch target size root) : ProofStep :=
  search.steps.get ⟨search.outcome.step, search.step_lt_length⟩

theorem entryMessage_mem (search : AcceptedSearch target size root) :
    recordMessage (entryData search.entry.prefixRoot search.entry.commitment) ∈ search.messages :=
  List.mem_append_left _
    (List.mem_flatMap.mpr ⟨search.entry, List.get_mem _ _, List.mem_cons_self⟩)

theorem messages_steps_subset (search : AcceptedSearch target size root) :
    search.steps.flatMap ProofStep.messages ⊆ search.messages :=
  List.subset_append_left _ _

/-- The root commits to every entry visited. -/
theorem contains_of_mem_touched (search : AcceptedSearch target size root) {leaf : PlacedLeaf}
    (hleaf : leaf ∈ search.outcome.touched) :
    Contains search.messages size root leaf.position leaf.leaf := by
  have hmem := (LeafSet.mem_leaves_ofLeaves search.collected leaf).mpr hleaf
  exact (LeafSet.contains_of_verify search.included hmem).mono (List.subset_append_right _ _)

/-- A search has a trace that ends in the entry found. -/
theorem exists_trace (search : AcceptedSearch target size root) :
    ∃ found, Search.Trace target 0 size search.steps search.outcome.touched search.entry found ∧
      search.outcome.position = found.position := by
  obtain ⟨-, -, hlength, last, found, htrace, hposition⟩ :=
    Search.trace_of_verify search.replayed
  have hlast := htrace.last_spec.1
  have hindex : search.steps.length - 1 = search.outcome.step := by omega
  rw [List.getLast?_eq_getElem?, hindex,
    List.getElem?_eq_getElem search.step_lt_length] at hlast
  have hentry : search.entry = last := Option.some.inj hlast
  exact ⟨found, hentry ▸ htrace, hposition⟩

/-- The last step shows the entry found, which is the first version of the identifier. -/
theorem entry_spec (search : AcceptedSearch target size root) :
    search.steps.getLast? = some search.entry ∧ search.entry.index = target ∧
      search.entry.counter = 0 ∧
      PrefixTree.verify search.entry.index search.entry.prefixProof none =
        .ok search.entry.prefixRoot := by
  obtain ⟨found, htrace, -⟩ := search.exists_trace
  obtain ⟨hlast, -, hleaf, hindex, hcounter⟩ := htrace.last_spec
  exact ⟨hlast, hindex, hcounter, ProofStep.verify_of_leaf hleaf⟩

/-- The root commits to the entry found, at the position of the outcome. -/
theorem contains_entry (search : AcceptedSearch target size root) :
    Contains search.messages size root search.outcome.position
      (entryLeafHash search.entry.prefixRoot search.entry.commitment) := by
  obtain ⟨found, htrace, hposition⟩ := search.exists_trace
  obtain ⟨-, hmem, hleaf, -⟩ := htrace.last_spec
  rw [hposition, ← ProofStep.eq_entryLeafHash_of_leaf hleaf]
  exact search.contains_of_mem_touched hmem

end AcceptedSearch

end KeyTransparency
