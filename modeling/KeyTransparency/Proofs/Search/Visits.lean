import KeyTransparency.Proofs.Search.Versions

/-!
# The entries that a search visits

Every step of a verified search stands for a leaf of its own at a position of its own.  Each visit
leaves at most half of what was left, so there are no more visits than the size of the log has
binary digits, and the last of them is at the position where the search ends.  The leaves visited
can therefore be collected in a set, and the positions of the set are those that a batch proof asks
for.
-/

namespace KeyTransparency

open KeyTransparency.Tree (PlacedLeaf)

namespace Search

variable {target : CommitmentIndex}

namespace Trace

variable {lo hi : Nat} {steps : List ProofStep} {touched : List PlacedLeaf} {last : ProofStep}
  {found : PlacedLeaf}

/-- Each visit leaves at most half of the positions for the visits after it. -/
theorem two_pow_length_le (h : Trace target lo hi steps touched last found) :
    2 ^ touched.length ≤ 2 * (hi - lo) := by
  induction h with
  | found hopen hleaf hway =>
    rw [List.length_singleton]
    omega
  | right hopen hleaf hway hrest ih =>
    rw [List.length_cons, Nat.pow_succ]
    unfold midpoint at ih
    omega
  | left hopen hleaf hway hrest ih =>
    rw [List.length_cons, Nat.pow_succ]
    unfold midpoint at ih
    omega

theorem getLast?_touched (h : Trace target lo hi steps touched last found) :
    touched.getLast? = some found := by
  induction h with
  | found hopen hleaf hway => rfl
  | right hopen hleaf hway hrest ih =>
    rw [List.getLast?_cons, ih]
    rfl
  | left hopen hleaf hway hrest ih =>
    rw [List.getLast?_cons, ih]
    rfl

end Trace

/-- What the visits of a search in a log of `size` entries have in common. -/
structure Visits (steps : List ProofStep) (target : CommitmentIndex) (size : Nat)
    (outcome : Outcome) : Prop where
  /-- No position is visited twice. -/
  distinct : (outcome.touched.map (·.position)).Nodup
  below : ∀ leaf ∈ outcome.touched, leaf.position < size
  /-- The leaves visited are those of the steps, one after the other. -/
  leaves : List.Forall₂ ProofStep.HasLeaf steps outcome.touched
  length_le : outcome.touched.length ≤ size.log2 + 1
  /-- The search ends with a step that shows the first version of the identifier. -/
  ends : ∃ step leaf, steps[outcome.step]? = some step ∧
    outcome.touched[outcome.step]? = some leaf ∧ leaf.position = outcome.position ∧
    step.index = target ∧ step.counter = 0

variable {steps : List ProofStep} {size claimed : Nat} {outcome : Outcome}

theorem Visits.length_touched (h : Visits steps target size outcome) :
    outcome.touched.length = steps.length := h.leaves.length_eq.symm

/-- A verified search visits different positions of the log, one for each step. -/
theorem visits_spec (h : verify steps target size claimed = .ok outcome) :
    Visits steps target size outcome := by
  obtain ⟨hclaimed, -, hstep, last, found, htrace, hposition⟩ := trace_of_verify h
  obtain ⟨hlast, -, -, hindex, hcounter⟩ := htrace.last_spec
  have hlength : steps.length = outcome.touched.length := htrace.hasLeaf.length_eq
  have hend : steps.length - 1 = outcome.step := by omega
  constructor
  · exact htrace.nodup_positions
  · intro leaf hmem
    exact (htrace.bounds leaf hmem).2
  · exact htrace.hasLeaf
  · have hpow := htrace.two_pow_length_le
    obtain ⟨visits, hvisits⟩ : ∃ visits, outcome.touched.length = visits + 1 :=
      ⟨outcome.step, by omega⟩
    rw [hvisits, Nat.pow_succ] at hpow
    rw [hvisits]
    exact Nat.succ_le_succ ((Nat.le_log2 (by omega)).mpr (by omega))
  · refine ⟨last, found, ?_, ?_, hposition.symm, hindex, hcounter⟩
    · rw [← hend, ← List.getLast?_eq_getElem?]
      exact hlast
    · rw [← hend, hlength, ← List.getLast?_eq_getElem?]
      exact htrace.getLast?_touched

/-- The leaves visited do not contradict each other, and they stand at positions that a batch proof
may ask for. -/
theorem Visits.exists_ofLeaves (h : Visits steps target size outcome) :
    ∃ leaves, LeafSet.ofLeaves outcome.touched = .ok leaves ∧
      Tree.checkPositions size leaves.positions = .ok () := by
  obtain ⟨leaves, hleaves, -⟩ := LeafSet.exists_ofLeaves h.distinct
  refine ⟨leaves, hleaves, Tree.checkPositions_eq_ok_iff.mpr ⟨?_, ?_, ?_⟩⟩
  · obtain ⟨-, leaf, -, hleaf, -⟩ := h.ends
    exact Nat.lt_of_le_of_lt (Nat.zero_le _) (h.below leaf (List.mem_of_getElem? hleaf))
  · exact List.pairwise_map.mpr leaves.sorted
  · intro position hmem
    obtain ⟨leaf, hleaf, rfl⟩ := List.mem_map.mp hmem
    exact h.below leaf ((LeafSet.mem_leaves_ofLeaves hleaves leaf).mp hleaf)

end Search

end KeyTransparency
