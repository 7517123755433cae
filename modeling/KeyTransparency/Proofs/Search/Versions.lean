import KeyTransparency.Proofs.LeafSet.Agreement
import KeyTransparency.Proofs.Search.Path
import KeyTransparency.Proofs.Search.Uniqueness

/-!
# What decides a search

A replay looks at the indexes and the counters that its steps show, and hands on their leaves
without looking at them.  Steps that show the same versions are therefore visited at the same
positions and lead to the same end, whatever their leaves are.  The positions visited are all
different, one for each step, so that the leaves tell the steps apart.
-/

namespace KeyTransparency

open KeyTransparency.Tree (PlacedLeaf)

namespace ProofStep

/-- The version of an identifier that a step shows. -/
def version (step : ProofStep) : Version := ⟨step.index, step.counter⟩

theorem shows_version {step : ProofStep}
    (h : step.prefixProof.copath.length ≤ PrefixTree.maxDepth) : step.Shows step.version :=
  ⟨rfl, rfl, h⟩

/-- A step stands for a leaf of the log. -/
def HasLeaf (step : ProofStep) (leaf : PlacedLeaf) : Prop := step.leaf none = .ok leaf.leaf

theorem depth_of_leaf {step : ProofStep} {bound : Option UInt32} {leaf : Hash}
    (h : step.leaf bound = .ok leaf) : step.prefixProof.copath.length ≤ PrefixTree.maxDepth :=
  (PrefixTree.verify_eq_ok_iff.mp (verify_of_leaf h)).2.1

end ProofStep

namespace Search

variable {target : CommitmentIndex}

/-! ## The positions visited -/

namespace Trace

variable {lo hi : Nat} {steps : List ProofStep} {touched : List PlacedLeaf} {last : ProofStep}
  {found : PlacedLeaf}

theorem bounds (h : Trace target lo hi steps touched last found) :
    ∀ leaf ∈ touched, lo ≤ leaf.position ∧ leaf.position < hi := by
  induction h with
  | found hopen hleaf hway =>
    intro leaf hmem
    obtain rfl := List.mem_singleton.mp hmem
    exact ⟨le_midpoint _ _, midpoint_lt hopen⟩
  | @right lo hi step leaf rest touched last found hopen hleaf hway hrest ih =>
    have hlow := le_midpoint lo hi
    intro other hmem
    rcases List.mem_cons.mp hmem with rfl | hlater
    · exact ⟨hlow, midpoint_lt hopen⟩
    · obtain ⟨hafter, hbefore⟩ := ih other hlater
      exact ⟨by omega, hbefore⟩
  | @left lo hi step leaf rest touched last found hopen hleaf hway hrest ih =>
    have hmiddle := midpoint_lt hopen
    intro other hmem
    rcases List.mem_cons.mp hmem with rfl | hlater
    · exact ⟨le_midpoint lo hi, hmiddle⟩
    · obtain ⟨hafter, hbefore⟩ := ih other hlater
      exact ⟨hafter, by omega⟩

theorem nodup_positions (h : Trace target lo hi steps touched last found) :
    (touched.map (·.position)).Nodup := by
  induction h with
  | found hopen hleaf hway => exact List.nodup_singleton _
  | right hopen hleaf hway hrest ih =>
    rw [List.map_cons, List.nodup_cons]
    refine ⟨?_, ih⟩
    intro hmem
    obtain ⟨leaf, hlater, hposition⟩ := List.mem_map.mp hmem
    exact Nat.not_succ_le_self _ (hposition ▸ (hrest.bounds leaf hlater).1)
  | left hopen hleaf hway hrest ih =>
    rw [List.map_cons, List.nodup_cons]
    refine ⟨?_, ih⟩
    intro hmem
    obtain ⟨leaf, hlater, hposition⟩ := List.mem_map.mp hmem
    exact Nat.lt_irrefl _ (hposition ▸ (hrest.bounds leaf hlater).2)

theorem hasLeaf (h : Trace target lo hi steps touched last found) :
    List.Forall₂ ProofStep.HasLeaf steps touched := by
  induction h with
  | found hopen hleaf hway => exact .cons hleaf .nil
  | right hopen hleaf hway hrest ih => exact .cons hleaf ih
  | left hopen hleaf hway hrest ih => exact .cons hleaf ih

theorem depth_le (h : Trace target lo hi steps touched last found) :
    ∀ step ∈ steps, step.prefixProof.copath.length ≤ PrefixTree.maxDepth := by
  induction h with
  | found hopen hleaf hway => simpa using ProofStep.depth_of_leaf hleaf
  | right hopen hleaf hway hrest ih =>
    exact List.forall_mem_cons.mpr ⟨ProofStep.depth_of_leaf hleaf, ih⟩
  | left hopen hleaf hway hrest ih =>
    exact List.forall_mem_cons.mpr ⟨ProofStep.depth_of_leaf hleaf, ih⟩

end Trace

/-- Steps that show the same versions and have the same leaves are the same. -/
theorem steps_eq_of_hasLeaf {hashed : List Bytes} (hsafe : ¬Collision hashed)
    {steps steps' : List ProofStep} {touched : List PlacedLeaf}
    (h : List.Forall₂ ProofStep.HasLeaf steps touched)
    (h' : List.Forall₂ ProofStep.HasLeaf steps' touched)
    (hversions : steps.map ProofStep.version = steps'.map ProofStep.version)
    (hsteps : steps.flatMap ProofStep.messages ⊆ hashed)
    (hsteps' : steps'.flatMap ProofStep.messages ⊆ hashed) : steps = steps' := by
  induction h generalizing steps' with
  | nil =>
    cases h'
    rfl
  | cons hleaf hrest ih =>
    cases h' with
    | cons hleaf' hrest' =>
      obtain ⟨hversion, hlater⟩ := List.cons.inj hversions
      obtain ⟨hhead, htail⟩ := List.append_subset.mp hsteps
      obtain ⟨hhead', htail'⟩ := List.append_subset.mp hsteps'
      have hsame := (ProofStep.eq_of_leaf_eq hsafe hhead hhead' hleaf hleaf').2.2
        (congrArg Version.index hversion)
      rw [hsame, ih hrest' hlater htail htail']

/-! ## Replays that differ in leaves only -/

/-- Two searches have come equally far, by way of the same positions. -/
structure Progress.Alike (progress progress' : Progress) : Prop where
  lo_eq : progress'.lo = progress.lo
  hi_eq : progress'.hi = progress.hi
  latestMatch_eq : progress'.latestMatch = progress.latestMatch
  positions_eq : progress'.touched.map (·.position) = progress.touched.map (·.position)

/-- Two searches have ended alike, by way of the same positions. -/
structure Outcome.Alike (outcome outcome' : Outcome) : Prop where
  position_eq : outcome'.position = outcome.position
  step_eq : outcome'.step = outcome.step
  positions_eq : outcome'.touched.map (·.position) = outcome.touched.map (·.position)

variable {claimed : Nat} {progress progress' : Progress} {outcome : Outcome}

theorem Progress.Alike.visit (h : progress.Alike progress') (version : Version)
    (leaf leaf' : Hash) :
    (progress.visit target version leaf).Alike (progress'.visit target version leaf') := by
  obtain ⟨hlo, hhi, hlatest, hpositions⟩ := h
  constructor
  · simp only [Progress.visit, hlo, hhi]
  · simp only [Progress.visit, hlo, hhi]
  · simp only [Progress.visit, hlo, hhi, hlatest]
  · simp only [Progress.visit, hlo, hhi, List.map_cons, hpositions]

/-- What a step of a successful replay was checked for. -/
theorem shows_of_replay_cons {step : ProofStep} {rest : List ProofStep}
    (h : replay target claimed progress (step :: rest) = .ok outcome) :
    progress.lo < progress.hi ∧ step.Shows step.version ∧
      (step.version.index = target →
        checkOlder progress.latestMatch step.version.counter = .ok ()) := by
  obtain ⟨hopen, leaf, hleaf, hways⟩ := replay_cons_eq_ok h
  refine ⟨hopen, ProofStep.shows_version (ProofStep.depth_of_leaf hleaf), ?_⟩
  rintro (rfl : step.index = target)
  rcases hways with ⟨hbefore, -⟩ | ⟨hafter, -⟩ | ⟨-, holder, -⟩
  · exact absurd hbefore (CommitmentIndex.not_lt_self _)
  · exact absurd hafter (CommitmentIndex.not_lt_self _)
  · exact holder

theorem exists_alike_of_finished {leaf leaf' : PlacedLeaf} {later : Nat}
    (halike : progress.Alike progress') (hposition : leaf'.position = leaf.position)
    (h : finished progress leaf claimed later = .ok outcome) :
    ∃ outcome', finished progress' leaf' claimed later = .ok outcome' ∧
      outcome.Alike outcome' := by
  obtain ⟨hlast, hclaimed, rfl⟩ := finished_eq_ok h
  have hlength : progress'.touched.length = progress.touched.length := by
    simpa using congrArg List.length halike.positions_eq
  refine ⟨⟨leaf'.position, progress'.touched.length, (leaf' :: progress'.touched).reverse⟩, ?_, ?_⟩
  · rw [finished, if_neg (by omega), if_pos (hposition.trans hclaimed)]
  · refine ⟨hposition, hlength, ?_⟩
    simp only [List.map_reverse, List.map_cons, hposition, halike.positions_eq]

/-- Where a replay succeeds, other steps that show the same versions are replayed alike. -/
theorem exists_alike_of_replay {steps steps' : List ProofStep}
    (hversions : steps'.map ProofStep.version = steps.map ProofStep.version)
    (hdepths : ∀ step ∈ steps', step.prefixProof.copath.length ≤ PrefixTree.maxDepth)
    (halike : progress.Alike progress')
    (h : replay target claimed progress steps = .ok outcome) :
    ∃ outcome', replay target claimed progress' steps' = .ok outcome' ∧
      outcome.Alike outcome' := by
  induction steps generalizing steps' progress progress' with
  | nil => cases h
  | cons step rest ih =>
    cases steps' with
    | nil => cases hversions
    | cons step' rest' =>
      obtain ⟨hversion, hlater⟩ := List.cons.inj hversions
      have hlength : rest'.length = rest.length := by simpa using congrArg List.length hlater
      obtain ⟨hopen, hshows, holder⟩ := shows_of_replay_cons h
      rw [replay_cons_of_shows hopen hshows holder] at h
      have hshows' : step'.Shows step.version :=
        hversion ▸ ProofStep.shows_version (hdepths step' List.mem_cons_self)
      have hopen' : progress'.lo < progress'.hi := by
        rw [halike.lo_eq, halike.hi_eq]
        exact hopen
      rw [replay_cons_of_shows hopen' hshows' (halike.latestMatch_eq.symm ▸ holder), hlength]
      by_cases hfirst : step.version = .first target
      · rw [if_pos hfirst] at h ⊢
        refine exists_alike_of_finished halike ?_ h
        rw [halike.lo_eq, halike.hi_eq]
      · rw [if_neg hfirst] at h ⊢
        exact ih hlater (fun later hmem => hdepths later (List.mem_cons_of_mem _ hmem))
          (halike.visit _ _ _) h

/-- Where a search is verified, it is verified with other steps that show the same versions, and
ends alike. -/
theorem exists_alike_of_verify {steps steps' : List ProofStep} {size : Nat}
    (hversions : steps'.map ProofStep.version = steps.map ProofStep.version)
    (hdepths : ∀ step ∈ steps', step.prefixProof.copath.length ≤ PrefixTree.maxDepth)
    (h : verify steps target size claimed = .ok outcome) :
    ∃ outcome', verify steps' target size claimed = .ok outcome' ∧ outcome.Alike outcome' := by
  have hclaimed := Nat.not_le.mpr (trace_of_verify h).1
  rw [verify, if_neg hclaimed] at h
  rw [verify, if_neg hclaimed]
  exact exists_alike_of_replay hversions hdepths ⟨rfl, rfl, rfl, rfl⟩ h

/-! ## One root, one search -/

theorem visits_of_verify {steps : List ProofStep} {size : Nat}
    (h : verify steps target size claimed = .ok outcome) :
    (outcome.touched.map (·.position)).Nodup ∧
      List.Forall₂ ProofStep.HasLeaf steps outcome.touched := by
  obtain ⟨-, -, -, last, found, htrace, -⟩ := trace_of_verify h
  exact ⟨htrace.nodup_positions, htrace.hasLeaf⟩

theorem depth_le_of_verify {steps : List ProofStep} {size : Nat}
    (h : verify steps target size claimed = .ok outcome) :
    ∀ step ∈ steps, step.prefixProof.copath.length ≤ PrefixTree.maxDepth := by
  obtain ⟨-, -, -, last, found, htrace, -⟩ := trace_of_verify h
  exact htrace.depth_le

/-- The leaves of searches that end alike stand at the same positions. -/
theorem exists_ofLeaves_of_alike {steps : List ProofStep} {size : Nat} {outcome' : Outcome}
    (h : verify steps target size claimed = .ok outcome) (halike : outcome.Alike outcome')
    {leaves : LeafSet} (hleaves : LeafSet.ofLeaves outcome.touched = .ok leaves) :
    ∃ leaves', LeafSet.ofLeaves outcome'.touched = .ok leaves' ∧
      leaves'.positions = leaves.positions := by
  have hdistinct := (visits_of_verify h).1
  have hpositions := LeafSet.positions_eq_mergeSort hdistinct hleaves
  rw [← halike.positions_eq] at hdistinct hpositions
  obtain ⟨leaves', hleaves', hmerged⟩ := LeafSet.exists_ofLeaves hdistinct
  exact ⟨leaves', hleaves', hmerged.trans hpositions.symm⟩

end Search

/-- Of the searches that show the same versions at the same positions, a root accepts one. -/
theorem AcceptedSearch.steps_eq_of_alike {hashed : List Bytes} (hsafe : ¬Collision hashed)
    {target : CommitmentIndex} {size : Nat} {root : Hash}
    {first second : AcceptedSearch target size root}
    (hversions : first.steps.map ProofStep.version = second.steps.map ProofStep.version)
    (halike : first.outcome.Alike second.outcome) (hfirst : first.messages ⊆ hashed)
    (hsecond : second.messages ⊆ hashed) : first.steps = second.steps := by
  obtain ⟨hdistinct, hvisits⟩ := Search.visits_of_verify first.replayed
  obtain ⟨hdistinct', hvisits'⟩ := Search.visits_of_verify second.replayed
  obtain ⟨hsteps, hmessages⟩ := List.append_subset.mp hfirst
  obtain ⟨hsteps', hmessages'⟩ := List.append_subset.mp hsecond
  have hpositions : first.leaves.positions = second.leaves.positions := by
    rw [LeafSet.positions_eq_mergeSort hdistinct first.collected,
      LeafSet.positions_eq_mergeSort hdistinct' second.collected, halike.positions_eq]
  have hleaves := (LeafSet.eq_of_verify hsafe first.included second.included hpositions hmessages
    hmessages').1
  have htouched := LeafSet.eq_of_ofLeaves_eq first.collected (hleaves ▸ second.collected)
    halike.positions_eq.symm
  rw [← htouched] at hvisits'
  exact Search.steps_eq_of_hasLeaf hsafe hvisits hvisits' hversions hsteps hsteps'

end KeyTransparency
