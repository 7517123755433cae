import KeyTransparency.Proofs.Search.Accepted

/-!
# What one root says about an identifier

Two accepted searches for one identifier against one root visit the same position first, and as long
as their entries send them the same way, they stay together.  They can part only at an entry whose
prefix tree has proofs for two indexes, which the two searches show.  Where this does not happen,
both searches end at the same entry.
-/

namespace KeyTransparency

open KeyTransparency.Tree (PlacedLeaf)

namespace ProofStep

/-- Two steps that show the same leaf show the same prefix tree and commitment, and, if they show
the same index, are the same. -/
theorem eq_of_leaf_eq {hashed : List Bytes} (hsafe : ¬Collision hashed) {step step' : ProofStep}
    (hstep : step.messages ⊆ hashed) (hstep' : step'.messages ⊆ hashed) {leaf : Hash}
    (hleaf : step.leaf none = .ok leaf) (hleaf' : step'.leaf none = .ok leaf) :
    step.prefixRoot = step'.prefixRoot ∧ step.commitment = step'.commitment ∧
      (step.index = step'.index → step = step') := by
  have hsame : Hash.ofMessage (recordMessage (entryData step.prefixRoot step.commitment)) =
      Hash.ofMessage (recordMessage (entryData step'.prefixRoot step'.commitment)) :=
    (eq_entryLeafHash_of_leaf hleaf).symm.trans (eq_entryLeafHash_of_leaf hleaf')
  obtain ⟨hentry, hprefix⟩ := List.cons_subset.mp hstep
  obtain ⟨hentry', hprefix'⟩ := List.cons_subset.mp hstep'
  obtain ⟨hroot, hcommitment⟩ :=
    entryMessage_inj (eq_of_ofMessage_eq hsafe hentry hentry' hsame)
  refine ⟨hroot, hcommitment, ?_⟩
  intro hindex
  obtain ⟨index, proof, commitment⟩ := step
  obtain ⟨index', proof', commitment'⟩ := step'
  obtain rfl : index = index' := hindex
  obtain rfl : commitment = commitment' := hcommitment
  have hproof : proof = proof' := PrefixTree.eq_of_rootOf_eq hsafe hprefix hprefix' hroot
  rw [hproof]

end ProofStep

namespace Search

/-- Two searches part at an entry that both visit: one prefix tree shows them two indexes, and these
send them different ways. -/
def Parts (target : CommitmentIndex) (steps steps' : List ProofStep)
    (touched touched' : List PlacedLeaf) : Prop :=
  ∃ visit step step', steps[visit]? = some step ∧ steps'[visit]? = some step' ∧
    touched.take (visit + 1) = touched'.take (visit + 1) ∧
    step.prefixRoot = step'.prefixRoot ∧ step.index ≠ step'.index ∧
    step.compareFirst target ≠ step'.compareFirst target

variable {target : CommitmentIndex} {hashed : List Bytes}

theorem Parts.cons {steps steps' : List ProofStep} {touched touched' : List PlacedLeaf}
    (h : Parts target steps steps' touched touched') (step step' : ProofStep) (leaf : PlacedLeaf) :
    Parts target (step :: steps) (step' :: steps') (leaf :: touched) (leaf :: touched') := by
  obtain ⟨visit, fork, fork', hfork, hfork', htouched, hroot, hindex, hways⟩ := h
  refine ⟨visit + 1, fork, fork', hfork, hfork', ?_, hroot, hindex, hways⟩
  rw [List.take_succ_cons, List.take_succ_cons, htouched]

theorem parts_of_compareFirst_ne (hsafe : ¬Collision hashed) {step step' : ProofStep}
    {rest rest' : List ProofStep} {touched touched' : List PlacedLeaf} {position : Nat}
    {leaf leaf' : Hash} (hstep : (step :: rest).flatMap ProofStep.messages ⊆ hashed)
    (hstep' : (step' :: rest').flatMap ProofStep.messages ⊆ hashed)
    (hleaf : step.leaf none = .ok leaf) (hleaf' : step'.leaf none = .ok leaf')
    (hsame : leaf = leaf')
    {way way' : Ordering} (hway : step.compareFirst target = way)
    (hway' : step'.compareFirst target = way') (hne : way ≠ way') :
    Parts target (step :: rest) (step' :: rest') (⟨position, leaf⟩ :: touched)
      (⟨position, leaf'⟩ :: touched') := by
  subst hsame hway hway'
  rw [List.flatMap_cons] at hstep hstep'
  obtain ⟨hhead, -⟩ := List.append_subset.mp hstep
  obtain ⟨hhead', -⟩ := List.append_subset.mp hstep'
  obtain ⟨hroot, -, heq⟩ := ProofStep.eq_of_leaf_eq hsafe hhead hhead' hleaf hleaf'
  refine ⟨0, step, step', rfl, rfl, rfl, hroot, ?_, hne⟩
  intro hindex
  exact hne (by rw [heq hindex])

/-- Two traces over the same part of a log, whose leaves agree, end at the same entry unless they
part on the way. -/
theorem Trace.same_end_or_parts (hsafe : ¬Collision hashed) {lo hi : Nat}
    {steps steps' : List ProofStep} {touched touched' : List PlacedLeaf}
    {last last' : ProofStep} {found found' : PlacedLeaf}
    (h : Trace target lo hi steps touched last found)
    (h' : Trace target lo hi steps' touched' last' found')
    (hagree : ∀ leaf ∈ touched, ∀ leaf' ∈ touched', leaf.position = leaf'.position →
      leaf.leaf = leaf'.leaf)
    (hsteps : steps.flatMap ProofStep.messages ⊆ hashed)
    (hsteps' : steps'.flatMap ProofStep.messages ⊆ hashed) :
    (found = found' ∧ last.commitment = last'.commitment) ∨
      Parts target steps steps' touched touched' := by
  -- both searches visit the same position first, so its leaf is the same
  induction h generalizing steps' touched' with
  | found hopen hleaf hway =>
    cases h' with
    | found _ hleaf' _ =>
      obtain rfl := hagree _ List.mem_cons_self _ List.mem_cons_self rfl
      simp only [List.flatMap_cons, List.flatMap_nil, List.append_nil] at hsteps hsteps'
      exact .inl ⟨rfl, (ProofStep.eq_of_leaf_eq hsafe hsteps hsteps' hleaf hleaf').2.1⟩
    | right _ hleaf' hway' | left _ hleaf' hway' =>
      exact .inr (parts_of_compareFirst_ne hsafe hsteps hsteps' hleaf hleaf'
        (hagree _ List.mem_cons_self _ List.mem_cons_self rfl) hway hway' (by decide))
  | right hopen hleaf hway _ ih =>
    cases h' with
    | right _ hleaf' _ hrest' =>
      obtain rfl := hagree _ List.mem_cons_self _ List.mem_cons_self rfl
      obtain ⟨-, hlater⟩ := List.append_subset.mp hsteps
      obtain ⟨-, hlater'⟩ := List.append_subset.mp hsteps'
      refine (ih hrest' ?_ hlater hlater').imp_right (Parts.cons · _ _ _)
      intro leaf hmem leaf' hmem'
      exact hagree leaf (List.mem_cons_of_mem _ hmem) leaf' (List.mem_cons_of_mem _ hmem')
    | found _ hleaf' hway' | left _ hleaf' hway' =>
      exact .inr (parts_of_compareFirst_ne hsafe hsteps hsteps' hleaf hleaf'
        (hagree _ List.mem_cons_self _ List.mem_cons_self rfl) hway hway' (by decide))
  | left hopen hleaf hway _ ih =>
    cases h' with
    | left _ hleaf' _ hrest' =>
      obtain rfl := hagree _ List.mem_cons_self _ List.mem_cons_self rfl
      obtain ⟨-, hlater⟩ := List.append_subset.mp hsteps
      obtain ⟨-, hlater'⟩ := List.append_subset.mp hsteps'
      refine (ih hrest' ?_ hlater hlater').imp_right (Parts.cons · _ _ _)
      intro leaf hmem leaf' hmem'
      exact hagree leaf (List.mem_cons_of_mem _ hmem) leaf' (List.mem_cons_of_mem _ hmem')
    | found _ hleaf' hway' | right _ hleaf' hway' =>
      exact .inr (parts_of_compareFirst_ne hsafe hsteps hsteps' hleaf hleaf'
        (hagree _ List.mem_cons_self _ List.mem_cons_self rfl) hway hway' (by decide))

end Search

/-! ## Two accepted searches -/

namespace AcceptedSearch

/-- Two searches for one identifier that one root accepts end at the same position with the same
commitment, unless they part at an entry or two different byte strings that they hash have the same
digest. -/
theorem same_entry_or_parts_or_collision {target : CommitmentIndex} {size : Nat} {root : Hash}
    (first second : AcceptedSearch target size root) :
    (first.outcome.position = second.outcome.position ∧
        first.entry.commitment = second.entry.commitment) ∨
      Search.Parts target first.steps second.steps first.outcome.touched
        second.outcome.touched ∨
      Collision (first.messages ++ second.messages) := by
  by_cases hsafe : Collision (first.messages ++ second.messages)
  · exact .inr (.inr hsafe)
  · have hfirst : first.messages ⊆ first.messages ++ second.messages :=
      List.subset_append_left _ _
    have hsecond : second.messages ⊆ first.messages ++ second.messages :=
      List.subset_append_right _ _
    obtain ⟨found, htrace, hposition⟩ := first.exists_trace
    obtain ⟨found', htrace', hposition'⟩ := second.exists_trace
    have hagree : ∀ leaf ∈ first.outcome.touched, ∀ leaf' ∈ second.outcome.touched,
        leaf.position = leaf'.position → leaf.leaf = leaf'.leaf := by
      intro leaf hleaf leaf' hleaf' heq
      have hone := (first.contains_of_mem_touched hleaf).mono hfirst
      have hother := (second.contains_of_mem_touched hleaf').mono hsecond
      rw [← heq] at hother
      exact hone.leaf_unique hsafe hother
    have hsteps := List.Subset.trans first.messages_steps_subset hfirst
    have hsteps' := List.Subset.trans second.messages_steps_subset hsecond
    rcases htrace.same_end_or_parts hsafe htrace' hagree hsteps hsteps' with
      ⟨hfound, hcommitment⟩ | hparts
    · exact .inl ⟨by rw [hposition, hposition', hfound], hcommitment⟩
    · exact .inr (.inl hparts)

end AcceptedSearch

/-! ## A log that shows an identifier twice

Nothing ties an entry to one of the indexes in its prefix tree.  The second entry of the log here
has a prefix tree with two indexes, `low` and `high`, and the first entry has one with `low` alone,
both with the counter zero.  A search for `low` that shows the second entry under `low` ends there,
and one that shows it under `high` ends at the first entry. -/

namespace Parting

def low : CommitmentIndex := ⟨⟨List.replicate 32 0x00, by simp⟩⟩

def high : CommitmentIndex := ⟨⟨List.replicate 32 0xff, by simp⟩⟩

def firstEntry : ProofStep := ⟨low, ⟨[], 0⟩, ⟨⟨List.replicate 32 0x01, by simp⟩⟩⟩

/-- The second entry, shown under the first index of its prefix tree. -/
def secondEntry : ProofStep :=
  ⟨low, ⟨[PrefixTree.leafHash high 0], 0⟩, ⟨⟨List.replicate 32 0x02, by simp⟩⟩⟩

/-- The second entry, shown under the other index of its prefix tree. -/
def secondEntryHigh : ProofStep :=
  ⟨high, ⟨[PrefixTree.leafHash low 0], 0⟩, ⟨⟨List.replicate 32 0x02, by simp⟩⟩⟩

/-- The root of the prefix tree in the first entry. -/
def smallTree : Hash := PrefixTree.leafHash low 0

/-- The root of the prefix tree in the second entry. -/
def largeTree : Hash :=
  PrefixTree.nodeHash (PrefixTree.leafHash low 0) (PrefixTree.leafHash high 0)

def firstLeaf : Hash := entryLeafHash smallTree firstEntry.commitment

def secondLeaf : Hash := entryLeafHash largeTree secondEntry.commitment

def root : Hash := nodeHash firstLeaf secondLeaf

theorem treeOf_second {set : LeafSet} {left right : Hash} (h : set.leaves = [⟨1, right⟩]) :
    set.treeOf 2 [left] = .ok (.node (.given left) (.given right)) := by
  simp [LeafSet.treeOf, h, Tree.batchTreeOf, Tree.checkPositions, Tree.batchTree, Tree.leftLeaves,
    Tree.rightLeaves, Tree.leftSize_two, bind, Except.bind, pure, Except.pure]

theorem treeOf_both {set : LeafSet} {left right : Hash}
    (h : set.leaves = [⟨0, left⟩, ⟨1, right⟩]) :
    set.treeOf 2 [] = .ok (.node (.given left) (.given right)) := by
  simp [LeafSet.treeOf, h, Tree.batchTreeOf, Tree.checkPositions, Tree.batchTree, Tree.leftLeaves,
    Tree.rightLeaves, Tree.leftSize_two, bind, Except.bind, pure, Except.pure]

def late : AcceptedSearch low 2 root where
  steps := [secondEntry]
  claimed := 1
  inclusion := [firstLeaf]
  outcome := ⟨1, 0, [⟨1, secondLeaf⟩]⟩
  leaves := ⟨[⟨1, secondLeaf⟩], by simp⟩
  replayed := rfl
  collected := rfl
  included := LeafSet.verify_eq_ok_iff.mpr ⟨_, treeOf_second rfl, rfl⟩

def early : AcceptedSearch low 2 root where
  steps := [secondEntryHigh, firstEntry]
  claimed := 0
  inclusion := []
  outcome := ⟨0, 1, [⟨1, secondLeaf⟩, ⟨0, firstLeaf⟩]⟩
  leaves := ⟨[⟨0, firstLeaf⟩, ⟨1, secondLeaf⟩], by simp⟩
  replayed := rfl
  collected := rfl
  included := LeafSet.verify_eq_ok_iff.mpr ⟨_, treeOf_both rfl, rfl⟩

/-- Everything that the two searches hash. -/
def messages : List Bytes :=
  [recordMessage (entryData smallTree firstEntry.commitment),
    recordMessage (entryData largeTree secondEntry.commitment),
    PrefixTree.leafMessage low 0, PrefixTree.leafMessage high 0,
    PrefixTree.nodeMessage (PrefixTree.leafHash low 0) (PrefixTree.leafHash high 0),
    nodeMessage firstLeaf secondLeaf]

theorem messages_late :
    late.messages = [recordMessage (entryData largeTree secondEntry.commitment),
      PrefixTree.leafMessage low 0,
      PrefixTree.nodeMessage (PrefixTree.leafHash low 0) (PrefixTree.leafHash high 0),
      nodeMessage firstLeaf secondLeaf] := by
  rw [AcceptedSearch.messages, LeafSet.messages, late, treeOf_second rfl]
  rfl

theorem messages_early :
    early.messages = [recordMessage (entryData largeTree secondEntry.commitment),
      PrefixTree.leafMessage high 0,
      PrefixTree.nodeMessage (PrefixTree.leafHash low 0) (PrefixTree.leafHash high 0),
      recordMessage (entryData smallTree firstEntry.commitment),
      PrefixTree.leafMessage low 0, nodeMessage firstLeaf secondLeaf] := by
  rw [AcceptedSearch.messages, LeafSet.messages, early, treeOf_both rfl]
  rfl

theorem not_collision : ¬Collision (late.messages ++ early.messages) := by
  have hsub : late.messages ++ early.messages ⊆ messages := by
    rw [messages_late, messages_early, messages]
    simp only [List.append_subset, List.cons_subset, List.nil_subset, List.mem_cons, true_or,
      or_true, and_self]
  have hdistinct : (messages.map Hash.ofMessage).Nodup := by decide +kernel
  exact fun h => not_collision_of_nodup hdistinct (h.mono hsub)

end Parting

/-- Without an entry at which two searches part, the statement would be wrong. -/
theorem AcceptedSearch.not_forall_same_entry_or_collision :
    ¬∀ (target : CommitmentIndex) (size : Nat) (root : Hash)
      (first second : AcceptedSearch target size root),
      (first.outcome.position = second.outcome.position ∧
          first.entry.commitment = second.entry.commitment) ∨
        Collision (first.messages ++ second.messages) := by
  intro h
  rcases h _ _ _ Parting.late Parting.early with ⟨hposition, -⟩ | hcollision
  · exact absurd hposition (by decide)
  · exact Parting.not_collision hcollision

end KeyTransparency
