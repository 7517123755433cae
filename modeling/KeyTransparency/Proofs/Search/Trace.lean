import KeyTransparency.Proofs.PrefixTree
import KeyTransparency.Search

/-!
# Replayed searches

A search that is replayed to its end visits one position for every step, each time the middle of
what is left, until a step shows the first version of the identifier.  `Trace` says so, one case for
each way in which a search goes on, and a successful replay has a trace.
-/

namespace KeyTransparency

open KeyTransparency.Tree (PlacedLeaf)

namespace CommitmentIndex

theorem not_lt_self (a : CommitmentIndex) : ¬a < a := List.lt_irrefl a.bytes

theorem not_lt_of_lt {a b : CommitmentIndex} (h : a < b) : ¬b < a := List.lt_asymm h

theorem eq_of_not_lt_of_not_lt {a b : CommitmentIndex} (hab : ¬a < b) (hba : ¬b < a) : a = b := by
  apply eq_of_bytes_eq
  exact List.le_antisymm (List.not_lt.mp hba) (List.not_lt.mp hab)

theorem not_lt_trans {a b c : CommitmentIndex} (hab : ¬b < a) (hbc : ¬c < b) : ¬c < a :=
  List.not_lt.mpr (List.le_trans (List.not_lt.mp hab) (List.not_lt.mp hbc))

theorem lt_of_lt_of_not_lt {a b c : CommitmentIndex} (hab : a < b) (hbc : ¬c < b) : a < c := by
  by_contra hac
  exact not_lt_trans hbc hac hab

end CommitmentIndex

namespace ProofStep

def prefixRoot (step : ProofStep) : Hash := PrefixTree.rootOf step.index step.prefixProof

/-- The byte strings that are hashed for the leaf of an entry. -/
def messages (step : ProofStep) : List Bytes :=
  recordMessage (entryData step.prefixRoot step.commitment) ::
    PrefixTree.messages step.index step.prefixProof

theorem eq_entryLeafHash_of_leaf {step : ProofStep} {bound : Option UInt32} {leaf : Hash}
    (h : step.leaf bound = .ok leaf) :
    leaf = entryLeafHash step.prefixRoot step.commitment := by
  obtain ⟨root, hroot, hleaf⟩ := bind_eq_ok_iff.mp h
  cases hleaf
  rw [(PrefixTree.verify_eq_ok_iff.mp hroot).1, prefixRoot]

theorem verify_of_leaf {step : ProofStep} {bound : Option UInt32} {leaf : Hash}
    (h : step.leaf bound = .ok leaf) :
    PrefixTree.verify step.index step.prefixProof bound = .ok step.prefixRoot := by
  obtain ⟨root, hroot, -⟩ := bind_eq_ok_iff.mp h
  rw [hroot, (PrefixTree.verify_eq_ok_iff.mp hroot).1, prefixRoot]

/-- How an entry sorts against the first version of an identifier. -/
def compareFirst (target : CommitmentIndex) (step : ProofStep) : Ordering :=
  if step.index < target then .lt
  else if step.index = target ∧ step.counter = 0 then .eq
  else .gt

variable {target : CommitmentIndex} {step : ProofStep}

theorem compareFirst_of_lt (h : step.index < target) : step.compareFirst target = .lt := if_pos h

theorem compareFirst_of_first (hindex : step.index = target) (hcounter : step.counter = 0) :
    step.compareFirst target = .eq := by
  have hnot : ¬step.index < target := hindex ▸ CommitmentIndex.not_lt_self target
  rw [compareFirst, if_neg hnot, if_pos ⟨hindex, hcounter⟩]

theorem compareFirst_of_gt (h : target < step.index) : step.compareFirst target = .gt := by
  have hother : ¬(step.index = target ∧ step.counter = 0) := by
    rintro ⟨hindex, -⟩
    exact CommitmentIndex.not_lt_self target (hindex ▸ h)
  rw [compareFirst, if_neg (CommitmentIndex.not_lt_of_lt h), if_neg hother]

theorem compareFirst_of_later (hindex : step.index = target) (hcounter : step.counter ≠ 0) :
    step.compareFirst target = .gt := by
  have hnot : ¬step.index < target := hindex ▸ CommitmentIndex.not_lt_self target
  rw [compareFirst, if_neg hnot, if_neg fun hfirst => hcounter hfirst.2]

theorem compareFirst_eq_eq_iff :
    step.compareFirst target = .eq ↔ step.index = target ∧ step.counter = 0 := by
  constructor
  · intro h
    unfold compareFirst at h
    split at h
    · cases h
    · split at h
      · assumption
      · cases h
  · rintro ⟨hindex, hcounter⟩
    exact compareFirst_of_first hindex hcounter

end ProofStep

namespace Search

/-- The steps of a search that ends between `lo` and `hi`, the leaves that they imply, and the last
of both. -/
inductive Trace (target : CommitmentIndex) : (lo hi : Nat) → (steps : List ProofStep) →
    (touched : List PlacedLeaf) → (last : ProofStep) → (found : PlacedLeaf) → Prop where
  /-- The step shows the first version of the identifier. -/
  | found {lo hi : Nat} {step : ProofStep} {leaf : Hash} (hopen : lo < hi)
      (hleaf : step.leaf none = .ok leaf) (hway : step.compareFirst target = .eq) :
      Trace target lo hi [step] [⟨midpoint lo hi, leaf⟩] step ⟨midpoint lo hi, leaf⟩
  /-- The entry sorts before the identifier. -/
  | right {lo hi : Nat} {step : ProofStep} {leaf : Hash} {rest : List ProofStep}
      {touched : List PlacedLeaf} {last : ProofStep} {found : PlacedLeaf} (hopen : lo < hi)
      (hleaf : step.leaf none = .ok leaf) (hway : step.compareFirst target = .lt)
      (hrest : Trace target (midpoint lo hi + 1) hi rest touched last found) :
      Trace target lo hi (step :: rest) (⟨midpoint lo hi, leaf⟩ :: touched) last found
  /-- The entry sorts after the identifier, or shows a later version of it. -/
  | left {lo hi : Nat} {step : ProofStep} {leaf : Hash} {rest : List ProofStep}
      {touched : List PlacedLeaf} {last : ProofStep} {found : PlacedLeaf} (hopen : lo < hi)
      (hleaf : step.leaf none = .ok leaf) (hway : step.compareFirst target = .gt)
      (hrest : Trace target lo (midpoint lo hi) rest touched last found) :
      Trace target lo hi (step :: rest) (⟨midpoint lo hi, leaf⟩ :: touched) last found

theorem finished_eq_ok {progress : Progress} {leaf : PlacedLeaf} {claimed later : Nat}
    {outcome : Outcome} (h : finished progress leaf claimed later = .ok outcome) :
    later = 0 ∧ leaf.position = claimed ∧
      outcome = ⟨leaf.position, progress.touched.length, (leaf :: progress.touched).reverse⟩ := by
  unfold finished at h
  split at h
  · cases h
  · split at h
    · rename_i hlater hclaimed
      cases h
      exact ⟨by omega, hclaimed, rfl⟩
    · cases h

/-- All that one step of a successful replay can do. -/
theorem replay_cons_eq_ok {target : CommitmentIndex} {claimed : Nat} {progress : Progress}
    {step : ProofStep} {rest : List ProofStep} {outcome : Outcome}
    (h : replay target claimed progress (step :: rest) = .ok outcome) :
    let position := midpoint progress.lo progress.hi
    progress.lo < progress.hi ∧ ∃ leaf, step.leaf none = .ok leaf ∧
      let touched := ⟨position, leaf⟩ :: progress.touched
      (step.index < target ∧
          replay target claimed { progress with lo := position + 1, touched } rest = .ok outcome ∨
        target < step.index ∧
          replay target claimed { progress with hi := position, touched } rest = .ok outcome ∨
        step.index = target ∧ checkOlder progress.latestMatch step.counter = .ok () ∧
          (step.counter = 0 ∧
              finished progress ⟨position, leaf⟩ claimed rest.length = .ok outcome ∨
            step.counter ≠ 0 ∧
              replay target claimed
                { progress with
                  hi := position, latestMatch := some (position, step.counter), touched }
                rest = .ok outcome)) := by
  unfold replay at h
  obtain ⟨hopen, h⟩ := refuse_eq_ok_iff.mp h
  obtain ⟨leaf, hleaf, h⟩ := bind_eq_ok_iff.mp h
  refine ⟨Nat.lt_of_not_le hopen, leaf, mapError_eq_ok_iff.mp hleaf, ?_⟩
  by_cases hbefore : step.index < target
  · rw [if_pos hbefore] at h
    exact .inl ⟨hbefore, h⟩
  · rw [if_neg hbefore] at h
    by_cases hafter : target < step.index
    · rw [if_pos hafter] at h
      exact .inr (.inl ⟨hafter, h⟩)
    · rw [if_neg hafter] at h
      obtain ⟨_, holder, h⟩ := bind_eq_ok_iff.mp h
      refine .inr (.inr ⟨CommitmentIndex.eq_of_not_lt_of_not_lt hbefore hafter, holder, ?_⟩)
      by_cases hcounter : step.counter = 0
      · rw [if_pos hcounter] at h
        exact .inl ⟨hcounter, h⟩
      · rw [if_neg hcounter] at h
        exact .inr ⟨hcounter, h⟩

/-- A replay that succeeds follows a trace and ends where it does. -/
theorem trace_of_replay {target : CommitmentIndex} {claimed : Nat} {progress : Progress}
    {steps : List ProofStep} {outcome : Outcome}
    (h : replay target claimed progress steps = .ok outcome) :
    ∃ touched last found, Trace target progress.lo progress.hi steps touched last found ∧
      outcome.position = found.position ∧ found.position = claimed ∧
      outcome.step + 1 = progress.touched.length + steps.length ∧
      outcome.touched = progress.touched.reverse ++ touched := by
  induction steps generalizing progress with
  | nil => cases h
  | cons step rest ih =>
    obtain ⟨hopen, leaf, hleaf, hbefore | hafter | ⟨hindex, -, hfirst | hlater⟩⟩ :=
      replay_cons_eq_ok h
    · obtain ⟨hlt, hrest⟩ := hbefore
      obtain ⟨touched, last, found, htrace, hposition, hclaimed, hstep, htouched⟩ := ih hrest
      have hway := ProofStep.compareFirst_of_lt hlt
      refine ⟨_, last, found, .right hopen hleaf hway htrace, hposition, hclaimed, ?_, ?_⟩
      · simp only [List.length_cons] at hstep ⊢
        omega
      · simpa using htouched
    · obtain ⟨hgt, hrest⟩ := hafter
      obtain ⟨touched, last, found, htrace, hposition, hclaimed, hstep, htouched⟩ := ih hrest
      have hway := ProofStep.compareFirst_of_gt hgt
      refine ⟨_, last, found, .left hopen hleaf hway htrace, hposition, hclaimed, ?_, ?_⟩
      · simp only [List.length_cons] at hstep ⊢
        omega
      · simpa using htouched
    · obtain ⟨hcounter, hfinished⟩ := hfirst
      obtain ⟨hlast, hclaimed, rfl⟩ := finished_eq_ok hfinished
      obtain rfl := List.eq_nil_of_length_eq_zero hlast
      have hway := ProofStep.compareFirst_of_first hindex hcounter
      exact ⟨_, step, _, .found hopen hleaf hway, rfl, hclaimed, rfl, by simp⟩
    · obtain ⟨hcounter, hrest⟩ := hlater
      obtain ⟨touched, last, found, htrace, hposition, hclaimed, hstep, htouched⟩ := ih hrest
      have hway := ProofStep.compareFirst_of_later hindex hcounter
      refine ⟨_, last, found, .left hopen hleaf hway htrace, hposition, hclaimed, ?_, ?_⟩
      · simp only [List.length_cons] at hstep ⊢
        omega
      · simpa using htouched

/-- What is known of a search that is verified: it has a trace, which begins with the whole log. -/
theorem trace_of_verify {steps : List ProofStep} {target : CommitmentIndex} {size claimed : Nat}
    {outcome : Outcome} (h : verify steps target size claimed = .ok outcome) :
    claimed < size ∧ outcome.position = claimed ∧ outcome.step + 1 = steps.length ∧
      ∃ last found, Trace target 0 size steps outcome.touched last found ∧
        outcome.position = found.position := by
  unfold verify at h
  split at h
  · cases h
  · rename_i hclaimed
    obtain ⟨touched, last, found, htrace, hposition, hfound, hstep, htouched⟩ := trace_of_replay h
    have htouched : outcome.touched = touched := by simpa using htouched
    refine ⟨by omega, hposition.trans hfound, by simpa using hstep, last, found, ?_, hposition⟩
    rw [htouched]
    exact htrace

namespace Trace

variable {target : CommitmentIndex} {lo hi : Nat} {steps : List ProofStep}
  {touched : List PlacedLeaf} {last : ProofStep} {found : PlacedLeaf}

/-- The last step is the one that shows the entry that was found. -/
theorem last_spec (h : Trace target lo hi steps touched last found) :
    steps.getLast? = some last ∧ found ∈ touched ∧ last.leaf none = .ok found.leaf ∧
      last.index = target ∧ last.counter = 0 := by
  induction h with
  | found hopen hleaf hway =>
    obtain ⟨hindex, hcounter⟩ := ProofStep.compareFirst_eq_eq_iff.mp hway
    exact ⟨rfl, List.mem_cons_self, hleaf, hindex, hcounter⟩
  | right hopen hleaf hway hrest ih =>
    obtain ⟨hlast, hmem, hspec⟩ := ih
    refine ⟨?_, List.mem_cons_of_mem _ hmem, hspec⟩
    rw [List.getLast?_cons, hlast]
    rfl
  | left hopen hleaf hway hrest ih =>
    obtain ⟨hlast, hmem, hspec⟩ := ih
    refine ⟨?_, List.mem_cons_of_mem _ hmem, hspec⟩
    rw [List.getLast?_cons, hlast]
    rfl

end Trace

end Search

end KeyTransparency
