import KeyTransparency.Proofs.Success
import KeyTransparency.Proofs.Words.Run
import KeyTransparency.Words.Search

/-!
# Replaying searches in words never halts

A copath that is not too long looks up bits that an index has, and the bounds of a search stay
within the tree, so that the position after one that was visited is a word.
-/

namespace KeyTransparency.Words

/-! ## Prefix proofs -/

theorem bit?_eq (index : CommitmentIndex) {i : Nat} (h : i < PrefixTree.maxDepth) :
    bit? index i = some (index.bit i) := by
  have hplace : i / 8 < index.bytes.length := by
    rw [index.length_bytes]
    exact Nat.div_lt_of_lt_mul h
  have hshift : i % 8 ≤ 7 := Nat.le_of_lt_succ (Nat.mod_lt _ (by decide))
  rw [bit?, member?, List.getElem?_eq_getElem hplace, difference?_eq hshift]
  simp only [Option.bind_eq_bind, Option.bind_some]
  rw [if_pos (by omega), CommitmentIndex.bit, List.getD_eq_getElem?_getD,
    List.getElem?_eq_getElem hplace]
  rfl

theorem rootAbove?_eq (index : CommitmentIndex) {depth level : Nat} (node : Hash)
    {copath : List Hash} (hdepth : depth = level + copath.length)
    (hmax : depth ≤ PrefixTree.maxDepth) :
    rootAbove? index depth level node copath = some (PrefixTree.rootAbove index node copath) := by
  induction copath generalizing level node with
  | nil => rfl
  | cons sibling above ih =>
    rw [List.length_cons] at hdepth
    have hone : 1 ≤ depth := by omega
    have hlevel : level ≤ depth - 1 := by omega
    have hplace : depth - 1 - level = above.length := by omega
    have hbit : above.length < PrefixTree.maxDepth := by omega
    simp only [rootAbove?, difference?_eq hone, difference?_eq hlevel, hplace, bit?_eq index hbit,
      Option.bind_eq_bind, Option.bind_some]
    exact ih _ (by omega)

/-- Verifying a prefix proof in words never halts. -/
theorem verifyPrefix_eq (index : CommitmentIndex) (proof : PrefixProof) (bound : Option UInt32) :
    verifyPrefix index proof bound = ofResult (PrefixTree.verify index proof bound) := by
  rw [verifyPrefix, PrefixTree.verify]
  refine refuse_eq_ofResult fun hlength => ?_
  have hroot : rootAbove? index proof.copath.length 0 (PrefixTree.leafHash index proof.counter)
      proof.copath = some (PrefixTree.rootOf index proof) :=
    rootAbove?_eq index _ (Nat.zero_add _).symm (Nat.le_of_not_lt hlength)
  rw [hroot]
  cases bound with
  | none => rfl
  | some least => exact refuse_eq_ofResult fun _ => rfl

theorem leaf_eq (step : ProofStep) (bound : Option UInt32) :
    leaf step bound = ofResult (step.leaf bound) :=
  bind_eq_ofResult (verifyPrefix_eq _ _ _) fun _ _ => rfl

/-! ## Searches -/

theorem exists_midpoint? {lo hi : UInt64} (h : lo.toNat < hi.toNat) :
    ∃ position, midpoint? lo hi = some position ∧
      position.toNat = Search.midpoint lo.toNat hi.toNat ∧ position.toNat < hi.toNat := by
  have hhi : hi.toNat < UInt64.size := hi.toNat_lt
  obtain ⟨size, hsize, hsizeNat⟩ := exists_sub? (Nat.le_of_lt h)
  have hhalf : (size / 2).toNat = (hi.toNat - lo.toNat) / 2 := by
    rw [UInt64.toNat_div, hsizeNat]
    rfl
  obtain ⟨position, hposition, hpositionNat⟩ := @exists_add? lo (size / 2) (by omega)
  refine ⟨position, ?_, ?_, by omega⟩
  · rw [midpoint?, hsize]
    exact hposition
  · rw [hpositionNat, hhalf]
    rfl

/-- The progress of a search that has not found a first entry, in numbers. -/
def Progress.inNumbers (progress : Progress) : Search.Progress where
  lo := progress.lo.toNat
  hi := progress.hi.toNat
  latestMatch := progress.latestMatch.map fun (position, counter) => (position.toNat, counter)
  touched := progress.touched

theorem conclude_eq {progress : Progress} (hfound : progress.found = none) (claimed : UInt64) :
    conclude progress claimed = .error (Search.unfinished progress.inNumbers) := by
  have hlt : progress.lo < progress.hi ↔ progress.inNumbers.lo < progress.inNumbers.hi :=
    UInt64.lt_iff_toNat_lt
  rw [conclude, hfound, Search.unfinished]
  by_cases hopen : progress.lo < progress.hi
  · rw [if_pos (hlt.mp hopen)]
    exact if_pos hopen
  · rw [if_neg (mt hlt.mpr hopen)]
    refine (if_neg hopen).trans ?_
    cases hlatest : progress.latestMatch with
    | none => simp only [Progress.inNumbers, hlatest, Option.map_none]
    | some latest => simp only [Progress.inNumbers, hlatest, Option.map_some]

/-- What a search comes to that has found a first entry depends only on whether there are more
steps. -/
theorem replay_found (target : CommitmentIndex) {claimed : UInt64} {count : Nat}
    {progress : Progress} {earlier : Search.Progress} {position : UInt64} {leaf : Hash} {i : Nat}
    {rest : List ProofStep} (hfound : progress.found = some (position, earlier.touched.length))
    (htouched : progress.touched = ⟨position.toNat, leaf⟩ :: earlier.touched)
    (hcount : count = i + rest.length) :
    replay target claimed count progress i rest =
      ofResult (Search.finished earlier ⟨position.toNat, leaf⟩ claimed.toNat rest.length) := by
  cases rest with
  | nil =>
    have hclaimed : position = claimed ↔ position.toNat = claimed.toNat := UInt64.toNat_inj.symm
    rw [replay, conclude, hfound, htouched]
    simp only [hclaimed]
    rfl
  | cons step rest =>
    have hi : i ≤ count := by omega
    have hlater : count - i = (step :: rest).length := by omega
    rw [replay, visit, hfound, Option.isSome_some, if_pos rfl, some_bind (difference?_eq hi),
      hlater]
    rfl

theorem replay_eq {target : CommitmentIndex} {claimed : UInt64} {count : Nat}
    {progress : Progress} {i : Nat} {steps : List ProofStep} (hfound : progress.found = none)
    (hlength : progress.touched.length = i) (hcount : count = i + steps.length) :
    replay target claimed count progress i steps =
      ofResult (Search.replay target claimed.toNat progress.inNumbers steps) := by
  induction steps generalizing progress i with
  | nil =>
    rw [replay, conclude_eq hfound]
    rfl
  | cons step rest ih =>
    rw [List.length_cons] at hcount
    have hi : i ≤ count := by omega
    have hlater : count - i = rest.length + 1 := by omega
    by_cases hempty : progress.hi ≤ progress.lo
    · have hemptyNat : progress.inNumbers.hi ≤ progress.inNumbers.lo :=
        UInt64.le_iff_toNat_le.mp hempty
      rw [replay, visit, hfound, Option.isSome_none, if_neg Bool.false_ne_true, if_pos hempty,
        some_bind (difference?_eq hi), hlater, Search.replay, if_pos hemptyNat]
      rfl
    · have hopen : ¬progress.inNumbers.hi ≤ progress.inNumbers.lo :=
        mt UInt64.le_iff_toNat_le.mpr hempty
      obtain ⟨position, hposition, hpositionNat, hbelow⟩ :=
        exists_midpoint? (Nat.lt_of_not_le hopen)
      have hmidpoint : Search.midpoint progress.inNumbers.lo progress.inNumbers.hi =
          position.toNat := hpositionNat.symm
      rw [replay, visit, hfound, Option.isSome_none, if_neg Bool.false_ne_true, if_neg hempty,
        some_bind hposition, leaf_eq, Search.replay, if_neg hopen, hmidpoint]
      cases hleaf : step.leaf none with
      | error error => rfl
      | ok leaf =>
        change ((if step.index < target then _ else _ : Run SearchError Progress) >>= _) =
          ofResult (if step.index < target then _ else _)
        have htouched : (⟨position.toNat, leaf⟩ :: progress.touched).length = i + 1 :=
          congrArg (· + 1) hlength
        have hcount : count = i + 1 + rest.length := by omega
        by_cases hbefore : step.index < target
        · have hhi : progress.hi.toNat < UInt64.size := progress.hi.toNat_lt
          obtain ⟨lo, hlo, hloNat⟩ := @exists_add? position 1 (Nat.lt_of_le_of_lt hbelow hhi)
          have hloNat : position.toNat + 1 = lo.toNat := hloNat.symm
          rw [if_pos hbefore, if_pos hbefore, some_bind hlo, pure_bind, hloNat]
          exact ih rfl htouched hcount
        · rw [if_neg hbefore, if_neg hbefore]
          by_cases hafter : target < step.index
          · rw [if_pos hafter, if_pos hafter, pure_bind]
            exact ih rfl htouched hcount
          · rw [if_neg hafter, if_neg hafter, bind_assoc]
            refine result_bind_eq_ofResult fun _ _ => ?_
            by_cases hfirst : step.counter = 0
            · rw [if_pos hfirst, if_pos hfirst, pure_bind]
              exact replay_found target (congrArg (fun i => some (position, i)) hlength.symm) rfl
                hcount
            · rw [if_neg hfirst, if_neg hfirst, pure_bind]
              exact ih rfl htouched hcount

/-- Replaying a search in words never halts. -/
theorem verifySearch_eq (steps : List ProofStep) (target : CommitmentIndex)
    (size claimed : UInt64) :
    verifySearch steps target size claimed =
      ofResult (Search.verify steps target size.toNat claimed.toNat) := by
  rw [verifySearch, Search.verify]
  simp only [UInt64.le_iff_toNat_le]
  split
  · rfl
  · exact replay_eq rfl rfl (Nat.zero_add _).symm

end KeyTransparency.Words
