import KeyTransparency.Monitor
import KeyTransparency.Proofs.LeafSet
import KeyTransparency.Proofs.Search.Trace
import Mathlib.Data.List.Forall2

/-!
# What a monitoring proof shows

The steps of a monitoring proof show the watched entry and its frontier.  `Watch` says what is
checked about the frontier, one case for each kind of entry, with the latest counter and the least
index that are still allowed.  Since indexes never fall, the versions of the identifier come first,
and their counters increase up to the one that is reported.
-/

namespace KeyTransparency

open KeyTransparency.Tree (PlacedLeaf)

namespace ProofStep

theorem leaf_eq_ok_of_bound {step : ProofStep} {least : UInt32} {leaf : Hash}
    (h : step.leaf (some least) = .ok leaf) :
    step.leaf none = .ok leaf ∧ least ≤ step.counter := by
  obtain ⟨root, hroot, hleaf⟩ := bind_eq_ok_iff.mp h
  obtain ⟨hlength, hbound⟩ := refuse_eq_ok_iff.mp hroot
  obtain ⟨hcounter, hbound⟩ := refuse_eq_ok_iff.mp hbound
  refine ⟨bind_eq_ok_iff.mpr ⟨root, ?_, hleaf⟩, UInt32.not_lt.mp hcounter⟩
  exact refuse_eq_ok_iff.mpr ⟨hlength, hbound⟩

theorem leaf_bound_of_le {step : ProofStep} {least : UInt32} {leaf : Hash}
    (h : step.leaf none = .ok leaf) (hle : least ≤ step.counter) :
    step.leaf (some least) = .ok leaf := by
  obtain ⟨root, hroot, hleaf⟩ := bind_eq_ok_iff.mp h
  obtain ⟨hlength, hbound⟩ := refuse_eq_ok_iff.mp hroot
  refine bind_eq_ok_iff.mpr ⟨root, ?_, hleaf⟩
  exact refuse_eq_ok_iff.mpr ⟨hlength, refuse_eq_ok_iff.mpr ⟨UInt32.not_lt.mpr hle, hbound⟩⟩

end ProofStep

namespace MonitorKey

/-- The steps that are accepted on a frontier, and the leaves that they imply.  Each later version
of the identifier raises the counter above `latest`, and no index falls below `floor`. -/
inductive Watch (key : MonitorKey) : (latest : UInt32) → (floor : CommitmentIndex) →
    (positions : List Nat) → (steps : List ProofStep) → (touched : List PlacedLeaf) →
    (final : UInt32) → Prop where
  | done (latest : UInt32) (floor : CommitmentIndex) : Watch key latest floor [] [] [] latest
  /-- The step shows a later version of the identifier. -/
  | version {latest final : UInt32} {floor : CommitmentIndex} {position : Nat} {step : ProofStep}
      {leaf : Hash} {positions : List Nat} {steps : List ProofStep} {touched : List PlacedLeaf}
      (hindex : step.index = key.commitmentIndex) (hfloor : ¬step.index < floor)
      (hcounter : latest < step.counter) (hleaf : step.leaf none = .ok leaf)
      (hrest : Watch key step.counter step.index positions steps touched final) :
      Watch key latest floor (position :: positions) (step :: steps)
        (⟨position, leaf⟩ :: touched) final
  /-- The step shows an entry of another identifier. -/
  | other {latest final : UInt32} {floor : CommitmentIndex} {position : Nat} {step : ProofStep}
      {leaf : Hash} {positions : List Nat} {steps : List ProofStep} {touched : List PlacedLeaf}
      (hindex : step.index ≠ key.commitmentIndex) (hfloor : ¬step.index < floor)
      (hleaf : step.leaf none = .ok leaf)
      (hrest : Watch key latest step.index positions steps touched final) :
      Watch key latest floor (position :: positions) (step :: steps)
        (⟨position, leaf⟩ :: touched) final

theorem watch_of_checkFrontier {key : MonitorKey} {latest final : UInt32} {floor : CommitmentIndex}
    {positions : List Nat} {steps : List ProofStep} {set next : LeafSet}
    (hlength : positions.length = steps.length)
    (h : (key.checkFrontier latest floor positions steps).run set = (.ok final, next)) :
    ∃ touched, Watch key latest floor positions steps touched final ∧
      (touched.forM Collect.insert).run set = (.ok (), next) := by
  induction steps generalizing latest floor positions set with
  | nil =>
    obtain rfl := List.eq_nil_of_length_eq_zero hlength
    cases h
    exact ⟨[], .done final floor, rfl⟩
  | cons step steps ih =>
    cases positions with
    | nil => cases hlength
    | cons position positions =>
      unfold checkFrontier at h
      obtain ⟨hfloor, h⟩ := Collect.refuse_run_eq_ok_iff.mp h
      obtain ⟨leaf, hleaf, h⟩ := Collect.leaf_run_eq_ok_iff.mp h
      obtain ⟨hnew, h⟩ := Collect.refuse_run_eq_ok_iff.mp h
      obtain ⟨_, inserted, hinsert, h⟩ := Collect.bind_run_eq_ok_iff.mp h
      obtain ⟨touched, hrest, htouched⟩ := ih (Nat.succ.inj hlength) h
      have hall : ((⟨position, leaf⟩ :: touched).forM Collect.insert).run set = (.ok (), next) :=
        Collect.bind_run_eq_ok_iff.mpr ⟨(), inserted, hinsert, htouched⟩
      refine ⟨_, ?_, hall⟩
      -- the bound on the counter and the test for a repeated one apply to versions only
      by_cases hindex : step.index = key.commitmentIndex
      · simp only [hindex, if_true, true_and] at hleaf hnew hrest
        obtain ⟨hleaf, hleast⟩ := ProofStep.leaf_eq_ok_of_bound hleaf
        have hcounter : latest < step.counter :=
          UInt32.lt_of_le_of_ne hleast fun heq => hnew heq.symm
        exact .version hindex hfloor hcounter hleaf (hindex ▸ hrest)
      · simp only [hindex, if_false] at hleaf hrest
        exact .other hindex hfloor hleaf hrest

theorem checkFrontier_of_watch {key : MonitorKey} {latest final : UInt32} {floor : CommitmentIndex}
    {positions : List Nat} {steps : List ProofStep} {touched : List PlacedLeaf} {set next : LeafSet}
    (h : Watch key latest floor positions steps touched final)
    (hinserts : (touched.forM Collect.insert).run set = (.ok (), next)) :
    (key.checkFrontier latest floor positions steps).run set = (.ok final, next) := by
  induction h generalizing set with
  | done latest floor =>
    cases hinserts
    rfl
  | version hindex hfloor hcounter hleaf _ ih =>
    obtain ⟨_, inserted, hinsert, hinserts⟩ := Collect.bind_run_eq_ok_iff.mp hinserts
    have hbound := ProofStep.leaf_bound_of_le hleaf (UInt32.le_of_lt hcounter)
    unfold checkFrontier
    simp only [hindex, if_true, true_and]
    refine Collect.refuse_run_eq_ok_iff.mpr ⟨hindex ▸ hfloor, ?_⟩
    refine Collect.leaf_run_eq_ok_iff.mpr ⟨_, hbound, ?_⟩
    refine Collect.refuse_run_eq_ok_iff.mpr ⟨(UInt32.ne_of_lt hcounter).symm, ?_⟩
    exact Collect.bind_run_eq_ok_iff.mpr ⟨(), inserted, hinsert, hindex ▸ ih hinserts⟩
  | other hindex hfloor hleaf _ ih =>
    obtain ⟨_, inserted, hinsert, hinserts⟩ := Collect.bind_run_eq_ok_iff.mp hinserts
    unfold checkFrontier
    simp only [hindex, if_false, false_and]
    refine Collect.refuse_run_eq_ok_iff.mpr ⟨hfloor, ?_⟩
    refine Collect.leaf_run_eq_ok_iff.mpr ⟨_, hleaf, ?_⟩
    exact Collect.bind_run_eq_ok_iff.mpr ⟨(), inserted, hinsert, ih hinserts⟩

namespace Watch

variable {key : MonitorKey} {latest final : UInt32} {floor : CommitmentIndex}
  {positions : List Nat} {steps : List ProofStep} {touched : List PlacedLeaf}

theorem placed (h : Watch key latest floor positions steps touched final) :
    List.Forall₂ (fun position step => ∃ leaf, step.leaf none = .ok leaf ∧
      ⟨position, leaf⟩ ∈ touched) positions steps := by
  induction h with
  | done latest floor => exact .nil
  | version _ _ _ hleaf _ ih | other _ _ hleaf _ ih =>
    refine .cons ⟨_, hleaf, List.mem_cons_self⟩ (ih.imp ?_)
    rintro position step ⟨leaf, hstep, hmem⟩
    exact ⟨leaf, hstep, List.mem_cons_of_mem _ hmem⟩

/-- No index falls below the floor or below an earlier index. -/
theorem not_lt (h : Watch key latest floor positions steps touched final) :
    (∀ step ∈ steps, ¬step.index < floor) ∧
      steps.Pairwise fun earlier later => ¬later.index < earlier.index := by
  induction h with
  | done latest floor => exact ⟨by simp, .nil⟩
  | version _ hfloor _ _ _ ih | other _ hfloor _ _ ih =>
    refine ⟨?_, List.pairwise_cons.mpr ih⟩
    intro step hmem
    rcases List.mem_cons.mp hmem with rfl | hlater
    · exact hfloor
    · exact CommitmentIndex.not_lt_trans hfloor (ih.1 step hlater)

/-- Once the floor lies above the identifier, no further version shows. -/
theorem none_of_lt_floor (h : Watch key latest floor positions steps touched final)
    (hlt : key.commitmentIndex < floor) :
    (∀ step ∈ steps, step.index ≠ key.commitmentIndex) ∧ final = latest := by
  refine ⟨?_, ?_⟩
  · intro step hmem heq
    exact h.not_lt.1 step hmem (heq ▸ hlt)
  · induction h with
    | done latest floor => rfl
    | version hindex hfloor _ _ _ _ => exact absurd (hindex ▸ hlt) hfloor
    | other _ hfloor _ _ ih => exact ih (CommitmentIndex.lt_of_lt_of_not_lt hlt hfloor)

/-- The versions of the identifier come first, and their counters increase. -/
theorem versions (h : Watch key latest floor positions steps touched final)
    (hfloor : floor = key.commitmentIndex) :
    ∃ own others, steps = own ++ others ∧
      (∀ step ∈ own, step.index = key.commitmentIndex ∧ latest < step.counter) ∧
      (∀ step ∈ others, step.index ≠ key.commitmentIndex) ∧
      own.Pairwise (·.counter < ·.counter) ∧
      final = (own.map (·.counter)).getLastD latest := by
  induction h with
  | done latest floor => exact ⟨[], [], rfl, by simp, by simp, .nil, rfl⟩
  | @version latest final floor position step leaf positions steps touched hindex _ hcounter _ _
      ih =>
    obtain ⟨own, others, rfl, hown, hothers, hincreasing, hfinal⟩ := ih hindex
    refine ⟨step :: own, others, rfl, ?_, hothers, List.pairwise_cons.mpr ⟨?_, hincreasing⟩, ?_⟩
    · intro later hmem
      rcases List.mem_cons.mp hmem with rfl | hrest
      · exact ⟨hindex, hcounter⟩
      · exact ⟨(hown later hrest).1, UInt32.lt_trans hcounter (hown later hrest).2⟩
    · exact fun later hmem => (hown later hmem).2
    · rw [List.map_cons, List.getLastD_cons]
      exact hfinal
  | @other latest final floor position step leaf positions steps touched hindex hnot _ hrest _ =>
    subst hfloor
    -- another identifier has raised the floor above this one, so no version can follow
    have hlt : key.commitmentIndex < step.index := by
      by_contra hle
      exact hindex (CommitmentIndex.eq_of_not_lt_of_not_lt hnot hle)
    obtain ⟨hothers, hfinal⟩ := hrest.none_of_lt_floor hlt
    refine ⟨[], step :: steps, rfl, by simp, ?_, .nil, hfinal⟩
    exact List.forall_mem_cons.mpr ⟨hindex, hothers⟩

end Watch

theorem eq_ok_of_checkEntry {key : MonitorKey} {step : ProofStep} {set next : LeafSet}
    (h : (key.checkEntry step).run set = (.ok (), next)) :
    step.index = key.commitmentIndex ∧ step.counter = key.counter ∧
      ∃ leaf, step.leaf none = .ok leaf ∧
        (Collect.insert ⟨key.position, leaf⟩).run set = (.ok (), next) := by
  unfold checkEntry at h
  obtain ⟨-, h⟩ := Collect.refuse_run_eq_ok_iff.mp h
  obtain ⟨hindex, h⟩ := Collect.refuse_run_eq_ok_iff.mp h
  obtain ⟨leaf, hleaf, h⟩ := Collect.leaf_run_eq_ok_iff.mp h
  obtain ⟨hcounter, h⟩ := Collect.refuse_run_eq_ok_iff.mp h
  exact ⟨not_not.mp hindex, not_not.mp hcounter, leaf, (ProofStep.leaf_eq_ok_of_bound hleaf).1, h⟩

theorem checkEntry_eq_ok {key : MonitorKey} {step : ProofStep} {leaf : Hash} {set next : LeafSet}
    (hindex : step.index = key.commitmentIndex) (hcounter : step.counter = key.counter)
    (hleaf : step.leaf none = .ok leaf)
    (hinsert : (Collect.insert ⟨key.position, leaf⟩).run set = (.ok (), next)) :
    (key.checkEntry step).run set = (.ok (), next) := by
  have hfloor : ¬step.index < key.commitmentIndex := by
    rw [hindex]
    exact CommitmentIndex.not_lt_self _
  have hbound := ProofStep.leaf_bound_of_le hleaf (UInt32.le_of_eq hcounter.symm)
  refine Collect.refuse_run_eq_ok_iff.mpr ⟨hfloor, ?_⟩
  refine Collect.refuse_run_eq_ok_iff.mpr ⟨not_not.mpr hindex, ?_⟩
  refine Collect.leaf_run_eq_ok_iff.mpr ⟨leaf, hbound, ?_⟩
  exact Collect.refuse_run_eq_ok_iff.mpr ⟨not_not.mpr hcounter, hinsert⟩

/-- A monitoring proof is accepted if it shows the watched entry and is accepted on its frontier. -/
theorem verify_of_watch {key : MonitorKey} {size : Nat} {entry : ProofStep}
    {steps : List ProofStep} {leaf : Hash} {touched : List PlacedLeaf} {final : UInt32}
    {set next : LeafSet} (hposition : key.position < size)
    (hlength : (Tree.frontier key.position size).length = steps.length)
    (hindex : entry.index = key.commitmentIndex) (hcounter : entry.counter = key.counter)
    (hleaf : entry.leaf none = .ok leaf)
    (hwatch : Watch key key.counter key.commitmentIndex (Tree.frontier key.position size) steps
      touched final)
    (hinserts : ((⟨key.position, leaf⟩ :: touched).forM Collect.insert).run set =
      (.ok (), next)) :
    (key.verify ⟨entry :: steps⟩ size).run set =
      (.ok ⟨key.searchKey, key.entryPosition, final⟩, next) := by
  obtain ⟨_, between, hinsert, hinserts⟩ := Collect.bind_run_eq_ok_iff.mp hinserts
  have hentry := checkEntry_eq_ok hindex hcounter hleaf hinsert
  have hfrontier := checkFrontier_of_watch hwatch hinserts
  unfold verify
  refine Collect.refuse_run_eq_ok_iff.mpr ⟨Nat.not_le.mpr hposition, ?_⟩
  simp only [Tree.monitoredPositions, List.length_cons, hlength]
  refine Collect.refuse_run_eq_ok_iff.mpr ⟨Nat.lt_irrefl _, ?_⟩
  refine Collect.refuse_run_eq_ok_iff.mpr ⟨Nat.lt_irrefl _, ?_⟩
  refine Collect.bind_run_eq_ok_iff.mpr ⟨(), between, hentry, ?_⟩
  exact Collect.bind_run_eq_ok_iff.mpr ⟨final, next, hfrontier, rfl⟩

/-- The monitoring proofs that are accepted for a key, what each of them finds, and the leaves that
it implies.  Nothing here depends on the leaves that were collected for other keys. -/
inductive Accepts (key : MonitorKey) (size : Nat) :
    (proof : MonitorProof) → (found : MonitoredKey) → (touched : List PlacedLeaf) → Prop where
  | shown {entry : ProofStep} {steps : List ProofStep} {leaf : Hash} {touched : List PlacedLeaf}
      {final : UInt32} (hposition : key.position < size)
      (hlength : (Tree.frontier key.position size).length = steps.length)
      (hindex : entry.index = key.commitmentIndex) (hcounter : entry.counter = key.counter)
      (hleaf : entry.leaf none = .ok leaf)
      (hwatch : Watch key key.counter key.commitmentIndex (Tree.frontier key.position size) steps
        touched final) :
      Accepts key size ⟨entry :: steps⟩ ⟨key.searchKey, key.entryPosition, final⟩
        (⟨key.position, leaf⟩ :: touched)

/-- A monitoring proof passes exactly if it is accepted and the leaves that it implies can be put
into the set. -/
theorem verify_run_eq_ok_iff {key : MonitorKey} {proof : MonitorProof} {size : Nat}
    {found : MonitoredKey} {set next : LeafSet} :
    (key.verify proof size).run set = (.ok found, next) ↔
      ∃ touched, key.Accepts size proof found touched ∧
        (touched.forM Collect.insert).run set = (.ok (), next) := by
  constructor
  · intro h
    unfold verify at h
    obtain ⟨hposition, h⟩ := Collect.refuse_run_eq_ok_iff.mp h
    obtain ⟨henough, h⟩ := Collect.refuse_run_eq_ok_iff.mp h
    obtain ⟨hnotMore, h⟩ := Collect.refuse_run_eq_ok_iff.mp h
    obtain ⟨steps⟩ := proof
    cases steps with
    | nil => cases h
    | cons entry steps =>
      simp only [List.head?_cons, List.tail_cons] at h
      obtain ⟨_, between, hentry, h⟩ := Collect.bind_run_eq_ok_iff.mp h
      obtain ⟨latest, collected, hfrontier, h⟩ := Collect.bind_run_eq_ok_iff.mp h
      cases h
      obtain ⟨hindex, hcounter, leaf, hleaf, hinsert⟩ := eq_ok_of_checkEntry hentry
      have hlength : (Tree.frontier key.position size).length = steps.length := by
        simp only [Tree.monitoredPositions, List.length_cons] at henough hnotMore
        omega
      obtain ⟨touched, hwatch, htouched⟩ := watch_of_checkFrontier hlength hfrontier
      exact ⟨_, .shown (Nat.not_le.mp hposition) hlength hindex hcounter hleaf hwatch,
        Collect.bind_run_eq_ok_iff.mpr ⟨(), between, hinsert, htouched⟩⟩
  · rintro ⟨_, ⟨hposition, hlength, hindex, hcounter, hleaf, hwatch⟩, hinserts⟩
    exact verify_of_watch hposition hlength hindex hcounter hleaf hwatch hinserts

end MonitorKey

/-- What a verified monitoring proof shows, where `Holds` says of a leaf that it is in the log. -/
structure MonitorProof.Shows (proof : MonitorProof) (key : MonitorKey) (size : Nat)
    (Holds : PlacedLeaf → Prop) (found : MonitoredKey) : Prop where
  searchKey_eq : found.searchKey = key.searchKey
  entryPosition_eq : found.entryPosition = key.entryPosition
  /-- There is one step for every position that is watched, in this order. -/
  placed : List.Forall₂ (fun position step => ∃ leaf, step.leaf none = .ok leaf ∧
    Holds ⟨position, leaf⟩) (Tree.monitoredPositions key.position size) proof.steps
  not_lt : proof.steps.Pairwise fun earlier later => ¬later.index < earlier.index
  entry : ∃ entry, proof.steps.head? = some entry ∧ entry.index = key.commitmentIndex ∧
    entry.counter = key.counter
  /-- The versions of the identifier come first, and the last of them is the latest. -/
  versions : ∃ own others, proof.steps = own ++ others ∧
    (∀ step ∈ own, step.index = key.commitmentIndex) ∧
    (∀ step ∈ others, step.index ≠ key.commitmentIndex) ∧
    own.Pairwise (·.counter < ·.counter) ∧
    (own.map (·.counter)).getLast? = some found.latestCounter

theorem MonitorProof.Shows.imp {proof : MonitorProof} {key : MonitorKey} {size : Nat}
    {Holds Holds' : PlacedLeaf → Prop} {found : MonitoredKey}
    (himp : ∀ leaf, Holds leaf → Holds' leaf) (h : proof.Shows key size Holds found) :
    proof.Shows key size Holds' found := by
  refine { h with placed := h.placed.imp ?_ }
  rintro position step ⟨leaf, hleaf, hholds⟩
  exact ⟨leaf, hleaf, himp _ hholds⟩

namespace MonitorKey

/-- A monitoring proof that is accepted shows what it should. -/
theorem Accepts.shows {key : MonitorKey} {proof : MonitorProof} {size : Nat}
    {found : MonitoredKey} {touched : List PlacedLeaf}
    (h : key.Accepts size proof found touched) :
    proof.Shows key size (· ∈ touched) found := by
  obtain @⟨entry, steps, leaf, touched, final, -, -, hindex, hcounter, hleaf, hwatch⟩ := h
  obtain ⟨own, others, rfl, hown, hothers, hincreasing, hfinal⟩ := hwatch.versions rfl
  refine ⟨rfl, rfl, ?_, ?_, ⟨entry, rfl, hindex, hcounter⟩, ?_⟩
  · refine .cons ⟨leaf, hleaf, List.mem_cons_self⟩ (hwatch.placed.imp ?_)
    rintro position step ⟨later, hlater, hin⟩
    exact ⟨later, hlater, List.mem_cons_of_mem _ hin⟩
  · refine List.pairwise_cons.mpr ⟨?_, hwatch.not_lt.2⟩
    rw [hindex]
    exact hwatch.not_lt.1
  · refine ⟨entry :: own, others, rfl, ?_, hothers, ?_, ?_⟩
    · exact List.forall_mem_cons.mpr ⟨hindex, fun step hstep => (hown step hstep).1⟩
    · refine List.pairwise_cons.mpr ⟨?_, hincreasing⟩
      rw [hcounter]
      exact fun step hstep => (hown step hstep).2
    · rw [List.map_cons, List.getLast?_cons, hfinal, hcounter, List.getLastD_eq_getLast?]

/-- The leaves that a passing proof implies are collected, and the leaves collected before are
kept. -/
theorem shows_of_verify {key : MonitorKey} {proof : MonitorProof} {size : Nat} {set next : LeafSet}
    {found : MonitoredKey} (h : (key.verify proof size).run set = (.ok found, next)) :
    proof.Shows key size (· ∈ next.leaves) found ∧ set.leaves ⊆ next.leaves := by
  obtain ⟨touched, haccepts, hinserts⟩ := verify_run_eq_ok_iff.mp h
  have hmem := LeafSet.mem_of_forM_insert hinserts
  exact ⟨haccepts.shows.imp fun leaf hleaf => (hmem leaf).mpr (.inl hleaf),
    fun leaf hleaf => (hmem leaf).mpr (.inr hleaf)⟩

/-- All monitoring proofs that are accepted together show what they should. -/
theorem shows_of_mapM_verify {pairs : List (MonitorKey × MonitorProof)} {size : Nat}
    {set next : LeafSet} {found : List MonitoredKey}
    (h : (pairs.mapM fun (key, proof) => key.verify proof size : Collect _).run set =
      (.ok found, next)) :
    List.Forall₂ (fun pair found => pair.2.Shows pair.1 size (· ∈ next.leaves) found) pairs found ∧
      set.leaves ⊆ next.leaves := by
  induction pairs generalizing set found with
  | nil =>
    cases h
    exact ⟨.nil, List.Subset.refl _⟩
  | cons pair pairs ih =>
    rw [List.mapM_cons] at h
    obtain ⟨first, between, hfirst, h⟩ := Collect.bind_run_eq_ok_iff.mp h
    obtain ⟨rest, collected, hrest, h⟩ := Collect.bind_run_eq_ok_iff.mp h
    cases h
    obtain ⟨hshows, hkept⟩ := shows_of_verify hfirst
    obtain ⟨hall, hkeptLater⟩ := ih hrest
    exact ⟨.cons (hshows.imp fun leaf hleaf => hkeptLater hleaf) hall,
      List.Subset.trans hkept hkeptLater⟩

end MonitorKey

end KeyTransparency
