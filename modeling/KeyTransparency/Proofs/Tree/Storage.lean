import KeyTransparency.Proofs.Success
import KeyTransparency.Proofs.Tree.Subtrees

/-!
# What is stored

When leaves are appended one after the other, the root of every complete subtree ends up at its
place.  `Stores` says so; it holds of no leaves and is kept by each leaf, so it holds of every list.
From then on nothing needs to be known about places: a plan that reads the root of an aligned range
of leaves finds it.
-/

namespace KeyTransparency.Tree

/-! ## Reading stored hashes -/

variable {stored : Array Hash}

theorem ofStored_eq_ok {indexes : List Nat} {hashes : List Hash}
    (h : indexes.map (stored[·]?) = hashes.map some) :
    HashReader.ofStored stored indexes = .ok hashes := by
  induction indexes generalizing hashes with
  | nil =>
    cases hashes with
    | nil => rfl
    | cons hash hashes => cases h
  | cons index indexes ih =>
    cases hashes with
    | nil => cases h
    | cons hash hashes =>
      obtain ⟨hfirst, hrest⟩ := List.cons.inj h
      have htail := ih hrest
      unfold HashReader.ofStored at htail ⊢
      rw [List.mapM_cons, htail]
      simp only at hfirst
      rw [hfirst]
      rfl

theorem readExactly_ofStored {indexes : List Nat} {hashes : List Hash}
    (h : indexes.map (stored[·]?) = hashes.map some) :
    readExactly (.ofStored stored) indexes = .ok hashes := by
  have hlength : hashes.length = indexes.length := by
    simpa using (congrArg List.length h).symm
  unfold readExactly
  split
  · rename_i hnone
    subst hnone
    rw [List.eq_nil_of_length_eq_zero hlength]
  · rw [ofStored_eq_ok h]
    simp [bind, Except.bind, hlength]

/-- As many hashes are read as places were asked for. -/
theorem length_of_readExactly {reader : HashReader} {indexes : List Nat} {hashes : List Hash}
    (h : readExactly reader indexes = .ok hashes) : hashes.length = indexes.length := by
  unfold readExactly at h
  split at h
  · rename_i hnone
    subst hnone
    cases h
    rfl
  · obtain ⟨read, -, hcount⟩ := bind_eq_ok_iff.mp h
    split at hcount
    · cases hcount
      assumption
    · cases hcount

namespace Plan

variable {α β : Type}

/-- What a plan makes of the hashes that are stored where it reads. -/
def Finds (p : Plan α) (stored : Array Hash) (a : α) : Prop :=
  ∃ hashes, p.indexes.map (stored[·]?) = hashes.map some ∧ p.build hashes = a

theorem finds_pure (stored : Array Hash) (a : α) : (Plan.pure a).Finds stored a :=
  ⟨[], rfl, rfl⟩

theorem Finds.map {p : Plan α} {a : α} (h : p.Finds stored a) (f : α → β) :
    (p.map f).Finds stored (f a) := by
  obtain ⟨hashes, hread, rfl⟩ := h
  exact ⟨hashes, hread, rfl⟩

theorem Finds.both {p : Plan α} {q : Plan β} {a : α} {b : β} (hp : p.Finds stored a)
    (hq : q.Finds stored b) : (p.both q).Finds stored (a, b) := by
  obtain ⟨hashes, hread, rfl⟩ := hp
  obtain ⟨hashes', hread', rfl⟩ := hq
  have hlength : p.indexes.length = hashes.length := by
    simpa using congrArg List.length hread
  refine ⟨hashes ++ hashes', ?_, ?_⟩
  · rw [Plan.both, List.map_append, List.map_append, hread, hread']
  · simp only [Plan.both]
    rw [hlength, List.take_left, List.drop_left]

theorem Finds.run {p : Plan α} {a : α} (h : p.Finds stored a) :
    p.run (.ofStored stored) = .ok a := by
  obtain ⟨hashes, hread, rfl⟩ := h
  rw [Plan.run, readExactly_ofStored hread]
  rfl

end Plan

/-! ## Appending leaves -/

/-- Stored hashes with those of one more leaf. -/
def appendLeaf (stored : Array Hash) (n : Nat) (leaf : Hash) : Except TreeError (Array Hash) := do
  return stored ++ (← appendHashes n leaf (.ofStored stored)).toArray

/-- Appends leaves one after the other, the first as leaf `n`. -/
def appendLeaves : (stored : Array Hash) → (n : Nat) → List Hash → Except TreeError (Array Hash)
  | stored, _, [] => .ok stored
  | stored, n, leaf :: rest => do appendLeaves (← appendLeaf stored n leaf) (n + 1) rest

/-- The hashes stored for a list of leaves. -/
def storedHashes (leaves : List Hash) : Except TreeError (Array Hash) := appendLeaves #[] 0 leaves

/-- The root of every complete subtree of some leaves is stored at its place, and nothing else. -/
structure Stores (stored : Array Hash) (leaves : List Hash) : Prop where
  size_eq : stored.size = storedCount leaves.length
  getElem?_storedIndex : ∀ level n, (n + 1) * 2 ^ level ≤ leaves.length →
    stored[storedIndex level n]? = some (root (part leaves (n * 2 ^ level) (2 ^ level)))

theorem stores_nil : Stores #[] [] where
  size_eq := rfl
  getElem?_storedIndex := by
    intro level n hle
    have hpos : 0 < (n + 1) * 2 ^ level := Nat.mul_pos (Nat.succ_pos n) (Nat.two_pow_pos level)
    rw [List.length_nil] at hle
    omega

/-- The root of the `2 ^ level` leaves at the end. -/
def lastRoot (leaves : List Hash) (level : Nat) : Hash :=
  root (part leaves (leaves.length - 2 ^ level) (2 ^ level))

/-- The root of the `2 ^ level` leaves before those at the end. -/
def leftRoot (leaves : List Hash) (level : Nat) : Hash :=
  root (part leaves (leaves.length - 2 ^ (level + 1)) (2 ^ level))

theorem lastRoot_succ {leaves : List Hash} {level : Nat} (h : 2 ^ (level + 1) ≤ leaves.length) :
    lastRoot leaves (level + 1) = nodeHash (leftRoot leaves level) (lastRoot leaves level) := by
  have hpos : 0 < 2 ^ level := Nat.two_pow_pos level
  have hdouble : 2 ^ (level + 1) = 2 ^ level + 2 ^ level := by
    rw [Nat.pow_succ]
    omega
  have hstart : leaves.length - 2 ^ (level + 1) + 2 ^ level = leaves.length - 2 ^ level := by
    omega
  have hsize : 2 ^ (level + 1) - 2 ^ level = 2 ^ level := by omega
  rw [lastRoot, root_part (by omega) (by omega), leftSize_two_pow, hstart, hsize, leftRoot,
    lastRoot]

/-- Combining the root at the end with the roots before it completes one subtree after another. -/
theorem completed_lastRoot {leaves : List Hash} {level count : Nat}
    (h : 2 ^ (level + count) ≤ leaves.length) :
    completed (lastRoot leaves level) ((List.range' level count).map (leftRoot leaves)) =
      (List.range' level (count + 1)).map (lastRoot leaves) := by
  induction count generalizing level with
  | zero => rfl
  | succ count ih =>
    have hnext : 2 ^ (level + 1) ≤ 2 ^ (level + (count + 1)) :=
      Nat.pow_le_pow_right (by decide) (by omega)
    have hshift : level + 1 + count = level + (count + 1) := by omega
    rw [List.range'_succ, List.map_cons, completed, ← lastRoot_succ (Nat.le_trans hnext h),
      ih (by rwa [hshift])]
    rfl

namespace Stores

variable {leaves : List Hash}

/-- The roots that appending a leaf combines with are stored. -/
theorem getElem?_left (h : Stores stored leaves) (leaf : Hash) {level : Nat}
    (hlevel : level < trailingOnes leaves.length) :
    stored[storedIndex level ((leaves.length >>> level) - 1)]? =
      some (leftRoot (leaves ++ [leaf]) level) := by
  obtain ⟨q, hq⟩ : 2 ^ (level + 1) ∣ leaves.length + 1 := two_pow_dvd_succ_iff.mpr hlevel
  obtain ⟨r, rfl⟩ : ∃ r, q = r + 1 := ⟨q - 1, by cases q <;> simp_all⟩
  have hpos : 0 < 2 ^ level := Nat.two_pow_pos level
  -- the subtree of the leaf is the right half of subtree `r` on the next level
  have hlength : leaves.length + 1 = 2 * (r * 2 ^ level) + 2 * 2 ^ level := by
    rw [hq, Nat.pow_succ, Nat.mul_succ, Nat.mul_comm (2 ^ level) 2, Nat.mul_assoc,
      Nat.mul_comm (2 ^ level) r]
  have hshift : leaves.length >>> level - 1 = 2 * r := by
    rw [Nat.shiftRight_eq_div_pow]
    have hdiv : leaves.length / 2 ^ level = 2 * r + 1 := by
      refine Nat.div_eq_of_lt_le ?_ ?_
      · rw [Nat.add_mul, Nat.mul_assoc]
        omega
      · rw [Nat.add_mul, Nat.add_mul, Nat.mul_assoc]
        omega
    omega
  have hstart : 2 * r * 2 ^ level = (leaves ++ [leaf]).length - 2 ^ (level + 1) := by
    rw [List.length_append, List.length_singleton, hlength, Nat.pow_succ, Nat.mul_assoc]
    omega
  have hend : (2 * r + 1) * 2 ^ level ≤ leaves.length := by
    rw [Nat.add_mul, Nat.mul_assoc]
    omega
  rw [hshift, h.getElem?_storedIndex level (2 * r) hend, leftRoot, ← hstart, part_append]
  rw [← Nat.succ_mul]
  exact hend

theorem appendHashes_eq_ok (h : Stores stored leaves) (leaf : Hash) :
    appendHashes leaves.length leaf (.ofStored stored) =
      .ok ((List.range (trailingOnes leaves.length + 1)).map (lastRoot (leaves ++ [leaf]))) := by
  have hread : ((List.range (trailingOnes leaves.length)).map fun level =>
        storedIndex level ((leaves.length >>> level) - 1)).reverse.map (stored[·]?) =
      ((List.range (trailingOnes leaves.length)).map (leftRoot (leaves ++ [leaf]))).reverse.map
        some := by
    rw [List.map_reverse, List.map_reverse, List.map_map, List.map_map]
    congr 1
    refine List.map_congr_left ?_
    intro level hmem
    exact h.getElem?_left leaf (List.mem_range.mp hmem)
  have hdvd : 2 ^ trailingOnes leaves.length ∣ leaves.length + 1 :=
    two_pow_dvd_succ_iff.mpr (Nat.le_refl _)
  have hle : 2 ^ (0 + trailingOnes leaves.length) ≤ (leaves ++ [leaf]).length := by
    rw [Nat.zero_add, List.length_append, List.length_singleton]
    exact Nat.le_of_dvd (Nat.succ_pos _) hdvd
  have hend : part (leaves ++ [leaf]) ((leaves ++ [leaf]).length - 2 ^ 0) (2 ^ 0) = [leaf] := by
    rw [part, Nat.pow_zero, List.length_append, List.length_singleton, Nat.add_sub_cancel,
      List.drop_left]
    rfl
  have hleaf : lastRoot (leaves ++ [leaf]) 0 = leaf := by
    rw [lastRoot, hend, root_singleton]
  have hcompleted := completed_lastRoot hle
  rw [hleaf, ← List.range_eq_range', ← List.range_eq_range'] at hcompleted
  simp only [appendHashes]
  rw [readExactly_ofStored hread]
  simp only [bind, Except.bind, pure, Except.pure, List.reverse_reverse, hcompleted]

/-- One more leaf can be appended, and then its subtrees are stored as well. -/
theorem appendLeaf_eq_ok (h : Stores stored leaves) (leaf : Hash) :
    ∃ next, appendLeaf stored leaves.length leaf = .ok next ∧ Stores next (leaves ++ [leaf]) := by
  rw [appendLeaf, h.appendHashes_eq_ok leaf]
  refine ⟨_, rfl, ?_, ?_⟩
  · simp only [Array.size_append, List.size_toArray, List.length_map, List.length_range,
      List.length_append, List.length_singleton, storedCount_eq_hashesBefore, hashesBefore_succ,
      h.size_eq]
    omega
  · intro level n hle
    rw [List.length_append, List.length_singleton] at hle
    by_cases hold : (n + 1) * 2 ^ level ≤ leaves.length
    · have hstored := h.getElem?_storedIndex level n hold
      obtain ⟨hbound, -⟩ := Array.getElem?_eq_some_iff.mp hstored
      rw [Array.getElem?_append_left hbound, hstored, part_append]
      rw [← Nat.succ_mul]
      exact hold
    · -- the leaf is the last one of the subtree
      have hlast : (n + 1) * 2 ^ level = leaves.length + 1 := by omega
      have hlevel : level ≤ trailingOnes leaves.length :=
        two_pow_dvd_succ_iff.mp (hlast ▸ Nat.dvd_mul_left _ _)
      have hindex : storedIndex level n = stored.size + level := by
        rw [storedIndex, hlast, h.size_eq, storedCount_eq_hashesBefore, Nat.add_sub_cancel]
      have hstart : n * 2 ^ level = (leaves ++ [leaf]).length - 2 ^ level := by
        rw [List.length_append, List.length_singleton, ← hlast, Nat.succ_mul, Nat.add_sub_cancel]
      rw [hindex, Array.getElem?_append_right (Nat.le_add_right _ _), Nat.add_sub_cancel_left,
        hstart]
      simp [Nat.lt_succ_of_le hlevel, lastRoot]

theorem appendLeaves_eq_ok (h : Stores stored leaves) (more : List Hash) :
    ∃ next, appendLeaves stored leaves.length more = .ok next ∧
      Stores next (leaves ++ more) := by
  induction more generalizing stored leaves with
  | nil => exact ⟨stored, rfl, by rwa [List.append_nil]⟩
  | cons leaf rest ih =>
    obtain ⟨between, hbetween, hstores⟩ := h.appendLeaf_eq_ok leaf
    obtain ⟨next, hnext, hall⟩ := ih hstores
    refine ⟨next, ?_, ?_⟩
    · rw [appendLeaves, hbetween]
      rw [List.length_append, List.length_singleton] at hnext
      exact hnext
    · rwa [List.append_assoc, List.singleton_append] at hall

end Stores

/-- Leaves can be appended one after the other, and then the root of every complete subtree is
stored. -/
theorem exists_stores_storedHashes (leaves : List Hash) :
    ∃ stored, storedHashes leaves = .ok stored ∧ Stores stored leaves :=
  stores_nil.appendLeaves_eq_ok leaves

/-! ## Ranges of leaves -/

namespace Stores

variable {leaves : List Hash}

theorem getElem?_index (h : Stores stored leaves) {level start : Nat} (hdvd : 2 ^ level ∣ start)
    (hend : start + 2 ^ level ≤ leaves.length) :
    stored[Subtree.index ⟨level, start⟩]? = some (root (part leaves start (2 ^ level))) := by
  obtain ⟨n, rfl⟩ := hdvd
  simp only [Subtree.index, Nat.shiftRight_eq_div_pow]
  rw [Nat.mul_div_cancel_left n (Nat.two_pow_pos level), Nat.mul_comm]
  refine h.getElem?_storedIndex level n ?_
  rw [Nat.succ_mul, Nat.mul_comm]
  exact hend

/-- The root of an aligned range of leaves is found among the stored hashes. -/
theorem finds_rangeHash (h : Stores stored leaves) {start size : Nat}
    (haligned : Aligned start size) (hend : start + size ≤ leaves.length) :
    (Plan.rangeHash start size).Finds stored (root (part leaves start size)) := by
  refine ⟨((completeSubtrees start size).map Subtree.range).map (LeafRange.rootIn leaves), ?_,
    foldSubtrees_completeSubtrees hend⟩
  rw [Plan.rangeHash, subtreeIndexes, List.map_map, List.map_map, List.map_map]
  refine List.map_congr_left ?_
  intro s hs
  obtain ⟨-, hbound⟩ := bounds_of_mem_completeSubtrees hs
  have hstored := h.getElem?_index (haligned.dvd_of_mem hs) (Nat.le_trans hbound hend)
  rwa [← Nat.add_sub_cancel_left s.start (2 ^ s.level)] at hstored

/-- The root of the first leaves of a log whose hashes are stored. -/
theorem treeHash_eq_ok (h : Stores stored leaves) {size : Nat} (hsize : size ≤ leaves.length) :
    treeHash size (.ofStored stored) = .ok (root (leaves.take size)) := by
  have hfinds := h.finds_rangeHash (.zero size) (by omega)
  rw [part_zero] at hfinds
  exact hfinds.run

end Stores

/-- Leaves can be appended one after the other.  What is then stored takes at most two places for
each leaf, has the root of every complete subtree at its place, and gives the root of the log at
every size it has had. -/
theorem storedHashes_keep_every_root (leaves : List Hash) :
    ∃ stored, storedHashes leaves = .ok stored ∧
      stored.size = storedCount leaves.length ∧
      stored.size ≤ 2 * leaves.length ∧
      (∀ level n, (n + 1) * 2 ^ level ≤ leaves.length →
        stored[storedIndex level n]? = some (root (part leaves (n * 2 ^ level) (2 ^ level)))) ∧
      ∀ size ≤ leaves.length,
        treeHash size (.ofStored stored) = .ok (root (leaves.take size)) := by
  obtain ⟨stored, happended, hstores⟩ := exists_stores_storedHashes leaves
  have hplaces : stored.size ≤ 2 * leaves.length := hstores.size_eq ▸ storedCount_le leaves.length
  exact ⟨stored, happended, hstores.size_eq, hplaces, hstores.getElem?_storedIndex,
    fun _ => hstores.treeHash_eq_ok⟩

/-- The hashes of five entries, whose tree is not complete. -/
def fiveLeaves : List Hash :=
  [recordHash [0x00], recordHash [0x01], recordHash [0x02], recordHash [0x03], recordHash [0x04]]

end KeyTransparency.Tree
