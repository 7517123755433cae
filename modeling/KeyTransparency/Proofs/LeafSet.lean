import KeyTransparency.Proofs.Tree.Batch
import Mathlib.Data.List.Sort

/-!
# What a verified set of leaves shows

A check that collects leaves succeeds only if no two of them differ at one position, and then it
has collected all of them.  A set that is verified against a root is contained in it, each leaf at
its position.
-/

namespace KeyTransparency

open KeyTransparency.Tree (PlacedLeaf Contains HashTree)

/-! ## Checks that collect leaves -/

namespace Collect

variable {α β : Type} {set final : LeafSet}

theorem bind_run_eq_ok_iff {first : Collect α} {next : α → Collect β} {b : β} :
    (first >>= next).run set = (.ok b, final) ↔
      ∃ a between, first.run set = (.ok a, between) ∧ (next a).run between = (.ok b, final) := by
  have hrun : (first >>= next).run set =
      match first.run set with
      | (.ok a, between) => (next a).run between
      | (.error error, between) => (.error error, between) := by
    simp only [ExceptT.run, bind, ExceptT.bind, ExceptT.mk, StateT.bind, ExceptT.bindCont]
    rcases first set with ⟨result, between⟩
    cases result <;> rfl
  rw [hrun]
  rcases first.run set with ⟨result, between⟩
  cases result with
  | error error =>
    constructor
    · intro h
      cases h
    · rintro ⟨a, other, h, -⟩
      cases h
  | ok a =>
    constructor
    · intro h
      exact ⟨a, between, rfl, h⟩
    · rintro ⟨a', other, h, hnext⟩
      cases h
      exact hnext

theorem throw_bind_run_ne_ok {error : VerificationError} {next : β → Collect α} {a : α} :
    (throw error >>= next).run set ≠ (.ok a, final) := by
  intro h
  obtain ⟨b, between, hthrow, -⟩ := bind_run_eq_ok_iff.mp h
  cases hthrow

/-- A check that is given up where something holds goes on only if it does not. -/
theorem refuse_run_eq_ok_iff {p : Prop} [Decidable p] {error : VerificationError}
    {next : β → Collect α} {rest : Collect α} {a : α} :
    (if p then (throw error >>= next) else rest).run set = (.ok a, final) ↔
      ¬p ∧ rest.run set = (.ok a, final) := by
  by_cases hp : p
  · rw [if_pos hp]
    constructor
    · intro h
      exact absurd h throw_bind_run_ne_ok
    · rintro ⟨hnot, -⟩
      exact absurd hp hnot
  · simp [hp]

/-- A check goes on with the leaf of an entry only if there is one. -/
theorem leaf_run_eq_ok_iff {result : Except PrefixError Hash}
    {error : PrefixError → VerificationError} {next : Hash → Collect α} {a : α} :
    (match result with
      | .ok leaf => pure leaf >>= next
      | .error reason => throw (error reason) >>= next : Collect α).run set = (.ok a, final) ↔
      ∃ leaf, result = .ok leaf ∧ (next leaf).run set = (.ok a, final) := by
  cases result with
  | error reason =>
    constructor
    · intro h
      exact absurd h throw_bind_run_ne_ok
    · rintro ⟨leaf, heq, -⟩
      cases heq
  | ok leaf => simp

theorem run_insert (new : PlacedLeaf) (set : LeafSet) :
    (insert new).run set =
      (if set.conflicts new then .error (.prefixRootMismatch new.position) else .ok (),
        set.insert new) := by
  change (if set.conflicts new = true
      then (throw (.prefixRootMismatch new.position) : Collect Unit)
      else pure ()).run (set.insert new) = _
  split <;> rfl

theorem fromEmpty_eq_ok_iff {check : Collect α} {value : α} :
    check.fromEmpty = .ok (value, set) ↔ check.run .empty = (.ok value, set) := by
  unfold fromEmpty
  rcases check.run .empty with ⟨result, collected⟩
  constructor
  · intro h
    cases result with
    | error error => cases h
    | ok value' =>
      cases h
      rfl
  · intro h
    cases h
    rfl

end Collect

/-! ## The leaves of a set -/

namespace LeafSet

theorem find?_position_eq_some_iff {leaves : List PlacedLeaf}
    (hsorted : leaves.Pairwise (·.position < ·.position)) (leaf : PlacedLeaf) :
    leaves.find? (·.position == leaf.position) = some leaf ↔ leaf ∈ leaves := by
  constructor
  · exact List.mem_of_find?_eq_some
  · intro hmem
    induction leaves with
    | nil => cases hmem
    | cons first rest ih =>
      obtain ⟨hfirst, hrest⟩ := List.pairwise_cons.mp hsorted
      rcases List.mem_cons.mp hmem with rfl | hlater
      · simp
      · have hne : first.position ≠ leaf.position := Nat.ne_of_lt (hfirst leaf hlater)
        rw [List.find?_cons_of_neg (by simpa using hne)]
        exact ih hrest hlater

theorem mem_leaves_iff (set : LeafSet) (leaf : PlacedLeaf) :
    leaf ∈ set.leaves ↔ set.leafAt? leaf.position = some leaf.leaf := by
  rw [← find?_position_eq_some_iff set.sorted leaf, leafAt?, Option.map_eq_some_iff]
  constructor
  · intro h
    exact ⟨leaf, h, rfl⟩
  · rintro ⟨found, hfound, hleaf⟩
    have hposition : found.position = leaf.position := by
      simpa using List.find?_some hfound
    have hsame : found = leaf := by
      cases found
      cases leaf
      simp_all
    rw [hfound, hsame]

theorem mem_insert_iff {set : LeafSet} {new : PlacedLeaf} (h : set.conflicts new = false)
    (leaf : PlacedLeaf) : leaf ∈ (set.insert new).leaves ↔ leaf = new ∨ leaf ∈ set.leaves := by
  rw [mem_leaves_iff, mem_leaves_iff, leafAt?_insert]
  by_cases hposition : new.position = leaf.position
  · rw [if_pos hposition]
    have hagree : ∀ hash, set.leafAt? leaf.position = some hash → hash = new.leaf := by
      intro hash hhash
      rw [← hposition] at hhash
      simpa [conflicts, hhash] using h
    constructor
    · intro heq
      refine .inl ?_
      cases leaf
      cases new
      simp_all
    · rintro (rfl | hmem)
      · rfl
      · rw [hagree leaf.leaf hmem]
  · rw [if_neg hposition]
    constructor
    · exact .inr
    · rintro (rfl | hmem)
      · exact absurd rfl hposition
      · exact hmem

theorem mem_of_forM_insert {leaves : List PlacedLeaf} {set final : LeafSet}
    (h : (leaves.forM Collect.insert).run set = (.ok (), final)) (leaf : PlacedLeaf) :
    leaf ∈ final.leaves ↔ leaf ∈ leaves ∨ leaf ∈ set.leaves := by
  induction leaves generalizing set with
  | nil =>
    cases h
    simp
  | cons new rest ih =>
    obtain ⟨_, between, hinsert, hrest⟩ := Collect.bind_run_eq_ok_iff.mp h
    rw [Collect.run_insert] at hinsert
    obtain ⟨hok, rfl⟩ := Prod.mk.inj hinsert
    have hfree : set.conflicts new = false := by
      by_contra hconflict
      simp [hconflict] at hok
    rw [ih hrest, mem_insert_iff hfree, List.mem_cons]
    tauto

theorem conflicts_eq_false {set : LeafSet} {new : PlacedLeaf}
    (h : ∀ old ∈ set.leaves, old.position = new.position → old.leaf = new.leaf) :
    set.conflicts new = false := by
  unfold conflicts
  split
  · rename_i leaf hleaf
    have hsame : leaf = new.leaf :=
      h ⟨new.position, leaf⟩ ((mem_leaves_iff set _).mpr hleaf) rfl
    simp [hsame]
  · rfl

/-- Leaves that do not differ at any position can all be put into a set. -/
theorem exists_forM_insert {leaves : List PlacedLeaf} {set : LeafSet}
    (hagree : ∀ leaf ∈ leaves ++ set.leaves, ∀ other ∈ leaves ++ set.leaves,
      leaf.position = other.position → leaf.leaf = other.leaf) :
    ∃ final, (leaves.forM Collect.insert).run set = (.ok (), final) := by
  induction leaves generalizing set with
  | nil => exact ⟨set, rfl⟩
  | cons new rest ih =>
    have hfree : set.conflicts new = false := by
      apply conflicts_eq_false
      intro old hold
      exact hagree old (List.mem_append_right _ hold) new List.mem_cons_self
    have hsubset : rest ++ (set.insert new).leaves ⊆ new :: rest ++ set.leaves := by
      intro leaf hleaf
      rw [List.mem_append, mem_insert_iff hfree] at hleaf
      simp only [List.cons_append, List.mem_cons, List.mem_append]
      tauto
    obtain ⟨final, hfinal⟩ := @ih (set.insert new) fun leaf hleaf other hother =>
      hagree leaf (hsubset hleaf) other (hsubset hother)
    have hinsert : (Collect.insert new).run set = (.ok (), set.insert new) := by
      rw [Collect.run_insert, hfree]
      rfl
    exact ⟨final, Collect.bind_run_eq_ok_iff.mpr ⟨(), _, hinsert, hfinal⟩⟩

/-- The set of some leaves holds these leaves and no others. -/
theorem mem_leaves_ofLeaves {leaves : List PlacedLeaf} {set : LeafSet}
    (h : ofLeaves leaves = .ok set) (leaf : PlacedLeaf) : leaf ∈ set.leaves ↔ leaf ∈ leaves := by
  obtain ⟨⟨_, collected⟩, hcollect, hset⟩ := bind_eq_ok_iff.mp h
  cases hset
  rw [mem_of_forM_insert (Collect.fromEmpty_eq_ok_iff.mp hcollect)]
  simp [empty]

theorem exists_forM_insert_of_nodup {leaves : List PlacedLeaf}
    (hdistinct : (leaves.map (·.position)).Nodup) :
    ∃ set, (leaves.forM Collect.insert).run .empty = (.ok (), set) := by
  apply exists_forM_insert
  intro leaf hleaf other hother hsame
  simp only [empty, List.append_nil] at hleaf hother
  rw [List.inj_on_of_nodup_map hdistinct hleaf hother hsame]

/-- Leaves at different positions make up a set, in which they stand in order of position. -/
theorem exists_ofLeaves {leaves : List PlacedLeaf} (hdistinct : (leaves.map (·.position)).Nodup) :
    ∃ set, ofLeaves leaves = .ok set ∧
      set.leaves.map (·.position) = (leaves.map (·.position)).mergeSort := by
  obtain ⟨set, hcollect⟩ := exists_forM_insert_of_nodup hdistinct
  have hset : ofLeaves leaves = .ok set :=
    bind_eq_ok_iff.mpr ⟨((), set), Collect.fromEmpty_eq_ok_iff.mpr hcollect, rfl⟩
  refine ⟨set, hset, ?_⟩
  have hincreasing : (set.leaves.map (·.position)).Pairwise (· < ·) :=
    List.pairwise_map.mpr set.sorted
  have hperm := List.mergeSort_perm (leaves.map (·.position)) (· ≤ ·)
  have hsorted :=
    (List.sortedLE_mergeSort.sortedLT_of_nodup (hperm.nodup_iff.mpr hdistinct)).pairwise
  apply hincreasing.eq_of_mem_iff hsorted
  intro position
  rw [hperm.mem_iff, List.mem_map, List.mem_map]
  simp only [mem_leaves_ofLeaves hset]

/-! ## Verified sets -/

/-- The computation that verifying a set of leaves calls for. -/
def treeOf (set : LeafSet) (size : Nat) (proof : List Hash) : Except TreeError HashTree :=
  Tree.batchTreeOf size (set.leaves.map (·.position)) (set.leaves.map (·.leaf)) proof

def messages (set : LeafSet) (size : Nat) (proof : List Hash) : List Bytes :=
  match set.treeOf size proof with
  | .ok tree => tree.messages
  | .error _ => []

/-- A set of leaves is verified exactly if the computation that its proof calls for leads to the
root. -/
theorem verify_eq_ok_iff {set : LeafSet} {size : Nat} {root : Hash} {proof : List Hash} :
    set.verify size root proof = .ok () ↔
      ∃ tree, set.treeOf size proof = .ok tree ∧ tree.hash = root := by
  unfold verify Tree.evaluateBatch treeOf
  cases htree : Tree.batchTreeOf size (set.leaves.map (·.position)) (set.leaves.map (·.leaf))
      proof with
  | error error => cases error <;> simp [htree, bind, Except.bind]
  | ok tree => simp [htree, bind, Except.bind, pure, Except.pure]

/-- The proof that is made for the positions of some leaves of a list verifies them. -/
theorem verify_batchHashes {set : LeafSet} {leaves : List Hash}
    (h : Tree.PlacedIn leaves set.leaves) (hpos : 1 ≤ leaves.length) :
    set.verify leaves.length (Tree.root leaves)
      (Tree.batchHashes (set.leaves.map (·.position)) leaves) = .ok () :=
  verify_eq_ok_iff.mpr
    (Tree.batchTreeOf_batchHashes h hpos (List.pairwise_map.mpr set.sorted))

/-- A root against which a set of leaves is verified commits to each of them. -/
theorem contains_of_verify {set : LeafSet} {size : Nat} {root : Hash} {proof : List Hash}
    (h : set.verify size root proof = .ok ()) {leaf : PlacedLeaf} (hleaf : leaf ∈ set.leaves) :
    Contains (set.messages size proof) size root leaf.position leaf.leaf := by
  obtain ⟨tree, htree, rfl⟩ := verify_eq_ok_iff.mp h
  obtain ⟨-, -, hplaced, hbatch⟩ := Tree.placed_of_batchTreeOf htree
  have hzip : List.zipWith PlacedLeaf.mk (set.leaves.map (·.position)) (set.leaves.map (·.leaf)) =
      set.leaves := by simp
  rw [hzip] at hplaced hbatch
  have hmessages : tree.messages ⊆ set.messages size proof := by
    rw [messages, htree]
    exact List.Subset.refl _
  exact Tree.contains_of_batchTree hplaced hbatch hmessages hleaf

/-- The leaves of a set that is verified against the root of a list are in the list. -/
theorem getElem?_eq_of_verify {hashed : List Bytes} (hsafe : ¬Collision hashed) {set : LeafSet}
    {size : Nat} {root : Hash} {proof : List Hash} (h : set.verify size root proof = .ok ())
    (hset : set.messages size proof ⊆ hashed) {leaves : List Hash}
    (hlength : leaves.length = size) (hroot : root = Tree.root leaves)
    (hleaves : (Tree.ofLeaves leaves).messages ⊆ hashed) {leaf : PlacedLeaf}
    (hleaf : leaf ∈ set.leaves) : leaves[leaf.position]? = some leaf.leaf :=
  ((contains_of_verify h hleaf).mono hset).getElem?_eq hsafe hlength hroot hleaves

/-- No set of leaves, not even the empty one, is verified against a tree without leaves. -/
theorem size_pos_of_verify {set : LeafSet} {size : Nat} {root : Hash} {proof : List Hash}
    (h : set.verify size root proof = .ok ()) : 1 ≤ size := by
  obtain ⟨tree, htree, -⟩ := verify_eq_ok_iff.mp h
  exact (Tree.placed_of_batchTreeOf htree).1

end LeafSet

end KeyTransparency
