import KeyTransparency.Proofs.Tree.Storage
import KeyTransparency.Proofs.Words.Layout
import KeyTransparency.Proofs.Words.Subtrees
import KeyTransparency.Words.Storage

/-!
# Reading for a proof and using what was read

The walk that lists the places of a range of leaves and the walk that uses their hashes divide the
range into the same subtrees.  So whatever hashes are read, the second walk uses as many of them as
the first asked for, and it halts nowhere.  `Realizes` says so of a pair of walks and the plan that
they carry out; it holds of ranges that begin at the right place, and it is kept where two pairs are
carried out one after the other.
-/

namespace KeyTransparency

namespace Tree

theorem length_subtreeIndexes (start size : Nat) :
    (subtreeIndexes start size).length = (completeSubtrees start size).length :=
  List.length_map _

/-- The hash of a range is folded from the last subtree on. -/
theorem foldSubtrees_concat (before : List Hash) (last : Hash) :
    foldSubtrees (before ++ [last]) = before.foldr nodeHash last := by
  induction before with
  | nil => rfl
  | cons first rest ih =>
    rw [List.cons_append, foldSubtrees_cons first (List.append_ne_nil_of_right_ne_nil _ (by simp)),
      ih, List.foldr_cons]

end Tree

namespace Words

variable {α β γ : Type} {lo hi : UInt64}

/-! ## The subtrees of a range -/

/-- The subtrees of a range are found in words. -/
theorem exists_subtreesFrom? (hhi : hi.toNat ≤ maxLeaves) :
    ∃ bounds, subtreesFrom? hi 64 lo = some bounds ∧
      bounds.map leafRange =
        (Tree.completeSubtrees lo.toNat (hi.toNat - lo.toNat)).map Tree.Subtree.range := by
  have hrounds : hi.toNat - lo.toNat < 2 ^ 64 := Nat.lt_of_le_of_lt (Nat.sub_le _ _) hi.toNat_lt
  have hword : hi.toNat - lo.toNat + 1 < UInt64.size := by
    have hmax : maxLeaves < UInt64.size - 1 := by decide
    omega
  exact Option.map_eq_some_iff.mp (subtreesFrom?_eq hrounds hword)

/-- The place of a subtree that begins at a multiple of its size is found in words. -/
theorem exists_subtreeIndex? {bounds : UInt64 × UInt64} {s : Tree.Subtree}
    (h : leafRange bounds = s.range) (hdvd : 2 ^ s.level ∣ s.start)
    (hend : s.start + 2 ^ s.level ≤ maxLeaves) :
    ∃ place, subtreeIndex? bounds = some place ∧ place.toNat = s.index := by
  obtain ⟨hlo, hhi⟩ := Tree.LeafRange.mk.inj h
  have hpos : 0 < 2 ^ s.level := Nat.two_pow_pos s.level
  have hlevel : s.level < 64 := by
    have hpow : 2 ^ s.level < 2 ^ 64 :=
      Nat.lt_of_le_of_lt (Nat.le_trans (Nat.le_add_left _ _) hend) (by decide)
    exact (Nat.pow_lt_pow_iff_right (by decide)).mp hpow
  obtain ⟨width, hwidth, hwidthNat⟩ := @exists_sub? bounds.2 bounds.1 (by omega)
  rw [hhi, hlo, Nat.add_sub_cancel_left] at hwidthNat
  have hlog : log2? width = some s.level := by
    rw [log2?_eq (by omega), hwidthNat, Nat.log2_two_pow]
  obtain ⟨mask, hmask, hmaskNat⟩ := @exists_sub? width 1 (hwidthNat ▸ hpos)
  have hmaskNat : mask.toNat = 2 ^ s.level - 1 := hmaskNat.trans (hwidthNat ▸ rfl)
  have haligned : bounds.1 &&& mask = 0 := by
    rw [← UInt64.toNat_inj, UInt64.toNat_and, hmaskNat, Nat.and_two_pow_sub_one_eq_mod, hlo]
    exact Nat.mod_eq_zero_of_dvd hdvd
  obtain ⟨number, hnumber, hnumberNat⟩ := exists_shiftRight? bounds.1 hlevel
  have hends : (number.toNat + 1) * 2 ^ s.level.toUInt8.toNat ≤ maxLeaves := by
    rw [toNat_toUInt8 hlevel, hnumberNat, hlo, Nat.shiftRight_eq_div_pow, Nat.succ_mul,
      Nat.div_mul_cancel hdvd]
    exact hend
  obtain ⟨place, hplace, hplaceNat⟩ := exists_storedIndex? hends
  refine ⟨place, ?_, ?_⟩
  · rw [subtreeIndex?, hwidth]
    simp only [Option.bind_eq_bind, Option.bind_some, hlog, hmask, if_pos haligned, hnumber]
    exact hplace
  · rw [hplaceNat, toNat_toUInt8 hlevel, hnumberNat, hlo]
    rfl

/-- The places for an aligned range are found in words. -/
theorem exists_subtreeIndexes? (haligned : Tree.Aligned lo.toNat (hi.toNat - lo.toNat))
    (hlo : lo.toNat ≤ hi.toNat) (hhi : hi.toNat ≤ maxLeaves) :
    ∃ places, places.map (·.toNat) = Tree.subtreeIndexes lo.toNat (hi.toNat - lo.toNat) ∧
      ∀ need, subtreeIndexes? lo hi need = some (need ++ places) := by
  obtain ⟨bounds, hbounds, hranges⟩ := exists_subtreesFrom? hhi
  have hequal : List.Forall₂ Eq (bounds.map leafRange)
      ((Tree.completeSubtrees lo.toNat (hi.toNat - lo.toNat)).map Tree.Subtree.range) := by
    rw [List.forall₂_eq_eq_eq]
    exact hranges
  obtain ⟨hlength, hpairs⟩ := List.forall₂_iff_zip.mp
    (List.forall₂_map_right_iff.mp (List.forall₂_map_left_iff.mp hequal))
  have hplaces : List.Forall₂
      (fun b number => ∃ place, subtreeIndex? b = some place ∧ place.toNat = number) bounds
      (Tree.subtreeIndexes lo.toNat (hi.toNat - lo.toNat)) := by
    apply List.forall₂_map_right_iff.mpr
    apply List.forall₂_iff_zip.mpr
    refine ⟨hlength, ?_⟩
    intro b s hpair
    obtain ⟨-, hs⟩ := List.of_mem_zip hpair
    obtain ⟨-, hbound⟩ := Tree.bounds_of_mem_completeSubtrees hs
    rw [Nat.add_sub_of_le hlo] at hbound
    exact exists_subtreeIndex? (hpairs hpair) (haligned.dvd_of_mem hs) (Nat.le_trans hbound hhi)
  obtain ⟨places, hfound, hfoundNat⟩ := exists_mapM_toNat hplaces
  refine ⟨places, hfoundNat, ?_⟩
  intro need
  rw [subtreeIndexes?, hbounds]
  simp only [Option.bind_eq_bind, Option.bind_some, hfound]
  rfl

/-- A range that is not aligned halts the search: two leaves that begin at the second one are not a
subtree. -/
example : subtreeIndexes? 1 3 [] = none := by decide

/-! ## The hash of a range -/

theorem foldBack?_eq {hashes : List Hash} {count : Nat} (h : count ≤ hashes.length)
    (hash : Hash) : foldBack? hashes count hash = some ((hashes.take count).foldr nodeHash hash) := by
  induction count generalizing hash with
  | zero => rfl
  | succ count ih =>
    have hmember : member? count hashes = some hashes[count] := List.getElem?_eq_getElem h
    rw [foldBack?, hmember]
    simp only [Option.bind_eq_bind, Option.bind_some, ih (Nat.le_of_lt h)]
    rw [List.take_succ_eq_append_getElem h, List.foldr_append]
    rfl

/-- The hash of a range takes one hash for each of its subtrees, and leaves the others. -/
theorem subtreeHash?_eq (hlo : lo.toNat < hi.toNat) (hhi : hi.toNat ≤ maxLeaves)
    {hashes : List Hash}
    (hlength : hashes.length = (Tree.subtreeIndexes lo.toNat (hi.toNat - lo.toNat)).length)
    (rest : List Hash) :
    subtreeHash? lo hi (hashes ++ rest) = some (Tree.foldSubtrees hashes, rest) := by
  obtain ⟨bounds, hbounds, hranges⟩ := @exists_subtreesFrom? lo hi hhi
  have hcount : bounds.length = hashes.length := by
    rw [hlength, Tree.length_subtreeIndexes]
    simpa using congrArg List.length hranges
  have hsome : hashes ≠ [] := by
    rintro rfl
    rw [Tree.length_subtreeIndexes,
      Tree.completeSubtrees_of_ne_zero _ (Nat.sub_ne_zero_of_lt hlo)] at hlength
    cases hlength
  obtain ⟨before, last, rfl⟩ : ∃ before last, hashes = before ++ [last] :=
    ⟨_, _, (List.dropLast_append_getLast hsome).symm⟩
  rw [List.length_append, List.length_singleton] at hcount
  have hbefore : difference? bounds.length 1 = some before.length := by
    rw [hcount, difference?_eq (Nat.le_add_left 1 _), Nat.add_sub_cancel]
  have hlast : member? before.length (before ++ last :: rest) = some last := by
    rw [member?, List.getElem?_append_right (Nat.le_refl _), Nat.sub_self]
    rfl
  have hfold : foldBack? (before ++ last :: rest) before.length last =
      some (before.foldr nodeHash last) := by
    rw [foldBack?_eq (by simp), List.take_left]
  have hdrop : drop? bounds.length (before ++ last :: rest) = some rest := by
    rw [hcount, drop?_eq (by simp), List.drop_length_add_append]
    rfl
  rw [List.append_assoc, List.singleton_append, subtreeHash?, hbounds]
  simp only [Option.bind_eq_bind, Option.bind_some, hbefore, hlast, hfold, hdrop,
    Tree.foldSubtrees_concat]
  rfl

/-! ## Carrying out a plan -/

/-- The hash computed for a range is the root of this range of `leaves`. -/
def RangeHash.RightIn (leaves : List Hash) (range : RangeHash) : Prop :=
  range.hash = Tree.LeafRange.rootIn leaves (leafRange (range.lo, range.hi))

/-- A walk that lists places and a walk that uses hashes carry out a plan for a tree of `size`
leaves.  The first lists the places of the plan behind those listed before.  The second takes one
hash for each of them from the front, whatever hashes they are, and makes what the plan makes.
Where the hashes of enough leaves are stored, there is one at each place, and with these the second
walk computes the root of each range. -/
structure Realizes (size : Nat) (indexes : List UInt64 → Option (List UInt64)) (making : Making α)
    (plan : Tree.Plan α) : Prop where
  lists : ∃ places, places.map (·.toNat) = plan.indexes ∧
    ∀ need, indexes need = some (need ++ places)
  uses : ∀ hashes rest computed, hashes.length = plan.indexes.length →
    ∃ ranges, making.run ⟨hashes ++ rest, computed⟩ =
        some (plan.build hashes, ⟨rest, computed ++ ranges⟩) ∧
      ∀ stored leaves, Tree.Stores stored leaves → size ≤ leaves.length →
        plan.indexes.map (stored[·]?) = hashes.map some → ∀ range ∈ ranges, range.RightIn leaves
  finds : ∀ stored leaves, Tree.Stores stored leaves → size ≤ leaves.length →
    ∃ a, plan.Finds stored a

namespace Realizes

variable {size : Nat} {indexes indexes' : List UInt64 → Option (List UInt64)}
  {making : Making α} {making' : Making β} {p : Tree.Plan α} {q : Tree.Plan β}

theorem pure (size : Nat) (a : α) : Realizes size some (Pure.pure a : Making α) (.pure a) where
  lists := ⟨[], rfl, fun need => congrArg some (List.append_nil need).symm⟩
  uses := by
    intro hashes rest computed hlength
    obtain rfl : hashes = [] := List.eq_nil_of_length_eq_zero hlength
    refine ⟨[], ?_, ?_⟩
    · rw [List.append_nil]
      rfl
    · intro _ _ _ _ _ range hrange
      cases hrange
  finds stored _ _ _ := ⟨a, Tree.Plan.finds_pure stored a⟩

theorem map (h : Realizes size indexes making p) (f : α → β) :
    Realizes size indexes (do return f (← making)) (p.map f) where
  lists := h.lists
  uses := by
    intro hashes rest computed hlength
    obtain ⟨ranges, hrun, hright⟩ := h.uses hashes rest computed hlength
    refine ⟨ranges, ?_, hright⟩
    rw [StateT.run_bind, hrun]
    rfl
  finds := by
    intro stored leaves hstores hsize
    obtain ⟨a, hfound⟩ := h.finds stored leaves hstores hsize
    exact ⟨f a, hfound.map f⟩

/-- One pair of walks after the other.  What the first does not use is left for the second. -/
theorem both (hp : Realizes size indexes making p) (hq : Realizes size indexes' making' q)
    (f : α → β → γ) :
    Realizes size (fun need => indexes need >>= indexes')
      (do
        let a ← making
        let b ← making'
        return f a b)
      (.map (fun (a, b) => f a b) (.both p q)) where
  lists := by
    obtain ⟨places, hplaces, hindexes⟩ := hp.lists
    obtain ⟨places', hplaces', hindexes'⟩ := hq.lists
    refine ⟨places ++ places', ?_, ?_⟩
    · rw [List.map_append, hplaces, hplaces']
      rfl
    · intro need
      simp only [hindexes, Option.bind_eq_bind, Option.bind_some, hindexes', List.append_assoc]
  uses := by
    intro hashes rest computed hlength
    have hlength : hashes.length = p.indexes.length + q.indexes.length :=
      hlength.trans List.length_append
    have htake : (hashes.take p.indexes.length).length = p.indexes.length := by
      rw [List.length_take, hlength, Nat.min_eq_left (Nat.le_add_right _ _)]
    have hdrop : (hashes.drop p.indexes.length).length = q.indexes.length := by
      rw [List.length_drop, hlength, Nat.add_sub_cancel_left]
    obtain ⟨ranges, hrun, hright⟩ := hp.uses (hashes.take p.indexes.length)
      (hashes.drop p.indexes.length ++ rest) computed htake
    obtain ⟨ranges', hrun', hright'⟩ := hq.uses (hashes.drop p.indexes.length) rest
      (computed ++ ranges) hdrop
    rw [← List.append_assoc, List.take_append_drop] at hrun
    refine ⟨ranges ++ ranges', ?_, ?_⟩
    · rw [StateT.run_bind, hrun, Option.bind_eq_bind, Option.bind_some, StateT.run_bind, hrun',
        Option.bind_eq_bind, Option.bind_some, List.append_assoc]
      rfl
    · intro stored leaves hstores hsize hread
      have hread : (p.indexes ++ q.indexes).map (stored[·]?) =
          (hashes.take p.indexes.length).map some ++ (hashes.drop p.indexes.length).map some := by
        rw [← List.map_append, List.take_append_drop]
        exact hread
      rw [List.map_append] at hread
      obtain ⟨hfirst, hsecond⟩ :=
        List.append_inj hread (by rw [List.length_map, List.length_map, htake])
      intro range hrange
      rcases List.mem_append.mp hrange with hrange | hrange
      · exact hright stored leaves hstores hsize hfirst range hrange
      · exact hright' stored leaves hstores hsize hsecond range hrange
  finds := by
    intro stored leaves hstores hsize
    obtain ⟨a, hfound⟩ := hp.finds stored leaves hstores hsize
    obtain ⟨b, hfound'⟩ := hq.finds stored leaves hstores hsize
    exact ⟨f a b, (hfound.both hfound').map _⟩

/-- What is made of the hashes that are read is what the plan makes of them. -/
theorem make_eq (h : Realizes size indexes making p) (reader : Tree.HashReader) :
    make (indexes []) making reader = ofResult (p.run reader) := by
  obtain ⟨places, hplaces, hindexes⟩ := h.lists
  rw [make, some_bind (hindexes []), List.nil_append, readExactly, hplaces, Tree.Plan.run]
  refine result_bind_eq_ofResult ?_
  intro hashes hread
  obtain ⟨ranges, hrun, -⟩ := h.uses hashes [] [] (Tree.length_of_readExactly hread)
  rw [List.append_nil] at hrun
  exact some_bind hrun _

end Realizes

/-- The hash of an aligned range is listed and computed. -/
theorem realizes_rangeHash {size : Nat} (haligned : Tree.Aligned lo.toNat (hi.toNat - lo.toNat))
    (hlo : lo.toNat < hi.toNat) (hhi : hi.toNat ≤ size) (hsize : size ≤ maxLeaves) :
    Realizes size (subtreeIndexes? lo hi) (rangeHash lo hi)
      (.rangeHash lo.toNat (hi.toNat - lo.toNat)) := by
  have hend : lo.toNat + (hi.toNat - lo.toNat) ≤ size :=
    (Nat.add_sub_of_le (Nat.le_of_lt hlo)).trans_le hhi
  refine ⟨exists_subtreeIndexes? haligned (Nat.le_of_lt hlo) (Nat.le_trans hhi hsize), ?_, ?_⟩
  · intro hashes rest computed hlength
    refine ⟨[⟨lo, hi, Tree.foldSubtrees hashes⟩], ?_, ?_⟩
    · change (subtreeHash? lo hi (hashes ++ rest) >>= _) = _
      rw [subtreeHash?_eq hlo (Nat.le_trans hhi hsize) hlength]
      rfl
    · intro stored leaves hstores hleaves hread range hrange
      obtain rfl := List.mem_singleton.mp hrange
      obtain ⟨found, hfound, hroot⟩ := hstores.finds_rangeHash haligned (hend.trans hleaves)
      obtain rfl : found = hashes :=
        List.map_injective_iff.mpr (Option.some_injective _) (hfound.symm.trans hread)
      exact hroot
  · intro stored leaves hstores hleaves
    exact ⟨_, hstores.finds_rangeHash haligned (hend.trans hleaves)⟩

/-! ## Using all that is read -/

/-- A walk uses all the hashes at the places `wanted`: whatever hashes are read there, as many as
the places, it halts nowhere and leaves none; and if the hashes that are stored for `size` leaves or
more are read, it computes the root of each range. -/
structure UsesAll (size : Nat) (wanted : List UInt64) (making : Making α) : Prop where
  uses : ∀ hashes, hashes.length = wanted.length →
    ∃ made computed, making.run ⟨hashes, []⟩ = some (made, ⟨[], computed⟩)
  right : ∀ leaves stored, size ≤ leaves.length → Tree.storedHashes leaves = .ok stored →
    ∃ hashes made computed, readExactly (.ofStored stored) wanted = .ok hashes ∧
      making.run ⟨hashes, []⟩ = some (made, ⟨[], computed⟩) ∧
      ∀ range ∈ computed, range.RightIn leaves

/-- What one walk lists is what the other walk uses. -/
theorem Realizes.exists_usesAll {size : Nat} {indexes : List UInt64 → Option (List UInt64)}
    {making : Making α} {p : Tree.Plan α} (h : Realizes size indexes making p) :
    ∃ wanted, indexes [] = some wanted ∧ UsesAll size wanted making := by
  obtain ⟨places, hplaces, hindexes⟩ := h.lists
  have hcount : p.indexes.length = places.length := by
    rw [← hplaces, List.length_map]
  refine ⟨places, hindexes [], ?_, ?_⟩
  · intro hashes hlength
    obtain ⟨ranges, hrun, -⟩ := h.uses hashes [] [] (hlength.trans hcount.symm)
    rw [List.append_nil] at hrun
    exact ⟨_, _, hrun⟩
  · intro leaves stored hleaves hstored
    obtain ⟨_, happended, hstores⟩ := Tree.exists_stores_storedHashes leaves
    obtain rfl := Except.ok.inj (hstored.symm.trans happended)
    obtain ⟨_, hashes, hread, -⟩ := h.finds stored leaves hstores hleaves
    have hlength : hashes.length = p.indexes.length := by
      simpa using (congrArg List.length hread).symm
    obtain ⟨ranges, hrun, hright⟩ := h.uses hashes [] [] hlength
    rw [List.append_nil] at hrun
    refine ⟨hashes, _, _, ?_, hrun, hright stored leaves hstores hleaves hread⟩
    rw [readExactly, hplaces]
    exact Tree.readExactly_ofStored hread

/-- The root of a tree in words is the one that numbers have. -/
theorem treeHash_eq {size : UInt64} (hsize : size.toNat ≤ maxLeaves) (reader : Tree.HashReader) :
    treeHash size reader = ofResult (Tree.treeHash size.toNat reader) := by
  rw [treeHash]
  split
  · rename_i hzero
    subst hzero
    have hnone : Tree.subtreeIndexes 0 0 = [] := by
      rw [Tree.subtreeIndexes, Tree.completeSubtrees_zero]
      rfl
    change _ = ofResult ((Tree.Plan.rangeHash 0 0).run reader)
    rw [Tree.Plan.run, Tree.Plan.rangeHash, hnone]
    rfl
  · rename_i hsome
    have hpos : (0 : UInt64).toNat < size.toNat :=
      Nat.pos_of_ne_zero fun hzero => hsome (UInt64.toNat_inj.mp hzero)
    have hrange := @realizes_rangeHash 0 size size.toNat (.zero _) hpos (Nat.le_refl _) hsize
    exact hrange.make_eq reader

end Words

end KeyTransparency
