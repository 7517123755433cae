import KeyTransparency.Proofs.LeafSet.Agreement
import KeyTransparency.Proofs.Log.Monitoring
import Mathlib.Data.List.OfFn

/-!
# Monitoring in another order

The proofs for all keys of a monitoring request put their leaves into one set, one proof after the
other.  A proof is accepted for its key whatever is in the set, and the leaves of all proofs can be
collected exactly if no two of them differ at one position.  The order of the keys therefore decides
nothing but the order of what is reported, and a key that is asked for once more, with the proof
that it has already, does not decide anything.
-/

namespace KeyTransparency

open KeyTransparency.Tree (PlacedLeaf)

variable {G : PointGroup}

/-! ## Picking from lists -/

section Pick

variable {α β : Type} {places : List Nat}

/-- The members of a list at some places. -/
def pick (places : List Nat) (list : List α) : List α := places.filterMap (list[·]?)

/-- The places from which the members of a list are taken when it is permuted. -/
def placesOf {n : Nat} (order : Equiv.Perm (Fin n)) : List Nat :=
  List.ofFn fun place => (order place).val

theorem mem_placesOf {n : Nat} (order : Equiv.Perm (Fin n)) {place : Nat} (h : place < n) :
    place ∈ placesOf order :=
  List.mem_ofFn.mpr ⟨order.symm ⟨place, h⟩, by simp⟩

theorem mem_pick_iff {list : List α} (hall : ∀ place < list.length, place ∈ places) (a : α) :
    a ∈ pick places list ↔ a ∈ list := by
  unfold pick
  rw [List.mem_filterMap]
  constructor
  · rintro ⟨place, -, hplace⟩
    exact List.mem_of_getElem? hplace
  · intro h
    obtain ⟨place, hbound, rfl⟩ := List.mem_iff_getElem.mp h
    exact ⟨place, hall place hbound, List.getElem?_eq_getElem hbound⟩

theorem map_pick (places : List Nat) (f : α → β) (list : List α) :
    (pick places list).map f = pick places (list.map f) := by
  simp [pick, List.map_filterMap]

theorem pick_zip {list : List α} {list' : List β} (h : list.length = list'.length) :
    pick places (list.zip list') = (pick places list).zip (pick places list') := by
  induction places with
  | nil => rfl
  | cons place places ih =>
    unfold pick at ih ⊢
    rw [List.filterMap_cons, List.filterMap_cons, List.filterMap_cons, ih]
    by_cases hplace : place < list.length
    · have hplace' : place < list'.length := h ▸ hplace
      simp [hplace, hplace']
    · have hplace' : ¬place < list'.length := h ▸ hplace
      simp [hplace, hplace']

theorem length_pick_eq {list : List α} {list' : List β} (h : list.length = list'.length) :
    (pick places list).length = (pick places list').length := by
  have hfst := congrArg List.length (map_pick places Prod.fst (list.zip list'))
  have hsnd := congrArg List.length (map_pick places Prod.snd (list.zip list'))
  rw [List.length_map, List.map_fst_zip (Nat.le_of_eq h)] at hfst
  rw [List.length_map, List.map_snd_zip (Nat.le_of_eq h.symm)] at hsnd
  exact hfst.symm.trans hsnd

theorem forall₂_pick {R : α → β → Prop} {list : List α} {list' : List β}
    (h : List.Forall₂ R list list') : List.Forall₂ R (pick places list) (pick places list') := by
  obtain ⟨hlength, hget⟩ := List.forall₂_iff_get.mp h
  induction places with
  | nil => exact .nil
  | cons place places ih =>
    unfold pick at ih ⊢
    by_cases hplace : place < list.length
    · have hplace' : place < list'.length := hlength ▸ hplace
      rw [List.filterMap_cons_some (List.getElem?_eq_getElem hplace),
        List.filterMap_cons_some (List.getElem?_eq_getElem hplace')]
      exact .cons (hget place hplace hplace') ih
    · have hplace' : ¬place < list'.length := hlength ▸ hplace
      rw [List.filterMap_cons_none (List.getElem?_eq_none (Nat.le_of_not_lt hplace)),
        List.filterMap_cons_none (List.getElem?_eq_none (Nat.le_of_not_lt hplace'))]
      exact ih

theorem zip_insertIdx {list : List α} {list' : List β} (h : list.length = list'.length)
    (place : Nat) (a : α) (b : β) :
    (list.insertIdx place a).zip (list'.insertIdx place b) =
      (list.zip list').insertIdx place (a, b) := by
  induction place generalizing list list' with
  | zero => simp
  | succ place ih =>
    cases list with
    | nil =>
      obtain rfl := List.eq_nil_of_length_eq_zero h.symm
      simp
    | cons first rest =>
      cases list' with
      | nil => cases h
      | cons first' rest' => simp [ih (Nat.succ.inj h)]

theorem exists_forall₂ {R : α → β → Prop} {list : List α} (h : ∀ a ∈ list, ∃ b, R a b) :
    ∃ list', List.Forall₂ R list list' := by
  induction list with
  | nil => exact ⟨[], .nil⟩
  | cons first rest ih =>
    obtain ⟨b, hfirst⟩ := h first List.mem_cons_self
    obtain ⟨list', hrest⟩ := ih fun a ha => h a (List.mem_cons_of_mem _ ha)
    exact ⟨b :: list', .cons hfirst hrest⟩

theorem mem_right_iff_of_forall₂ {R : α → β → Prop} (hunique : Relator.RightUnique R)
    {list : List α} {list' : List β} (h : List.Forall₂ R list list') (b : β) :
    b ∈ list' ↔ ∃ a ∈ list, R a b := by
  induction h with
  | nil => simp
  | @cons first first' rest rest' hfirst _ ih =>
    simp only [List.mem_cons, ih, or_and_right, exists_or, exists_eq_left]
    refine or_congr_left ⟨?_, ?_⟩
    · rintro rfl
      exact hfirst
    · exact fun hb => hunique hb hfirst

theorem exists_left_of_forall₂ {R : α → β → Prop} {list : List α} {list' : List β}
    (h : List.Forall₂ R list list') {a : α} (ha : a ∈ list) : ∃ b, R a b := by
  induction h with
  | nil => cases ha
  | cons hfirst _ ih =>
    rcases List.mem_cons.mp ha with rfl | hlater
    · exact ⟨_, hfirst⟩
    · exact ih hlater

/-- If each member of a list comes to one thing, then the members of another list with the same
members come to the same things. -/
theorem exists_forall₂_of_mem_iff {R : α → β → Prop} (hunique : Relator.RightUnique R)
    {list list' : List α} {image : List β} (h : List.Forall₂ R list image)
    (hsame : ∀ a, a ∈ list' ↔ a ∈ list) :
    ∃ image', List.Forall₂ R list' image' ∧ ∀ b, b ∈ image' ↔ b ∈ image := by
  obtain ⟨image', h'⟩ := exists_forall₂ fun a ha => exists_left_of_forall₂ h ((hsame a).mp ha)
  refine ⟨image', h', ?_⟩
  intro b
  rw [mem_right_iff_of_forall₂ hunique h', mem_right_iff_of_forall₂ hunique h]
  simp only [hsame]

end Pick

/-! ## The leaves that are collected -/

theorem Collect.forM_insert_append_run_eq_ok_iff {leaves leaves' : List PlacedLeaf}
    {set next : LeafSet} :
    ((leaves ++ leaves').forM insert).run set = (.ok (), next) ↔
      ∃ between, (leaves.forM insert).run set = (.ok (), between) ∧
        (leaves'.forM insert).run between = (.ok (), next) := by
  have happend : (leaves ++ leaves').forM insert =
      (do leaves.forM insert; leaves'.forM insert : Collect Unit) := List.forM_append
  rw [happend, bind_run_eq_ok_iff]
  exact ⟨fun ⟨_, between, h⟩ => ⟨between, h⟩, fun ⟨between, h⟩ => ⟨(), between, h⟩⟩

namespace LeafSet

/-- Sets with the same leaves are the same. -/
theorem eq_of_mem_iff {set set' : LeafSet} (h : ∀ leaf, leaf ∈ set.leaves ↔ leaf ∈ set'.leaves) :
    set = set' := by
  have hpositions : set.positions = set'.positions := by
    have hincreasing : set.positions.Pairwise (· < ·) := List.pairwise_map.mpr set.sorted
    have hincreasing' : set'.positions.Pairwise (· < ·) := List.pairwise_map.mpr set'.sorted
    apply hincreasing.eq_of_mem_iff hincreasing'
    intro position
    simp only [positions, List.mem_map, h]
  apply eq_of_leaves_eq
  apply eq_of_map_position_eq hpositions
  intro leaf hleaf leaf' hleaf' hposition
  exact eq_of_position_eq ((h leaf).mp hleaf) hleaf' hposition

/-- Whether leaves can be collected, and what set they make up, depends neither on their order nor
on repetitions. -/
theorem forM_insert_congr {leaves leaves' : List PlacedLeaf} {set : LeafSet}
    (hsame : ∀ leaf, leaf ∈ leaves' ↔ leaf ∈ leaves)
    (h : (leaves.forM Collect.insert).run .empty = (.ok (), set)) :
    (leaves'.forM Collect.insert).run .empty = (.ok (), set) := by
  have hmem : ∀ leaf, leaf ∈ set.leaves ↔ leaf ∈ leaves := by
    intro leaf
    rw [mem_of_forM_insert h leaf]
    simp [empty]
  obtain ⟨set', h'⟩ := @exists_forM_insert leaves' .empty <| by
    intro leaf hleaf other hother hposition
    simp only [empty, List.append_nil, hsame, ← hmem] at hleaf hother
    exact congrArg PlacedLeaf.leaf (eq_of_position_eq hleaf hother hposition)
  have heq : set' = set := by
    apply eq_of_mem_iff
    intro leaf
    rw [mem_of_forM_insert h' leaf, hmem, hsame]
    simp [empty]
  exact heq ▸ h'

end LeafSet

namespace MonitorKey

/-! ## What a key's proof comes to by itself -/

theorem Watch.unique {key : MonitorKey} {latest final final' : UInt32} {floor : CommitmentIndex}
    {positions : List Nat} {steps : List ProofStep} {touched touched' : List PlacedLeaf}
    (h : Watch key latest floor positions steps touched final)
    (h' : Watch key latest floor positions steps touched' final') :
    touched = touched' ∧ final = final' := by
  induction h generalizing touched' with
  | done latest floor =>
    cases h'
    exact ⟨rfl, rfl⟩
  | version hindex _ _ hleaf _ ih =>
    cases h' with
    | version _ _ _ hleaf' hrest' =>
      cases hleaf.symm.trans hleaf'
      obtain ⟨rfl, rfl⟩ := ih hrest'
      exact ⟨rfl, rfl⟩
    | other hindex' _ _ _ => exact absurd hindex hindex'
  | other hindex _ hleaf _ ih =>
    cases h' with
    | version hindex' _ _ _ _ => exact absurd hindex' hindex
    | other _ _ hleaf' hrest' =>
      cases hleaf.symm.trans hleaf'
      obtain ⟨rfl, rfl⟩ := ih hrest'
      exact ⟨rfl, rfl⟩

/-- What a key and its proof come to: what is found, and the leaves that are implied. -/
def Shown (size : Nat) (pair : MonitorKey × MonitorProof)
    (shown : MonitoredKey × List PlacedLeaf) : Prop :=
  pair.1.Accepts size pair.2 shown.1 shown.2

theorem rightUnique_shown (size : Nat) : Relator.RightUnique (Shown size) := by
  rintro ⟨key, proof⟩ ⟨found, touched⟩ ⟨found', touched'⟩ h h'
  obtain ⟨-, -, -, -, hleaf, hwatch⟩ := h
  obtain ⟨-, -, -, -, hleaf', hwatch'⟩ := h'
  cases hleaf.symm.trans hleaf'
  obtain ⟨rfl, rfl⟩ := hwatch.unique hwatch'
  rfl

/-- Proofs pass one after the other exactly if each is accepted for its key and all leaves that they
imply can be put into the set. -/
theorem mapM_verify_run_eq_ok_iff {pairs : List (MonitorKey × MonitorProof)} {size : Nat}
    {set next : LeafSet} {found : List MonitoredKey} :
    (pairs.mapM fun (key, proof) => key.verify proof size : Collect _).run set =
        (.ok found, next) ↔
      ∃ shown, List.Forall₂ (Shown size) pairs shown ∧ shown.map Prod.fst = found ∧
        ((shown.flatMap Prod.snd).forM Collect.insert).run set = (.ok (), next) := by
  induction pairs generalizing set found with
  | nil =>
    constructor
    · intro h
      cases h
      exact ⟨[], .nil, rfl, rfl⟩
    · rintro ⟨shown, hshown, rfl, hinserts⟩
      cases hshown
      cases hinserts
      rfl
  | cons pair pairs ih =>
    rw [List.mapM_cons]
    constructor
    · intro h
      obtain ⟨first, between, hfirst, h⟩ := Collect.bind_run_eq_ok_iff.mp h
      obtain ⟨rest, collected, hrest, h⟩ := Collect.bind_run_eq_ok_iff.mp h
      cases h
      obtain ⟨touched, haccepts, hinserts⟩ := verify_run_eq_ok_iff.mp hfirst
      obtain ⟨shown, hshown, rfl, hlater⟩ := ih.mp hrest
      exact ⟨(first, touched) :: shown, .cons haccepts hshown, rfl,
        Collect.forM_insert_append_run_eq_ok_iff.mpr ⟨between, hinserts, hlater⟩⟩
    · rintro ⟨_, hshown, rfl, hinserts⟩
      cases hshown with
      | cons haccepts hshown =>
        obtain ⟨between, hinserts, hlater⟩ :=
          Collect.forM_insert_append_run_eq_ok_iff.mp hinserts
        have hfirst := verify_run_eq_ok_iff.mpr ⟨_, haccepts, hinserts⟩
        have hrest := ih.mpr ⟨_, hshown, rfl, hlater⟩
        exact Collect.bind_run_eq_ok_iff.mpr ⟨_, between, hfirst,
          Collect.bind_run_eq_ok_iff.mpr ⟨_, next, hrest, rfl⟩⟩

end MonitorKey

/-! ## Permuted and repeated keys -/

def MonitorRequest.pick (places : List Nat) (request : MonitorRequest) : MonitorRequest :=
  { request with keys := KeyTransparency.pick places request.keys }

/-- The request with one more key, before the one at the given place. -/
def MonitorRequest.insertIdx (request : MonitorRequest) (place : Nat) (key : MonitorKey) :
    MonitorRequest :=
  { request with keys := request.keys.insertIdx place key }

def MonitorResult.pick (places : List Nat) (result : MonitorResult) : MonitorResult :=
  { result with keys := KeyTransparency.pick places result.keys }

namespace MonitorResponse

open MonitorKey (Shown)

def pick (places : List Nat) (response : MonitorResponse) : MonitorResponse :=
  { response with proofs := KeyTransparency.pick places response.proofs }

/-- The response with one more proof, before the one at the given place. -/
def insertIdx (response : MonitorResponse) (place : Nat) (proof : MonitorProof) :
    MonitorResponse :=
  { response with proofs := response.proofs.insertIdx place proof }

variable {response : MonitorResponse} {request : MonitorRequest} {trust : Trust G}

/-- A monitoring response is accepted exactly if its head is, if each of its proofs is accepted for
its key, and if the leaves that all of them imply make up a set that is in the tree. -/
theorem verify_eq_ok_iff_shown {result : MonitorResult} :
    (response.verify request trust).result = .ok result ↔
      (response.treeHead.verify request.consistency trust).result = .ok result.treeHead ∧
        request.keys.length = response.proofs.length ∧
        ∃ shown set, List.Forall₂ (Shown result.treeHead.treeSize.toNat)
            (request.keys.zip response.proofs) shown ∧
          shown.map Prod.fst = result.keys ∧
          ((shown.flatMap Prod.snd).forM Collect.insert).run .empty = (.ok (), set) ∧
          set.verify result.treeHead.treeSize.toNat result.treeHead.root response.inclusion =
            .ok () := by
  rw [verify_eq_ok_iff]
  refine and_congr_right fun _ => and_congr_right fun _ => ?_
  constructor
  · rintro ⟨set, hkeys, hset⟩
    obtain ⟨shown, hshown, hfound, hinserts⟩ :=
      MonitorKey.mapM_verify_run_eq_ok_iff.mp (Collect.fromEmpty_eq_ok_iff.mp hkeys)
    exact ⟨shown, set, hshown, hfound, hinserts, hset⟩
  · rintro ⟨shown, set, hshown, hfound, hinserts, hset⟩
    exact ⟨set, Collect.fromEmpty_eq_ok_iff.mpr
      (MonitorKey.mapM_verify_run_eq_ok_iff.mpr ⟨shown, hshown, hfound, hinserts⟩), hset⟩

/-- What is accepted for some keys with their proofs is accepted for the same keys with the same
proofs in any order and number. -/
theorem exists_verify_of_mem_iff {result : MonitorResult}
    (h : (response.verify request trust).result = .ok result)
    {response' : MonitorResponse} {request' : MonitorRequest}
    (hsame : ∀ pair, pair ∈ request'.keys.zip response'.proofs ↔
      pair ∈ request.keys.zip response.proofs)
    (hproofs : request'.keys.length = response'.proofs.length)
    (hhead : response'.treeHead = response.treeHead)
    (hconsistency : request'.consistency = request.consistency)
    (hinclusion : response'.inclusion = response.inclusion) :
    ∃ keys, (response'.verify request' trust).result = .ok ⟨keys, result.treeHead⟩ := by
  obtain ⟨hverified, -, shown, set, hshown, -, hinserts, hset⟩ := verify_eq_ok_iff_shown.mp h
  obtain ⟨shown', hshown', hmem⟩ :=
    exists_forall₂_of_mem_iff (MonitorKey.rightUnique_shown _) hshown hsame
  have hleaves : ∀ leaf, leaf ∈ shown'.flatMap Prod.snd ↔ leaf ∈ shown.flatMap Prod.snd := by
    simp only [List.mem_flatMap, hmem, implies_true]
  have hinserts' := LeafSet.forM_insert_congr hleaves hinserts
  refine ⟨shown'.map Prod.fst, verify_eq_ok_iff_shown.mpr ⟨?_, hproofs, shown', set, hshown', rfl,
    hinserts', ?_⟩⟩
  · rw [hhead, hconsistency]
    exact hverified
  · rw [hinclusion]
    exact hset

section Pick

variable {places : List Nat} (hproofs : request.keys.length = response.proofs.length)
  (hall : ∀ place < request.keys.length, place ∈ places)

include hproofs

theorem zip_pick :
    (request.pick places).keys.zip (response.pick places).proofs =
      KeyTransparency.pick places (request.keys.zip response.proofs) :=
  (pick_zip hproofs).symm

include hall

theorem mem_zip_pick_iff (pair : MonitorKey × MonitorProof) :
    pair ∈ (request.pick places).keys.zip (response.pick places).proofs ↔
      pair ∈ request.keys.zip response.proofs := by
  rw [zip_pick hproofs]
  apply mem_pick_iff
  intro place hplace
  rw [List.length_zip, ← hproofs, Nat.min_self] at hplace
  exact hall place hplace

omit hall in
/-- Where both are accepted, a key is reported as before. -/
theorem eq_pick_of_verify {result result' : MonitorResult}
    (h : (response.verify request trust).result = .ok result)
    (h' : ((response.pick places).verify (request.pick places) trust).result = .ok result') :
    result' = result.pick places := by
  obtain ⟨keys, head⟩ := result
  obtain ⟨keys', head'⟩ := result'
  obtain ⟨hverified, -, shown, set, hshown, rfl, -⟩ := verify_eq_ok_iff_shown.mp h
  obtain ⟨hverified', -, shown', set', hshown', rfl, -⟩ := verify_eq_ok_iff_shown.mp h'
  cases hverified.symm.trans hverified'
  rw [zip_pick hproofs] at hshown'
  obtain rfl := (MonitorKey.rightUnique_shown _).forall₂ (forall₂_pick hshown) hshown'
  rw [map_pick]
  rfl

/-- Picking all keys with their proofs, in any order and number, leads to the same answer for each
of them, and is refused exactly if the response was refused. -/
theorem verify_pick :
    ((response.pick places).verify (request.pick places) trust).result.toOption =
      (response.verify request trust).result.toOption.map (·.pick places) := by
  have hsame := mem_zip_pick_iff hproofs hall
  cases h : (response.verify request trust).result with
  | ok result =>
    obtain ⟨keys, h'⟩ := exists_verify_of_mem_iff h hsame (length_pick_eq hproofs) rfl rfl rfl
    rw [h', eq_pick_of_verify hproofs h h']
    rfl
  | error error =>
    cases h' : ((response.pick places).verify (request.pick places) trust).result with
    | ok result =>
      obtain ⟨keys, haccepted⟩ := exists_verify_of_mem_iff h' (fun pair => (hsame pair).symm)
        hproofs rfl rfl rfl
      cases h.symm.trans haccepted
    | error error' => rfl

end Pick

/-- Asking once more for a key, anywhere among the others and with the proof that it has already,
does not change whether the response is accepted. -/
theorem verify_insertIdx {key : MonitorKey} {proof : MonitorProof}
    (hproofs : request.keys.length = response.proofs.length)
    (hpair : (key, proof) ∈ request.keys.zip response.proofs) {place : Nat}
    (hplace : place ≤ request.keys.length) :
    (∃ result, ((response.insertIdx place proof).verify (request.insertIdx place key)
        trust).result = .ok result) ↔
      ∃ result, (response.verify request trust).result = .ok result := by
  have hlength : (request.insertIdx place key).keys.length =
      (response.insertIdx place proof).proofs.length := by
    simp only [MonitorRequest.insertIdx, insertIdx, List.length_insertIdx, hproofs]
  have hsame : ∀ pair, pair ∈ (request.insertIdx place key).keys.zip
      (response.insertIdx place proof).proofs ↔ pair ∈ request.keys.zip response.proofs := by
    intro pair
    simp only [MonitorRequest.insertIdx, insertIdx]
    rw [zip_insertIdx hproofs, List.mem_insertIdx (by simpa [← hproofs] using hplace)]
    constructor
    · rintro (rfl | hmem)
      · exact hpair
      · exact hmem
    · exact .inr
  constructor
  · rintro ⟨result, h⟩
    obtain ⟨keys, h'⟩ := exists_verify_of_mem_iff h (fun pair => (hsame pair).symm) hproofs
      rfl rfl rfl
    exact ⟨_, h'⟩
  · rintro ⟨result, h⟩
    obtain ⟨keys, h'⟩ := exists_verify_of_mem_iff h hsame hlength rfl rfl rfl
    exact ⟨_, h'⟩

/-- The order of monitored keys does not matter.  With the keys and their proofs permuted together,
a response is accepted if and only if it was accepted before, with the same head, and what is found
about the keys is permuted like them.  Repeating a key with its proof does not change whether the
response is accepted. -/
theorem verify_any_order (hproofs : request.keys.length = response.proofs.length) :
    (∀ order : Equiv.Perm (Fin request.keys.length),
      ((response.pick (placesOf order)).verify (request.pick (placesOf order))
          trust).result.toOption =
        (response.verify request trust).result.toOption.map (·.pick (placesOf order))) ∧
    ∀ key proof, (key, proof) ∈ request.keys.zip response.proofs →
      ∀ place ≤ request.keys.length,
        ((∃ result, ((response.insertIdx place proof).verify (request.insertIdx place key)
            trust).result = .ok result) ↔
          ∃ result, (response.verify request trust).result = .ok result) := by
  refine ⟨fun order => ?_, fun key proof hpair place hplace => ?_⟩
  · exact verify_pick hproofs fun place hplace => mem_placesOf order hplace
  · exact verify_insertIdx hproofs hpair hplace

end MonitorResponse

namespace TwoSearches

/-- The client may ask for the second version of the account first, and for the first one twice. -/
theorem verify_any_order_watched :
    watching.keys.length = watched.proofs.length ∧
      (MonitorResponse.verify
          ⟨response.treeHead, [⟨[secondEntry]⟩, ⟨[firstEntry, secondEntry]⟩], []⟩
          ⟨[⟨.aci account, 1, index, 1⟩, ⟨.aci account, 0, index, 0⟩], ⟨some 1, none⟩⟩
          trust).result.toOption =
        some ⟨[⟨.aci account, 1, 1⟩, ⟨.aci account, 0, 1⟩], large⟩ ∧
      ∃ result, (MonitorResponse.verify
          ⟨response.treeHead,
            [⟨[firstEntry, secondEntry]⟩, ⟨[secondEntry]⟩, ⟨[firstEntry, secondEntry]⟩], []⟩
          ⟨[⟨.aci account, 0, index, 0⟩, ⟨.aci account, 1, index, 1⟩, ⟨.aci account, 0, index, 0⟩],
            ⟨some 1, none⟩⟩ trust).result = .ok result := by
  obtain ⟨hpermuted, hrepeated⟩ :=
    @MonitorResponse.verify_any_order _ watched watching trust rfl
  refine ⟨rfl, ?_, ?_⟩
  · have hswapped := hpermuted (Equiv.swap ⟨0, by decide⟩ ⟨1, by decide⟩)
    rw [verify_watched] at hswapped
    exact hswapped
  · have hagain := hrepeated _ _ List.mem_cons_self 2 (by decide)
    exact hagain.mpr ⟨_, verify_watched⟩

end TwoSearches

end KeyTransparency
