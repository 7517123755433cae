import KeyTransparency.Proofs.Monitor
import KeyTransparency.Proofs.Search.Uniqueness
import KeyTransparency.Proofs.Session.Heads

/-!
# Monitoring of a log

One batch proof shows that a log contains the entries of all monitoring proofs in a response.  If
the root of the accepted head is the root of a list of leaves, every proof is therefore about this
list: the leaf of each of its steps is in the list, at the position that the step is for.
-/

namespace KeyTransparency

open KeyTransparency.Tree (PlacedLeaf)

variable {G : PointGroup}

/-- The byte strings that are hashed when the entries of all monitoring proofs are proven to be in
the log. -/
def MonitorResponse.inclusionMessages (response : MonitorResponse) (request : MonitorRequest) :
    List Bytes :=
  let size := response.treeHead.treeHead.treeSize.toNat
  match (MonitorKey.verifyAll request.keys response.proofs size).fromEmpty with
  | .ok (_, leaves) => leaves.messages size response.inclusion
  | .error _ => []

/-- If the root of the accepted head is the root of a list of leaves, the result of monitoring is
about the keys of the request in their order, and each is shown by the entries of this list, or two
different byte strings that were hashed have the same digest. -/
theorem MonitorResponse.shows_or_collision {response : MonitorResponse} {request : MonitorRequest}
    {trust : Trust G} {result : MonitorResult} {leaves : List Hash}
    (h : (response.verify request trust).result = .ok result)
    (hlength : leaves.length = result.treeHead.treeSize.toNat)
    (hroot : result.treeHead.root = Tree.root leaves) :
    (request.keys.length = response.proofs.length ∧
        List.Forall₂ (fun pair found => pair.2.Shows pair.1 leaves.length
          (fun leaf => leaves[leaf.position]? = some leaf.leaf) found)
          (request.keys.zip response.proofs) result.keys) ∨
      Collision (response.inclusionMessages request ++ (Tree.ofLeaves leaves).messages) := by
  by_cases hsafe :
      Collision (response.inclusionMessages request ++ (Tree.ofLeaves leaves).messages)
  · exact .inr hsafe
  · obtain ⟨hhead, hproofs, set, hkeys, hset⟩ := verify_eq_ok_iff.mp h
    have hsize : response.treeHead.treeHead.treeSize = result.treeHead.treeSize := by
      rw [(FullTreeHead.follows_of_verify hhead).1]
      rfl
    have hhashed : response.inclusionMessages request =
        set.messages result.treeHead.treeSize.toNat response.inclusion := by
      simp only [inclusionMessages, hsize, hkeys]
    have hincluded : set.messages result.treeHead.treeSize.toNat response.inclusion ⊆
        response.inclusionMessages request ++ (Tree.ofLeaves leaves).messages := by
      rw [← hhashed]
      exact List.subset_append_left _ _
    have hleaf : ∀ leaf ∈ set.leaves, leaves[leaf.position]? = some leaf.leaf := by
      intro leaf hmem
      exact LeafSet.getElem?_eq_of_verify hsafe hset hincluded hlength hroot
        (List.subset_append_right _ _) hmem
    obtain ⟨hshows, -⟩ := MonitorKey.shows_of_mapM_verify (Collect.fromEmpty_eq_ok_iff.mp hkeys)
    refine .inl ⟨hproofs, ?_⟩
    rw [hlength]
    refine hshows.imp ?_
    intro pair found hpair
    exact hpair.imp hleaf

/-! ## Both versions of an account -/

namespace TwoSearches

/-- The client watches both versions of the account. -/
def watching : MonitorRequest :=
  ⟨[⟨.aci account, 0, index, 0⟩, ⟨.aci account, 1, index, 1⟩], ⟨some 1, none⟩⟩

/-- The second version is shown for both keys, since it lies on the frontier of the first. -/
def watched : MonitorResponse :=
  ⟨response.treeHead, [⟨[firstEntry, secondEntry]⟩, ⟨[secondEntry]⟩], []⟩

/-- The second version is the latest for both keys. -/
def versions : List MonitoredKey := [⟨.aci account, 0, 1⟩, ⟨.aci account, 1, 1⟩]

def leafSet : LeafSet := ⟨[⟨0, leaf firstEntry⟩, ⟨1, leaf secondEntry⟩], by simp⟩

theorem verifyAll_watched :
    (MonitorKey.verifyAll watching.keys watched.proofs 2).fromEmpty = .ok (versions, leafSet) := by
  decide +kernel

theorem verify_watched : (watched.verify watching trust).result = .ok ⟨versions, large⟩ := by
  obtain ⟨hhead, -⟩ := SearchResponse.verify_eq_ok_iff.mp verify_response
  have hincluded : leafSet.verify 2 large.root [] = .ok () :=
    LeafSet.verify_eq_ok_iff.mpr ⟨_, Parting.treeOf_both rfl, rfl⟩
  exact MonitorResponse.verify_eq_ok_iff.mpr ⟨hhead, rfl, leafSet, verifyAll_watched, hincluded⟩

/-- The log of two entries holds both versions of the account, unless there is a collision. -/
theorem shows_both_versions :
    (watched.verify watching trust).result = .ok ⟨versions, large⟩ ∧
      (watching.keys.length = watched.proofs.length ∧
          List.Forall₂ (fun pair found => pair.2.Shows pair.1 2
            (fun placed => [leaf firstEntry, leaf secondEntry][placed.position]? = some placed.leaf)
            found) (watching.keys.zip watched.proofs) versions ∨
        Collision (watched.inclusionMessages watching ++
          (Tree.ofLeaves [leaf firstEntry, leaf secondEntry]).messages)) := by
  refine ⟨verify_watched, ?_⟩
  exact MonitorResponse.shows_or_collision verify_watched rfl root_large

end TwoSearches

end KeyTransparency
