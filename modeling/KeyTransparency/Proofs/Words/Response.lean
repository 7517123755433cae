import KeyTransparency.Proofs.Monitor
import KeyTransparency.Proofs.Words.Frontier
import KeyTransparency.Proofs.Words.Head
import KeyTransparency.Proofs.Words.Search
import KeyTransparency.Words.Response

/-!
# Checking responses in words never halts

Every leaf that is collected lies in the tree, so its position is a word, and the keys are paired
with proofs only after these have been counted.  With this, no response and no proof makes a check
in words halt, and each check comes to the result that it has in numbers.
-/

namespace KeyTransparency

open KeyTransparency.Tree (PlacedLeaf)

namespace MonitorKey

theorem Watch.map_position {key : MonitorKey} {latest final : UInt32} {floor : CommitmentIndex}
    {positions : List Nat} {steps : List ProofStep} {touched : List PlacedLeaf}
    (h : Watch key latest floor positions steps touched final) :
    touched.map (·.position) = positions := by
  induction h with
  | done latest floor => rfl
  | version _ _ _ _ _ ih | other _ _ _ _ ih => exact congrArg _ ih

theorem Accepts.position_lt {key : MonitorKey} {proof : MonitorProof} {size : Nat}
    {found : MonitoredKey} {touched : List PlacedLeaf} (h : key.Accepts size proof found touched)
    {leaf : PlacedLeaf} (hleaf : leaf ∈ touched) : leaf.position < size := by
  obtain @⟨entry, steps, first, touched, final, hposition, -, -, -, -, hwatch⟩ := h
  refine Tree.lt_of_mem_monitoredPositions hposition ?_
  rw [Tree.monitoredPositions, ← hwatch.map_position]
  exact List.mem_map_of_mem hleaf

/-- Monitoring proofs that pass imply no leaves outside the tree. -/
theorem position_lt_of_verifyAll {pairs : List (MonitorKey × MonitorProof)} {size : Nat}
    {set next : LeafSet} {found : List MonitoredKey}
    (h : (pairs.mapM fun (key, proof) => key.verify proof size : Collect _).run set =
      (.ok found, next)) (hset : ∀ leaf ∈ set.leaves, leaf.position < size) :
    ∀ leaf ∈ next.leaves, leaf.position < size := by
  induction pairs generalizing set found with
  | nil =>
    cases h
    exact hset
  | cons pair pairs ih =>
    rw [List.mapM_cons] at h
    obtain ⟨first, between, hfirst, h⟩ := Collect.bind_run_eq_ok_iff.mp h
    obtain ⟨rest, collected, hrest, h⟩ := Collect.bind_run_eq_ok_iff.mp h
    cases h
    obtain ⟨touched, haccepts, hinserts⟩ := verify_run_eq_ok_iff.mp hfirst
    refine ih hrest fun leaf hleaf => ?_
    rcases (LeafSet.mem_of_forM_insert hinserts leaf).mp hleaf with hnew | hold
    · exact haccepts.position_lt hnew
    · exact hset leaf hold

end MonitorKey

namespace Words

variable {G : PointGroup} {α β : Type}

/-! ## Checks that collect leaves -/

/-- Where the first part of a check comes to a result, the rest decides. -/
theorem bind_eq_ofCollect {first : Collect α} {check : KeyTransparency.Collect α}
    {next : α → Collect β} {rest : α → KeyTransparency.Collect β}
    (hfirst : first = ofCollect check) (hnext : ∀ a, next a = ofCollect (rest a)) :
    first >>= next = ofCollect (check >>= rest) := by
  obtain rfl : next = fun a => ofCollect (rest a) := funext hnext
  subst hfirst
  funext set
  simp only [ofCollect, ExceptT.run, bind, ExceptT.bind, ExceptT.mk, StateT.bind,
    Option.bind_some]
  rcases check set with ⟨result, between⟩
  cases result with
  | error error => rfl
  | ok a => rfl

/-- A check that is given up where something holds goes on if it does not. -/
theorem refuse_eq_ofCollect {p : Prop} [Decidable p] {error : VerificationError}
    {next : β → Collect α} {next' : β → KeyTransparency.Collect α} {rest : Collect α}
    {rest' : KeyTransparency.Collect α} (h : ¬p → rest = ofCollect rest') :
    (if p then (throw error >>= next) else rest) =
      ofCollect (if p then (throw error >>= next') else rest') := by
  by_cases hp : p
  · rw [if_pos hp, if_pos hp]
    rfl
  · rw [if_neg hp, if_neg hp]
    exact h hp

/-- A check goes on from what an operation yields. -/
theorem some_bind_collect {operation : Option α} {a : α} (h : operation = some a)
    (next : α → Collect β) : (liftM operation >>= next : Collect β) = next a := by
  subst h
  rfl

/-- A check goes on with the leaf of an entry, or fails with its error. -/
theorem leafAt_bind_eq_ofCollect {position : UInt64} {step : ProofStep} {bound : Option UInt32}
    {next : Hash → Collect α} {rest : Hash → KeyTransparency.Collect α}
    (hnext : ∀ leaf, next leaf = ofCollect (rest leaf)) :
    (liftM (leafAt position step bound) >>= next : Collect α) =
      ofCollect (match step.leaf bound with
        | .ok leaf => pure leaf >>= rest
        | .error error => throw (.ofPrefix position.toNat error) >>= rest) := by
  obtain rfl : next = fun leaf => ofCollect (rest leaf) := funext hnext
  rw [leafAt, leaf_eq]
  cases step.leaf bound with
  | error error => rfl
  | ok leaf => rfl

theorem fromEmpty_ofCollect (check : KeyTransparency.Collect α) :
    (ofCollect check).fromEmpty = ofResult check.fromEmpty := rfl

/-! ## Monitoring proofs -/

theorem checkEntry_eq (key : MonitorKey) (step : ProofStep) :
    checkEntry key step = ofCollect (key.checkEntry step) := by
  refine refuse_eq_ofCollect fun _ => ?_
  refine refuse_eq_ofCollect fun _ => ?_
  refine leafAt_bind_eq_ofCollect fun leaf => ?_
  exact refuse_eq_ofCollect fun _ => rfl

theorem checkFrontier_eq (key : MonitorKey) (latest : UInt32) (floor : CommitmentIndex)
    (positions : List UInt64) (steps : List ProofStep) :
    checkFrontier key latest floor positions steps =
      ofCollect (key.checkFrontier latest floor (positions.map (·.toNat)) steps) := by
  induction steps generalizing latest floor positions with
  | nil => cases positions <;> rfl
  | cons step steps ih =>
    cases positions with
    | nil => rfl
    | cons position positions =>
      refine refuse_eq_ofCollect fun _ => ?_
      refine leafAt_bind_eq_ofCollect fun leaf => ?_
      refine refuse_eq_ofCollect fun _ => ?_
      exact bind_eq_ofCollect rfl fun _ => ih _ _ _

/-- Checking a monitoring proof in words never halts. -/
theorem verifyMonitorProof_eq (key : MonitorKey) (proof : MonitorProof) (size : UInt64) :
    verifyMonitorProof key proof size = ofCollect (key.verify proof size.toNat) := by
  obtain ⟨frontier, hfrontier, hpositions⟩ :=
    Option.map_eq_some_iff.mp (frontier?_eq key.entryPosition size)
  have hwanted : (Tree.monitoredPositions key.position size.toNat).length =
      (key.entryPosition :: frontier).length := by
    rw [Tree.monitoredPositions, MonitorKey.position, ← hpositions, List.length_cons,
      List.length_map, List.length_cons]
  have houtside : size ≤ key.entryPosition ↔ size.toNat ≤ key.position := UInt64.le_iff_toNat_le
  unfold verifyMonitorProof MonitorKey.verify
  simp only [houtside, hwanted]
  refine refuse_eq_ofCollect fun _ => ?_
  rw [some_bind_collect hfrontier]
  refine refuse_eq_ofCollect fun _ => ?_
  refine refuse_eq_ofCollect fun _ => ?_
  cases proof.steps.head? with
  | none => rfl
  | some entry =>
    refine bind_eq_ofCollect (checkEntry_eq _ _) fun _ => ?_
    refine bind_eq_ofCollect ?_ fun _ => rfl
    rw [checkFrontier_eq, hpositions]
    rfl

theorem verifyMonitorProofs_eq {keys : List MonitorKey} {proofs : List MonitorProof}
    (hlength : keys.length = proofs.length) (size : UInt64) :
    verifyMonitorProofs keys proofs size =
      ofCollect (MonitorKey.verifyAll keys proofs size.toNat) := by
  rw [verifyMonitorProofs, some_bind_collect (zip?_eq hlength), MonitorKey.verifyAll]
  generalize keys.zip proofs = pairs
  induction pairs with
  | nil => rfl
  | cons pair pairs ih =>
    rw [List.mapM_cons, List.mapM_cons]
    exact bind_eq_ofCollect (verifyMonitorProof_eq _ _ _) fun _ =>
      bind_eq_ofCollect ih fun _ => rfl

/-! ## Responses -/

theorem exists_mapM_ofNat? {numbers : List Nat} (h : ∀ number ∈ numbers, number < UInt64.size) :
    ∃ words, numbers.mapM ofNat? = some words ∧ words.map (·.toNat) = numbers := by
  apply exists_mapM_toNat
  apply List.forall₂_same.mpr
  intro number hnumber
  exact exists_ofNat? (h number hnumber)

theorem exists_positions? {set : LeafSet} {size : UInt64}
    (hset : ∀ leaf ∈ set.leaves, leaf.position < size.toNat) :
    ∃ positions, positions? set = some positions ∧
      positions.map (·.toNat) = set.leaves.map (·.position) := by
  refine exists_mapM_ofNat? fun number hnumber => ?_
  obtain ⟨leaf, hleaf, rfl⟩ := List.mem_map.mp hnumber
  exact Nat.lt_trans (hset leaf hleaf) size.toNat_lt

theorem verifyLeaves_eq {set : LeafSet} {size : UInt64}
    (hset : ∀ leaf ∈ set.leaves, leaf.position < size.toNat) (root : Hash) (proof : List Hash) :
    verifyLeaves set size root proof = ofResult (set.verify size.toNat root proof) := by
  obtain ⟨positions, hpositions, hpositionsNat⟩ := exists_positions? hset
  have hevaluate : (evaluateBatch size positions (set.leaves.map (·.leaf)) proof).run =
      some (Tree.evaluateBatch size.toNat (set.leaves.map (·.position)) (set.leaves.map (·.leaf))
        proof) := by
    rw [evaluateBatch_eq, hpositionsNat]
    rfl
  rw [verifyLeaves, some_bind hpositions, some_bind hevaluate, LeafSet.verify]
  cases Tree.evaluateBatch size.toNat (set.leaves.map (·.position)) (set.leaves.map (·.leaf)) proof
    with
  | error error => cases error <;> rfl
  | ok computed =>
    change (if computed = root then _ else _) = ofResult (if computed = root then _ else _)
    split
    · rfl
    · rfl

/-- Verifying a monitoring response in words never halts. -/
theorem verifyMonitor_eq (response : MonitorResponse) (request : MonitorRequest)
    (trust : Trust G) :
    verifyMonitor response request trust = ofResult (response.verify request trust).result := by
  unfold verifyMonitor MonitorResponse.verify
  rw [Attempt.result_bind]
  refine bind_eq_ofResult (verifyHead_eq _ _ _) fun head _ => ?_
  refine refuse_eq_ofResult_result fun hlength => ?_
  simp only [Attempt.result_bind, Attempt.liftM_result]
  rw [verifyMonitorProofs_eq (not_not.mp hlength), fromEmpty_ofCollect]
  refine bind_eq_ofResult rfl fun (keys, leaves) hkeys => ?_
  have hset : ∀ leaf ∈ leaves.leaves, leaf.position < head.treeSize.toNat :=
    MonitorKey.position_lt_of_verifyAll (KeyTransparency.Collect.fromEmpty_eq_ok_iff.mp hkeys)
      (List.forall_mem_nil _)
  exact bind_eq_ofResult (verifyLeaves_eq hset _ _) fun _ _ => rfl

/-- No check halts when it is carried out in words: whatever it is given, each of its sums,
differences and shifts is a word, each place that it looks up exists, lists that it pairs have the
same length, and no subtree is divided more often than a word has bits.  So each check ends with the
result that it has in numbers. -/
theorem checks_never_halt :
    (∀ proof size root old oldRoot, checkTree proof size root old oldRoot =
      ofResult (Tree.checkTree proof size.toNat root old.toNat oldRoot)) ∧
    (∀ proof size root n leaf, checkRecord proof size root n leaf =
      ofResult (Tree.checkRecord proof size.toNat root n.toNat leaf)) ∧
    (∀ size positions leaves proof, evaluateBatch size positions leaves proof =
      ofResult (Tree.evaluateBatch size.toNat (positions.map (·.toNat)) leaves proof)) ∧
    (∀ n size, (frontier? n size).map (List.map (·.toNat)) =
      some (Tree.frontier n.toNat size.toNat)) ∧
    (∀ index proof bound, verifyPrefix index proof bound =
      ofResult (PrefixTree.verify index proof bound)) ∧
    (∀ steps target size claimed, verifySearch steps target size claimed =
      ofResult (Search.verify steps target size.toNat claimed.toNat)) ∧
    (∀ key proof size, verifyMonitorProof key proof size =
      ofCollect (key.verify proof size.toNat)) ∧
    (∀ {G : PointGroup} heads full seen (config : Config G),
      checkConsistency heads full seen config =
        ofResult (heads.checkConsistency full seen config).result) ∧
    ∀ {G : PointGroup} response request (trust : Trust G), verifyMonitor response request trust =
      ofResult (response.verify request trust).result :=
  ⟨checkTree_eq, checkRecord_eq, evaluateBatch_eq, frontier?_eq, verifyPrefix_eq, verifySearch_eq,
    verifyMonitorProof_eq, checkConsistency_eq, verifyMonitor_eq⟩

end Words

end KeyTransparency
