import KeyTransparency.Proofs.Log.Order
import KeyTransparency.Proofs.Monitor
import KeyTransparency.Proofs.Tree.Frontier
import Mathlib.Order.Bounds.Basic

/-!
# Later versions surface

A client that monitors an entry sees only its frontier.  On a log in order this is enough: the
versions of an identifier are consecutive, so the first later version is the next entry, and the
frontier contains it.  An honest monitoring proof is accepted, and it reports a later version
exactly if there is one.
-/

namespace KeyTransparency

namespace MonitorKey

variable {key : MonitorKey} {latest final : UInt32} {positions : List Nat} {steps : List ProofStep}

namespace Watch

open KeyTransparency.Tree (PlacedLeaf)

variable {floor : CommitmentIndex} {touched : List PlacedLeaf}

theorem le_final (h : Watch key latest floor positions steps touched final) : latest ≤ final := by
  induction h with
  | done latest floor => exact UInt32.le_refl latest
  | version _ _ hcounter _ _ ih => exact UInt32.le_trans (UInt32.le_of_lt hcounter) ih
  | other _ _ _ _ ih => exact ih

theorem counter_le_final (h : Watch key latest floor positions steps touched final) :
    ∀ step ∈ steps, step.index = key.commitmentIndex → step.counter ≤ final := by
  induction h with
  | done latest floor =>
    intro step hstep
    cases hstep
  | version _ _ _ _ hrest ih =>
    intro step hstep hindex
    rcases List.mem_cons.mp hstep with rfl | hlater
    · exact hrest.le_final
    · exact ih step hlater hindex
  | other hother _ _ _ ih =>
    intro step hstep hindex
    rcases List.mem_cons.mp hstep with rfl | hlater
    · exact absurd hindex hother
    · exact ih step hlater hindex

theorem final_attained (h : Watch key latest floor positions steps touched final) :
    final = latest ∨ ∃ step ∈ steps, step.index = key.commitmentIndex ∧ step.counter = final := by
  induction h with
  | done latest floor => exact .inl rfl
  | version hindex _ _ _ _ ih =>
    rcases ih with heq | ⟨step, hstep, hfound⟩
    · exact .inr ⟨_, List.mem_cons_self, hindex, heq.symm⟩
    · exact .inr ⟨step, List.mem_cons_of_mem _ hstep, hfound⟩
  | other _ _ _ _ ih =>
    rcases ih with heq | ⟨step, hstep, hfound⟩
    · exact .inl heq
    · exact .inr ⟨step, List.mem_cons_of_mem _ hstep, hfound⟩

end Watch

/-- Steps that show the entries of a log in order, from some entry on, are accepted on a frontier,
if what precedes them is no later identifier or version. -/
theorem exists_watch_of_shownAt {log : List Version} (hlog : Ordered log)
    (hsteps : ShownAt log positions steps) {start : Nat} {previous : Version}
    (hprevious : log[start]? = some previous) (hpositions : (start :: positions).Pairwise (· < ·))
    (hindex : ¬previous.index < key.commitmentIndex)
    (hlatest : previous.index = key.commitmentIndex → previous.counter = latest) :
    ∃ final, Watch key latest previous.index positions steps (placedLeaves positions steps)
      final := by
  induction hsteps generalizing start previous latest with
  | nil => exact ⟨latest, .done latest previous.index⟩
  | @cons position step positions steps hstep hsteps ih =>
    obtain ⟨version, hentry, hshows⟩ := hstep
    obtain ⟨hstart, hrest⟩ := List.pairwise_cons.mp hpositions
    have hlt := hlog.lt_of_lt hprevious hentry (hstart position List.mem_cons_self)
    have hfloor : ¬step.index < previous.index := by
      rw [hshows.index_eq]
      exact Version.index_not_lt hlt
    have hnext : ¬version.index < key.commitmentIndex := by
      rw [hshows.index_eq] at hfloor
      exact CommitmentIndex.not_lt_trans hindex hfloor
    by_cases hown : version.index = key.commitmentIndex
    · have hsame : previous.index = key.commitmentIndex := by
        rw [hshows.index_eq, hown] at hfloor
        exact CommitmentIndex.eq_of_not_lt_of_not_lt hindex hfloor
      have hcounter : latest < step.counter := by
        rw [hshows.counter_eq, ← hlatest hsame]
        exact Version.counter_lt hlt (hsame.trans hown.symm)
      obtain ⟨final, hwatch⟩ := ih hentry hrest hnext fun _ => hshows.counter_eq.symm
      rw [← hshows.index_eq] at hown hwatch
      exact ⟨final, .version hown hfloor hcounter hshows.leaf_none hwatch⟩
    · obtain ⟨final, hwatch⟩ := ih hentry hrest hnext fun h => absurd h hown
      rw [← hshows.index_eq] at hown hwatch
      exact ⟨final, .other hown hfloor hshows.leaf_none hwatch⟩

end MonitorKey

/-- On a log in order the entry of a version is followed by that of the next one, if there is a
later version at all. -/
theorem Ordered.exists_next {log : List Version} (hlog : Ordered log) {position : Nat}
    {version later : Version} (hentry : log[position]? = some version) (hlater : later ∈ log)
    (hindex : later.index = version.index) (hcounter : version.counter < later.counter) :
    ∃ next, log[position + 1]? = some next ∧ next.index = version.index ∧
      version.counter < next.counter := by
  obtain ⟨i, hi⟩ := List.mem_iff_getElem?.mp hlater
  have hbefore : position < i := hlog.lt_of_getElem?_lt hentry hi (.inr ⟨hindex.symm, hcounter⟩)
  have hbound := Nat.lt_of_le_of_lt hbefore (List.getElem?_eq_some_iff.mp hi).1
  have hnext := List.getElem?_eq_getElem hbound
  have hlt := hlog.lt_of_lt hentry hnext (Nat.lt_succ_self position)
  -- the next entry is neither before this version nor after the later one
  have hnotAfter : ¬later.index < log[position + 1].index := by
    rcases Nat.lt_or_eq_of_le hbefore with hbetween | rfl
    · exact Version.index_not_lt (hlog.lt_of_lt hnext hi hbetween)
    · cases hnext.symm.trans hi
      exact CommitmentIndex.not_lt_self _
  rw [hindex] at hnotAfter
  have hsame := CommitmentIndex.eq_of_not_lt_of_not_lt (Version.index_not_lt hlt) hnotAfter
  exact ⟨_, hnext, hsame, Version.counter_lt hlt hsame.symm⟩

namespace MonitorKey

/-- The counter that is reported is the greatest one that shows. -/
theorem Watch.isGreatest {key : MonitorKey} {log : List Version} {final : UInt32}
    {positions : List Nat} {steps : List ProofStep} {touched : List Tree.PlacedLeaf}
    (h : Watch key key.counter key.commitmentIndex positions steps touched final)
    (hsteps : ShownAt log positions steps)
    (hentry : log[key.position]? = some ⟨key.commitmentIndex, key.counter⟩) :
    IsGreatest {counter | ∃ position ∈ key.position :: positions,
      log[position]? = some ⟨key.commitmentIndex, counter⟩} final := by
  constructor
  · rcases h.final_attained with rfl | ⟨step, hstep, hindex, rfl⟩
    · exact ⟨key.position, List.mem_cons_self, hentry⟩
    · obtain ⟨position, hposition, version, hversion, hshows⟩ := hsteps.exists_position hstep
      refine ⟨position, List.mem_cons_of_mem _ hposition, ?_⟩
      rw [hversion, ← hindex, hshows.index_eq, hshows.counter_eq]
  · rintro counter ⟨position, hposition, hversion⟩
    rcases List.mem_cons.mp hposition with rfl | hfrontier
    · cases hentry.symm.trans hversion
      exact h.le_final
    · obtain ⟨step, hstep, version, hversion', hshows⟩ := hsteps.exists_step hfrontier
      cases hversion.symm.trans hversion'
      have hcounter : step.counter = counter := hshows.counter_eq
      exact hcounter ▸ h.counter_le_final step hstep hshows.index_eq

/-- A later version shows on the positions that monitoring covers, if the log has one at all. -/
theorem counter_lt_iff_of_isGreatest {log : List Version} (hlog : Ordered log) {key : MonitorKey}
    {size : UInt64} (hposition : key.position < size.toNat)
    (hentry : log[key.position]? = some ⟨key.commitmentIndex, key.counter⟩)
    (hgreatest : IsGreatest {counter | ∃ position ∈
      Tree.monitoredPositions key.position size.toNat,
        log[position]? = some ⟨key.commitmentIndex, counter⟩} latest) :
    key.counter < latest ↔ ∃ version ∈ log.take size.toNat,
      version.index = key.commitmentIndex ∧ key.counter < version.counter := by
  constructor
  · intro hlater
    obtain ⟨position, hmonitored, hfound⟩ := hgreatest.1
    have hbound := Tree.lt_of_mem_monitoredPositions hposition hmonitored
    rw [← List.getElem?_take_of_lt hbound] at hfound
    exact ⟨_, List.mem_of_getElem? hfound, rfl, hlater⟩
  · rintro ⟨later, hlater, hindex, hcounter⟩
    have htaken : (log.take size.toNat)[key.position]? =
        some ⟨key.commitmentIndex, key.counter⟩ := by
      rw [List.getElem?_take_of_lt hposition, hentry]
    obtain ⟨next, hnext, hsame, habove⟩ :=
      (hlog.take size.toNat).exists_next htaken hlater hindex hcounter
    have hbound : key.position + 1 < size.toNat := by
      have hlength := (List.getElem?_eq_some_iff.mp hnext).1
      rw [List.length_take] at hlength
      exact Nat.lt_of_lt_of_le hlength (Nat.min_le_left _ _)
    -- the frontier contains the next entry, so its counter is not above the one reported
    have hfrontier := Tree.succ_mem_frontier hbound (Nat.le_of_lt size.toNat_lt)
    have hshown : log[key.position + 1]? = some ⟨key.commitmentIndex, next.counter⟩ := by
      have hindex : next.index = key.commitmentIndex := hsame
      rw [← List.getElem?_take_of_lt hbound, hnext, ← hindex]
    exact UInt32.lt_of_lt_of_le habove
      (hgreatest.2 ⟨_, List.mem_cons_of_mem _ hfrontier, hshown⟩)

/-- An honest monitoring proof is accepted.  It reports the greatest counter that the identifier has
on the positions that monitoring covers, and this lies above the counter of the watched entry
exactly if the log has a later version. -/
theorem verify_surfaces {log : List Version} (hlog : Ordered log) {key : MonitorKey}
    {proof : MonitorProof} {size : UInt64} (hposition : key.position < size.toNat)
    (hentry : log[key.position]? = some ⟨key.commitmentIndex, key.counter⟩)
    (hsteps : ShownAt log (Tree.monitoredPositions key.position size.toNat) proof.steps) :
    ∃ latest set,
      (key.verify proof size.toNat).fromEmpty =
        .ok (⟨key.searchKey, key.entryPosition, latest⟩, set) ∧
      IsGreatest {counter | ∃ position ∈ Tree.monitoredPositions key.position size.toNat,
        log[position]? = some ⟨key.commitmentIndex, counter⟩} latest ∧
      (key.counter < latest ↔ ∃ version ∈ log.take size.toNat,
        version.index = key.commitmentIndex ∧ key.counter < version.counter) := by
  have hincreasing := Tree.pairwise_monitoredPositions key.position size.toNat
  have hdistinct := hincreasing.imp Nat.ne_of_lt
  rw [← hsteps.map_position] at hdistinct
  obtain ⟨set, hset⟩ := LeafSet.exists_forM_insert_of_nodup hdistinct
  obtain ⟨steps⟩ := proof
  obtain ⟨entry, steps, ⟨version, hversion, hshows⟩, hrest, rfl⟩ :=
    List.forall₂_cons_left_iff.mp hsteps
  cases hentry.symm.trans hversion
  obtain ⟨latest, hwatch⟩ := exists_watch_of_shownAt hlog hrest hentry hincreasing
    (CommitmentIndex.not_lt_self _) fun _ => rfl
  have hgreatest := hwatch.isGreatest hrest hentry
  have hverify := verify_of_watch hposition hrest.length_eq hshows.index_eq hshows.counter_eq
    hshows.leaf_none hwatch hset
  exact ⟨latest, set, Collect.fromEmpty_eq_ok_iff.mpr hverify, hgreatest,
    counter_lt_iff_of_isGreatest hlog hposition hentry hgreatest⟩

end MonitorKey

namespace ThreeVersions

def key : MonitorKey := ⟨.distinguished, 1, high, 0⟩

def proof : MonitorProof := ⟨[step ⟨high, 0⟩, step ⟨high, 1⟩]⟩

/-- The entry of the latest version is not on the frontier, but that of an older one is. -/
theorem verify_surfaces_key :
    ⟨high, 2⟩ ∈ log ∧ ∃ latest set,
      (key.verify proof 4).fromEmpty = .ok (⟨.distinguished, 1, latest⟩, set) ∧ 0 < latest := by
  have hposition : key.position < (4 : UInt64).toNat := by decide
  have hsteps : ShownAt log (Tree.monitoredPositions key.position (4 : UInt64).toNat)
      proof.steps :=
    .cons ⟨_, rfl, shows_step _⟩ (.cons ⟨_, rfl, shows_step _⟩ .nil)
  have hlater : ⟨high, 2⟩ ∈ log := by decide
  obtain ⟨latest, set, hverify, -, hsurfaces⟩ :=
    MonitorKey.verify_surfaces ordered_log hposition rfl hsteps
  exact ⟨hlater, latest, set, hverify, hsurfaces.mpr ⟨⟨high, 2⟩, hlater, rfl, by decide⟩⟩

end ThreeVersions

end KeyTransparency
