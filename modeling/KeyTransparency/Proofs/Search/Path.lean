import KeyTransparency.Proofs.Log.Order

/-!
# Searches of a log in order

On a log in order a search for an index is a binary search for the first version of its identifier.
`Narrows` is the invariant of the replay: all entries before the interval sort before the first
version, and all entries behind it sort after it.  It decides what becomes of a replay of the whole
search, of a part of it, and of the search with further steps.
-/

namespace KeyTransparency

open KeyTransparency.Tree (PlacedLeaf)

namespace Search

/-- The positions that a search for an index visits between `lo` and `hi`. -/
def path (log : List Version) (target : CommitmentIndex) (lo hi : Nat) : List Nat :=
  if _h : lo < hi then
    midpoint lo hi ::
      match log[midpoint lo hi]? with
      | none => []
      | some version =>
        if version = .first target then []
        else if version.index < target then path log target (midpoint lo hi + 1) hi
        else path log target lo (midpoint lo hi)
  else []
termination_by hi - lo
decreasing_by
  all_goals
    unfold midpoint
    omega

variable {log : List Version} {target : CommitmentIndex}

theorem midpoint_lt {lo hi : Nat} (h : lo < hi) : midpoint lo hi < hi := by
  unfold midpoint
  omega

theorem le_midpoint (lo hi : Nat) : lo ≤ midpoint lo hi := Nat.le_add_right _ _

theorem path_of_le {lo hi : Nat} (h : hi ≤ lo) : path log target lo hi = [] := by
  rw [path, dif_neg (Nat.not_lt.mpr h)]

/-- A search goes on to the right or to the left of the first position that it visits, or not at
all. -/
theorem exists_path_eq_cons {lo hi : Nat} (h : lo < hi) :
    ∃ rest, path log target lo hi = midpoint lo hi :: rest ∧
      (rest = [] ∨ rest = path log target (midpoint lo hi + 1) hi ∨
        rest = path log target lo (midpoint lo hi)) := by
  rw [path, dif_pos h]
  refine ⟨_, rfl, ?_⟩
  split
  · exact .inl rfl
  · split
    · exact .inl rfl
    · split
      · exact .inr (.inl rfl)
      · exact .inr (.inr rfl)

/-- A search visits positions of its interval only. -/
theorem bounds_of_mem_path {lo hi position : Nat} (h : position ∈ path log target lo hi) :
    lo ≤ position ∧ position < hi := by
  induction lo, hi using path.induct with
  | case1 lo hi hopen ihRight ihLeft =>
    have hmiddle := midpoint_lt hopen
    have hlow := le_midpoint lo hi
    obtain ⟨rest, hpath, hrest⟩ := exists_path_eq_cons hopen
    rw [hpath] at h
    rcases List.mem_cons.mp h with rfl | hlater
    · exact ⟨hlow, hmiddle⟩
    · rcases hrest with rfl | rfl | rfl
      · cases hlater
      · obtain ⟨hafter, hbefore⟩ := ihRight hlater
        omega
      · obtain ⟨hafter, hbefore⟩ := ihLeft hlater
        omega
  | case2 lo hi hclosed =>
    rw [path_of_le (Nat.le_of_not_lt hclosed)] at h
    cases h

theorem nodup_path (lo hi : Nat) : (path log target lo hi).Nodup := by
  induction lo, hi using path.induct with
  | case1 lo hi hopen ihRight ihLeft =>
    obtain ⟨rest, hpath, hrest⟩ := exists_path_eq_cons hopen
    rw [hpath, List.nodup_cons]
    -- the middle lies outside of both halves
    rcases hrest with rfl | rfl | rfl
    · simp
    · refine ⟨?_, ihRight⟩
      intro hmem
      exact Nat.not_succ_le_self _ (bounds_of_mem_path hmem).1
    · refine ⟨?_, ihLeft⟩
      intro hmem
      exact Nat.lt_irrefl _ (bounds_of_mem_path hmem).2
  | case2 lo hi hclosed =>
    rw [path_of_le (Nat.le_of_not_lt hclosed)]
    exact .nil

/-! ## One visit -/

/-- How far a search has come after visiting an entry at which it does not end. -/
def Progress.visit (progress : Progress) (target : CommitmentIndex) (version : Version)
    (leaf : Hash) : Progress :=
  let position := midpoint progress.lo progress.hi
  { lo := if version.index < target then position + 1 else progress.lo
    hi := if version.index < target then progress.hi else position
    latestMatch :=
      if version.index = target then some (position, version.counter) else progress.latestMatch
    touched := ⟨position, leaf⟩ :: progress.touched }

variable {claimed : Nat} {progress : Progress} {version : Version}

theorem le_of_path_eq_nil {lo hi : Nat} (h : path log target lo hi = []) : hi ≤ lo := by
  by_contra hopen
  rw [path, dif_pos (Nat.lt_of_not_le hopen)] at h
  cases h

theorem lt_of_shownAt {lo hi : Nat} {steps : List ProofStep}
    (h : ShownAt log (path log target lo hi) steps) (hne : steps ≠ []) : lo < hi := by
  by_contra hclosed
  rw [path_of_le (Nat.le_of_not_lt hclosed)] at h
  exact hne (List.forall₂_nil_left_iff.mp h)

theorem path_of_lt (hopen : progress.lo < progress.hi)
    (hentry : log[midpoint progress.lo progress.hi]? = some version) (leaf : Hash) :
    path log target progress.lo progress.hi =
      midpoint progress.lo progress.hi ::
        if version = .first target then []
        else path log target (progress.visit target version leaf).lo
          (progress.visit target version leaf).hi := by
  rw [path, dif_pos hopen, hentry]
  simp only [Progress.visit]
  split
  · rfl
  · split <;> rfl

/-- A step that shows an entry ends the replay or takes it one visit further. -/
theorem replay_cons_of_shows {step : ProofStep} {rest : List ProofStep}
    (hopen : progress.lo < progress.hi) (hstep : step.Shows version)
    (holder : version.index = target → checkOlder progress.latestMatch version.counter = .ok ()) :
    replay target claimed progress (step :: rest) =
      if version = .first target then
        finished progress ⟨midpoint progress.lo progress.hi, step.leafHash⟩ claimed rest.length
      else replay target claimed (progress.visit target version step.leafHash) rest := by
  rw [replay, if_neg (Nat.not_le.mpr hopen), hstep.leaf_none, hstep.index_eq, hstep.counter_eq]
  simp only [Except.mapError, bind, Except.bind, Progress.visit]
  by_cases hbefore : version.index < target
  · have hindex : version.index ≠ target := by
      rintro rfl
      exact CommitmentIndex.not_lt_self _ hbefore
    have hne : version ≠ .first target := fun h => hindex (congrArg Version.index h)
    simp only [hbefore, if_true, if_neg hne, if_neg hindex]
  · by_cases hafter : target < version.index
    · have hindex : version.index ≠ target := by
        rintro rfl
        exact CommitmentIndex.not_lt_self _ hafter
      have hne : version ≠ .first target := fun h => hindex (congrArg Version.index h)
      simp only [hbefore, hafter, if_true, if_false, if_neg hne, if_neg hindex]
    · have hindex := CommitmentIndex.eq_of_not_lt_of_not_lt hbefore hafter
      have hfirst : version = .first target ↔ version.counter = 0 := by
        rw [← hindex, Version.first]
        exact ⟨fun h => congrArg Version.counter h, fun h => by rw [← h]⟩
      rw [if_neg hbefore, if_neg hafter, holder hindex]
      simp only [if_neg hbefore, if_pos hindex, hfirst]

/-! ## The invariant -/

/-- A search that has come this far leaves out no entry of the identifier before the first version,
and has visited later versions only. -/
structure Narrows (log : List Version) (target : CommitmentIndex) (progress : Progress) : Prop where
  lo_le_hi : progress.lo ≤ progress.hi
  hi_le : progress.hi ≤ log.length
  before : ∀ i version, log[i]? = some version → i < progress.lo → version.index < target
  after : ∀ i version, log[i]? = some version → progress.hi ≤ i → .first target < version
  latest : ∀ position counter, progress.latestMatch = some (position, counter) →
    progress.hi ≤ position ∧ log[position]? = some ⟨target, counter⟩

theorem narrows_start (log : List Version) (target : CommitmentIndex) :
    Narrows log target ⟨0, log.length, none, []⟩ where
  lo_le_hi := Nat.zero_le _
  hi_le := Nat.le_refl _
  before := by
    intro i version _ hi
    exact absurd hi (Nat.not_lt_zero i)
  after := by
    intro i version hentry hi
    rw [List.getElem?_eq_none hi] at hentry
    cases hentry
  latest := by
    intro position counter h
    cases h

namespace Narrows

theorem exists_entry (h : Narrows log target progress) (hopen : progress.lo < progress.hi) :
    ∃ version, log[midpoint progress.lo progress.hi]? = some version := by
  have hbound := Nat.lt_of_lt_of_le (midpoint_lt hopen) h.hi_le
  exact ⟨_, List.getElem?_eq_getElem hbound⟩

/-- The counter at the position visited lies below that of the last version visited. -/
theorem checkOlder (h : Narrows log target progress) (hlog : Ordered log)
    (hopen : progress.lo < progress.hi)
    (hentry : log[midpoint progress.lo progress.hi]? = some version)
    (hindex : version.index = target) :
    checkOlder progress.latestMatch version.counter = .ok () := by
  unfold Search.checkOlder
  split
  · rename_i later counter hlatest
    obtain ⟨hposition, hlater⟩ := h.latest later counter hlatest
    have hlt := hlog.lt_of_lt hentry hlater (Nat.lt_of_lt_of_le (midpoint_lt hopen) hposition)
    rw [if_neg (UInt32.not_le.mpr (Version.counter_lt hlt hindex))]
  · rfl

theorem visit (h : Narrows log target progress) (hlog : Ordered log)
    (hopen : progress.lo < progress.hi)
    (hentry : log[midpoint progress.lo progress.hi]? = some version)
    (hne : version ≠ .first target) (leaf : Hash) :
    Narrows log target (progress.visit target version leaf) := by
  have hmiddle := midpoint_lt hopen
  have hlow := le_midpoint progress.lo progress.hi
  by_cases hbefore : version.index < target
  · have hindex : version.index ≠ target := by
      rintro rfl
      exact CommitmentIndex.not_lt_self _ hbefore
    simp only [Progress.visit, if_pos hbefore, if_neg hindex]
    refine ⟨hmiddle, h.hi_le, ?_, h.after, h.latest⟩
    -- all entries before this one sort before the first version as well
    intro i other hother hi
    rcases Nat.lt_or_eq_of_le (Nat.le_of_lt_succ hi) with hi | rfl
    · apply Version.lt_first_iff.mp
      exact Version.lt_trans (hlog.lt_of_lt hother hentry hi) (Version.lt_first_iff.mpr hbefore)
    · cases hother.symm.trans hentry
      exact hbefore
  · have hfirst := Version.first_lt_of_not_lt hbefore hne
    simp only [Progress.visit, if_neg hbefore]
    refine ⟨hlow, Nat.le_trans (Nat.le_of_lt hmiddle) h.hi_le, h.before, ?_, ?_⟩
    · intro i other hother hi
      rcases Nat.lt_or_eq_of_le hi with hi | rfl
      · exact Version.lt_trans hfirst (hlog.lt_of_lt hentry hother hi)
      · cases hother.symm.trans hentry
        exact hfirst
    · intro position counter hlatest
      split at hlatest
      · rename_i hindex
        cases hlatest
        exact ⟨Nat.le_refl _, by rw [hentry, ← hindex]⟩
      · obtain ⟨hposition, hversion⟩ := h.latest position counter hlatest
        exact ⟨Nat.le_trans (Nat.le_of_lt hmiddle) hposition, hversion⟩

end Narrows

/-! ## Where a search ends -/

/-- A search that visits the first version is at the first entry of the identifier. -/
theorem findIdx?_eq_some_of_first (hlog : Ordered log) {position : Nat}
    (hentry : log[position]? = some (.first target)) :
    log.findIdx? (·.index = target) = some position := by
  obtain ⟨hbound, hfirst⟩ := List.getElem?_eq_some_iff.mp hentry
  refine List.findIdx?_eq_some_iff_getElem.mpr ⟨hbound, ?_, ?_⟩
  · rw [hfirst]
    exact decide_eq_true rfl
  · intro i hi
    have hlt := hlog.lt_of_lt (List.getElem?_eq_getElem (Nat.lt_trans hi hbound)) hentry hi
    have hindex := Version.lt_first_iff.mp hlt
    simp only [decide_eq_true_eq]
    intro hsame
    exact CommitmentIndex.not_lt_self target (hsame ▸ hindex)

theorem countP_eq_of_split {p : Version → Bool} {count : Nat} (hcount : count ≤ log.length)
    (hbefore : ∀ i version, log[i]? = some version → i < count → p version = true)
    (hafter : ∀ i version, log[i]? = some version → count ≤ i → p version = false) :
    log.countP p = count := by
  have hall : (log.take count).countP p = (log.take count).length := by
    rw [List.countP_eq_length]
    intro version hversion
    obtain ⟨i, hi⟩ := List.mem_iff_getElem?.mp hversion
    have hbound := (List.getElem?_eq_some_iff.mp hi).1
    rw [List.length_take] at hbound
    have hlt : i < count := by omega
    rw [List.getElem?_take_of_lt hlt] at hi
    exact hbefore i version hi hlt
  have hnone : (log.drop count).countP p = 0 := by
    rw [List.countP_eq_zero]
    intro version hversion
    obtain ⟨i, hi⟩ := List.mem_iff_getElem?.mp hversion
    rw [List.getElem?_drop] at hi
    rw [hafter (count + i) version hi (Nat.le_add_right count i)]
    exact Bool.false_ne_true
  calc
    log.countP p = (log.take count ++ log.drop count).countP p := by rw [List.take_append_drop]
    _ = count := by rw [List.countP_append, hall, hnone, List.length_take, Nat.min_eq_left hcount,
      Nat.add_zero]

namespace Narrows

/-- A search whose interval is empty has shown that the identifier has no entry, and where its
entries would be. -/
theorem not_found (h : Narrows log target progress) (hlog : Ordered log)
    (hclosed : progress.hi ≤ progress.lo) :
    log.findIdx? (·.index = target) = none ∧ progress.latestMatch = none ∧
      log.countP (·.index < target) = progress.lo := by
  have hnone : ∀ version ∈ log, version.index ≠ target := by
    rintro version hversion rfl
    obtain ⟨i, hi⟩ := List.mem_iff_getElem?.mp (hlog.first_mem version hversion)
    rcases Nat.lt_or_ge i progress.lo with hlo | hlo
    · exact CommitmentIndex.not_lt_self _ (h.before i (.first version.index) hi hlo)
    · exact Version.lt_irrefl _ (h.after i (.first version.index) hi (Nat.le_trans hclosed hlo))
  refine ⟨?_, ?_, ?_⟩
  · apply List.findIdx?_eq_none_iff.mpr
    intro version hversion
    exact decide_eq_false (hnone version hversion)
  · cases hlatest : progress.latestMatch with
    | none => rfl
    | some latest =>
      obtain ⟨-, hversion⟩ := h.latest latest.1 latest.2 hlatest
      exact absurd rfl (hnone _ (List.mem_of_getElem? hversion))
  · apply countP_eq_of_split (Nat.le_trans h.lo_le_hi h.hi_le)
    · intro i version hentry hi
      exact decide_eq_true (h.before i version hentry hi)
    · intro i version hentry hi
      have hfirst := h.after i version hentry (Nat.le_trans hclosed hi)
      apply decide_eq_false
      exact Version.index_not_lt hfirst

end Narrows

/-- What becomes of a search that is replayed to its end and has `later` more steps. -/
def conclusion (log : List Version) (target : CommitmentIndex) (claimed later : Nat)
    (touched : List PlacedLeaf) : Except SearchError Outcome :=
  match log.findIdx? (·.index = target) with
  | some first =>
    if 0 < later then .error (.pathInconsistent (.stepsAfterEnd later))
    else if first = claimed then .ok ⟨first, touched.length - 1, touched⟩
    else .error (.pathInconsistent (.endsElsewhere first claimed))
  | none =>
    if 0 < later then .error (.pathInconsistent (.stepsAfterEmpty later))
    else .error (.notFound (log.countP (·.index < target)))

theorem replay_append_of_shownAt (hlog : Ordered log) (h : Narrows log target progress)
    {steps : List ProofStep}
    (hsteps : ShownAt log (path log target progress.lo progress.hi) steps)
    (more : List ProofStep) :
    replay target claimed progress (steps ++ more) =
      conclusion log target claimed more.length
        (progress.touched.reverse ++
          placedLeaves (path log target progress.lo progress.hi) steps) := by
  induction steps generalizing progress with
  | nil =>
    have hclosed := le_of_path_eq_nil (List.forall₂_nil_right_iff.mp hsteps)
    obtain ⟨hnone, hlatest, hcount⟩ := h.not_found hlog hclosed
    rw [conclusion, hnone, hcount, List.nil_append]
    cases more with
    | nil =>
      simp only [replay, unfinished, hlatest, if_neg (Nat.not_lt.mpr hclosed), List.length_nil,
        Nat.lt_irrefl, if_false]
    | cons step more =>
      simp only [replay, if_pos hclosed, List.length_cons, Nat.succ_pos, if_true]
      rfl
  | cons step steps ih =>
    have hopen := lt_of_shownAt hsteps (List.cons_ne_nil _ _)
    obtain ⟨version, hentry⟩ := h.exists_entry hopen
    rw [path_of_lt hopen hentry step.leafHash] at hsteps ⊢
    obtain ⟨⟨version', hentry', hstep⟩, hsteps⟩ := List.forall₂_cons.mp hsteps
    cases hentry.symm.trans hentry'
    rw [List.cons_append, replay_cons_of_shows hopen hstep (h.checkOlder hlog hopen hentry)]
    by_cases hfirst : version = .first target
    · -- the search ends here, at the first entry of the identifier
      rw [if_pos hfirst] at hsteps ⊢
      cases hsteps
      rw [hfirst] at hentry
      rw [if_pos hfirst, conclusion, findIdx?_eq_some_of_first hlog hentry]
      simp [finished, placedLeaves]
    · rw [if_neg hfirst] at hsteps ⊢
      rw [if_neg hfirst, ih (h.visit hlog hopen hentry hfirst step.leafHash) hsteps]
      simp [Progress.visit, placedLeaves]

/-- A search of which only a part is replayed ends with its interval still open. -/
theorem replay_eq_stepsMissing (hlog : Ordered log) (h : Narrows log target progress)
    {part more : List ProofStep} (hmore : more ≠ [])
    (hsteps : ShownAt log (path log target progress.lo progress.hi) (part ++ more)) :
    replay target claimed progress part = .error (.pathInconsistent .stepsMissing) := by
  induction part generalizing progress with
  | nil =>
    rw [replay, unfinished, if_pos (lt_of_shownAt hsteps hmore)]
  | cons step part ih =>
    have hopen := lt_of_shownAt hsteps (List.cons_ne_nil _ _)
    obtain ⟨version, hentry⟩ := h.exists_entry hopen
    rw [path_of_lt hopen hentry step.leafHash, List.cons_append] at hsteps
    obtain ⟨⟨version', hentry', hstep⟩, hsteps⟩ := List.forall₂_cons.mp hsteps
    cases hentry.symm.trans hentry'
    rw [replay_cons_of_shows hopen hstep (h.checkOlder hlog hopen hentry)]
    by_cases hfirst : version = .first target
    · rw [if_pos hfirst] at hsteps
      have hnil := List.forall₂_nil_left_iff.mp hsteps
      exact absurd (List.append_eq_nil_iff.mp hnil).2 hmore
    · rw [if_neg hfirst] at hsteps ⊢
      exact ih (h.visit hlog hopen hentry hfirst step.leafHash) hsteps

theorem verify_append_of_shownAt (hlog : Ordered log) (hclaimed : claimed < log.length)
    {steps : List ProofStep} (hsteps : ShownAt log (path log target 0 log.length) steps)
    (more : List ProofStep) :
    verify (steps ++ more) target log.length claimed =
      conclusion log target claimed more.length
        (placedLeaves (path log target 0 log.length) steps) := by
  rw [verify, if_neg (Nat.not_le.mpr hclaimed)]
  exact replay_append_of_shownAt hlog (narrows_start log target) hsteps more

/-- The steps for a whole search that finds the identifier. -/
theorem verify_of_shownAt (hlog : Ordered log) {first : Nat}
    (hfirst : log.findIdx? (·.index = target) = some first) {steps : List ProofStep}
    (hsteps : ShownAt log (path log target 0 log.length) steps) :
    verify steps target log.length first =
      .ok ⟨first, steps.length - 1, placedLeaves (path log target 0 log.length) steps⟩ := by
  have hbound := (List.findIdx?_eq_some_iff_getElem.mp hfirst).1
  have hall := verify_append_of_shownAt hlog hbound hsteps []
  rw [List.append_nil, conclusion, hfirst] at hall
  rw [hall]
  simp [placedLeaves, hsteps.length_eq]

/-- The steps for a whole search of a log in order show where the identifier's first entry is, or
where it would be.  With fewer or more steps, or another position claimed, the search is
rejected. -/
theorem verify_path (hlog : Ordered log) (hclaimed : claimed < log.length)
    {steps : List ProofStep} (hsteps : ShownAt log (path log target 0 log.length) steps) :
    (∀ first, log.findIdx? (·.index = target) = some first →
        (claimed = first → verify steps target log.length claimed =
          .ok ⟨first, steps.length - 1, placedLeaves (path log target 0 log.length) steps⟩) ∧
        (claimed ≠ first → verify steps target log.length claimed =
          .error (.pathInconsistent (.endsElsewhere first claimed)))) ∧
      (log.findIdx? (·.index = target) = none → verify steps target log.length claimed =
        .error (.notFound (log.countP (·.index < target)))) ∧
      (∀ part, part <+: steps → part ≠ steps → ∃ fault,
        verify part target log.length claimed = .error (.pathInconsistent fault)) ∧
      (∀ more, more ≠ [] → ∃ fault,
        verify (steps ++ more) target log.length claimed = .error (.pathInconsistent fault)) := by
  have hall := verify_append_of_shownAt hlog hclaimed hsteps []
  rw [List.append_nil] at hall
  refine ⟨?_, ?_, ?_, ?_⟩
  · intro first hfirst
    constructor
    · rintro rfl
      exact verify_of_shownAt hlog hfirst hsteps
    · intro hne
      rw [hall, conclusion, hfirst]
      simp [Ne.symm hne]
  · intro hnone
    rw [hall, conclusion, hnone]
    rfl
  · rintro part ⟨more, rfl⟩ hne
    have hmore : more ≠ [] := by
      rintro rfl
      exact hne (List.append_nil part).symm
    refine ⟨.stepsMissing, ?_⟩
    rw [verify, if_neg (Nat.not_le.mpr hclaimed)]
    exact replay_eq_stepsMissing hlog (narrows_start log target) hmore hsteps
  · intro more hne
    have hlater := List.length_pos_iff.mpr hne
    rw [verify_append_of_shownAt hlog hclaimed hsteps more, conclusion]
    split
    · exact ⟨.stepsAfterEnd more.length, if_pos hlater⟩
    · exact ⟨.stepsAfterEmpty more.length, if_pos hlater⟩

end Search

namespace ThreeVersions

open Search

theorem path_high : path log high 0 log.length = [2, 1] := by
  rw [path, dif_pos (by decide)]
  change 2 :: path log high 0 2 = [2, 1]
  rw [path, dif_pos (by decide)]
  rfl

/-- A search visits the second version before the first one. -/
theorem verify_path_high :
    verify [step ⟨high, 1⟩, step ⟨high, 0⟩] high log.length 1 =
      .ok ⟨1, 1, [⟨2, (step ⟨high, 1⟩).leafHash⟩, ⟨1, (step ⟨high, 0⟩).leafHash⟩]⟩ := by
  have hsteps : ShownAt log (path log high 0 log.length) [step ⟨high, 1⟩, step ⟨high, 0⟩] := by
    rw [path_high]
    exact .cons ⟨_, rfl, shows_step _⟩ (.cons ⟨_, rfl, shows_step _⟩ .nil)
  have h := ((verify_path ordered_log (by decide) hsteps).1 1 (by decide)).1 rfl
  rw [path_high] at h
  exact h

end ThreeVersions

end KeyTransparency
