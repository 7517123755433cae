import KeyTransparency.Proofs.Search.Trace
import Mathlib.Data.List.Forall2

/-!
# Logs in order

An honest log is sorted by index, and the versions of one identifier follow each other with
increasing counters that start at zero.  Put shortly, its entries are sorted by index and counter,
and with a version of an identifier it holds the first one.  The beginnings of such a log are in
order as well.
-/

namespace KeyTransparency

open KeyTransparency.Tree (PlacedLeaf)

/-- What the order of a log goes by: whose entry it is, and which of the versions. -/
structure Version where
  index : CommitmentIndex
  counter : UInt32
deriving DecidableEq

namespace Version

/-- Versions are sorted by index, and those of one identifier by counter. -/
instance : LT Version :=
  ⟨fun a b => a.index < b.index ∨ a.index = b.index ∧ a.counter < b.counter⟩

instance (a b : Version) : Decidable (a < b) :=
  inferInstanceAs (Decidable (a.index < b.index ∨ a.index = b.index ∧ a.counter < b.counter))

def first (index : CommitmentIndex) : Version := ⟨index, 0⟩

variable {a b c version : Version} {target : CommitmentIndex}

theorem lt_irrefl (a : Version) : ¬a < a := by
  rintro (hindex | ⟨-, hcounter⟩)
  · exact CommitmentIndex.not_lt_self a.index hindex
  · exact UInt32.lt_irrefl a.counter hcounter

theorem lt_trans (hab : a < b) (hbc : b < c) : a < c := by
  rcases hab with hab | ⟨hab, hcounter⟩
  · refine .inl (CommitmentIndex.lt_of_lt_of_not_lt hab ?_)
    rcases hbc with hbc | ⟨hbc, -⟩
    · exact CommitmentIndex.not_lt_of_lt hbc
    · rw [hbc]
      exact CommitmentIndex.not_lt_self c.index
  · rcases hbc with hbc | ⟨hbc, hcounter'⟩
    · exact .inl (hab ▸ hbc)
    · exact .inr ⟨hab.trans hbc, UInt32.lt_trans hcounter hcounter'⟩

theorem index_not_lt (h : a < b) : ¬b.index < a.index := by
  rcases h with h | ⟨h, -⟩
  · exact CommitmentIndex.not_lt_of_lt h
  · rw [h]
    exact CommitmentIndex.not_lt_self b.index

theorem counter_lt (h : a < b) (hindex : a.index = b.index) : a.counter < b.counter := by
  rcases h with h | ⟨-, h⟩
  · exact absurd (hindex ▸ h) (CommitmentIndex.not_lt_self b.index)
  · exact h

/-- Only the entries of smaller indexes come before a first version. -/
theorem lt_first_iff : version < first target ↔ version.index < target := by
  constructor
  · rintro (h | ⟨-, h⟩)
    · exact h
    · exact absurd h (UInt32.not_lt.mpr (UInt32.zero_le))
  · exact .inl

theorem first_lt_of_not_lt (hbefore : ¬version.index < target) (hne : version ≠ first target) :
    first target < version := by
  by_cases hafter : target < version.index
  · exact .inl hafter
  · have hindex := CommitmentIndex.eq_of_not_lt_of_not_lt hafter hbefore
    refine .inr ⟨hindex, UInt32.pos_iff_ne_zero.mpr ?_⟩
    intro hcounter
    apply hne
    cases version
    simp_all [first]

end Version

/-- A log is sorted, and with a version of an identifier it holds the first one. -/
structure Ordered (log : List Version) : Prop where
  sorted : log.Pairwise (· < ·)
  first_mem : ∀ version ∈ log, Version.first version.index ∈ log

namespace Ordered

variable {log : List Version}

theorem lt_of_lt (h : Ordered log) {i j : Nat} {a b : Version} (hi : log[i]? = some a)
    (hj : log[j]? = some b) (hij : i < j) : a < b := by
  obtain ⟨hiLog, rfl⟩ := List.getElem?_eq_some_iff.mp hi
  obtain ⟨hjLog, rfl⟩ := List.getElem?_eq_some_iff.mp hj
  exact List.pairwise_iff_getElem.mp h.sorted i j hiLog hjLog hij

theorem lt_of_getElem?_lt (h : Ordered log) {i j : Nat} {a b : Version} (hi : log[i]? = some a)
    (hj : log[j]? = some b) (hab : a < b) : i < j := by
  by_contra hle
  rcases Nat.lt_or_eq_of_le (Nat.le_of_not_lt hle) with hji | rfl
  · exact Version.lt_irrefl a (Version.lt_trans hab (h.lt_of_lt hj hi hji))
  · cases hi.symm.trans hj
    exact Version.lt_irrefl a hab

/-- A beginning of a log in order is in order: a first version comes before all others of its
identifier. -/
theorem take (h : Ordered log) (size : Nat) : Ordered (log.take size) where
  sorted := h.sorted.sublist (List.take_sublist size log)
  first_mem := by
    intro version hversion
    obtain ⟨i, hi⟩ := List.mem_iff_getElem?.mp hversion
    have hbound : i < size := by
      by_contra hle
      rw [List.getElem?_take_eq_none (Nat.le_of_not_lt hle)] at hi
      cases hi
    rw [List.getElem?_take_of_lt hbound] at hi
    obtain ⟨j, hj⟩ := List.mem_iff_getElem?.mp (h.first_mem version (List.mem_of_getElem? hi))
    have hji : j ≤ i := by
      by_contra hlt
      have hcounter := Version.counter_lt (h.lt_of_lt hi hj (Nat.lt_of_not_le hlt)) rfl
      exact UInt32.not_lt.mpr UInt32.zero_le hcounter
    refine List.mem_iff_getElem?.mpr ⟨j, ?_⟩
    rw [List.getElem?_take_of_lt (Nat.lt_of_le_of_lt hji hbound), hj]

end Ordered

namespace ProofStep

/-- A step shows an entry: it carries the entry's index and counter, and its copath is no longer
than the deepest prefix tree. -/
structure Shows (step : ProofStep) (version : Version) : Prop where
  index_eq : step.index = version.index
  counter_eq : step.counter = version.counter
  length_copath_le : step.prefixProof.copath.length ≤ PrefixTree.maxDepth

/-- The leaf of the log for the entry that a step shows. -/
def leafHash (step : ProofStep) : Hash := entryLeafHash step.prefixRoot step.commitment

theorem Shows.leaf_none {step : ProofStep} {version : Version} (h : step.Shows version) :
    step.leaf none = .ok step.leafHash := by
  refine bind_eq_ok_iff.mpr ⟨step.prefixRoot, ?_, rfl⟩
  exact refuse_eq_ok_iff.mpr ⟨Nat.not_lt.mpr h.length_copath_le, rfl⟩

end ProofStep

/-- Steps that show the entries of a log at some positions, one after the other. -/
def ShownAt (log : List Version) : List Nat → List ProofStep → Prop :=
  List.Forall₂ fun position step => ∃ version, log[position]? = some version ∧ step.Shows version

/-- The leaves that steps imply at the positions they are for. -/
def placedLeaves (positions : List Nat) (steps : List ProofStep) : List PlacedLeaf :=
  List.zipWith (fun position step => ⟨position, step.leafHash⟩) positions steps

theorem ShownAt.map_position {log : List Version} {positions : List Nat} {steps : List ProofStep}
    (h : ShownAt log positions steps) :
    (placedLeaves positions steps).map (·.position) = positions := by
  induction h with
  | nil => rfl
  | cons _ _ ih => exact congrArg _ ih

theorem ShownAt.exists_step {log : List Version} {positions : List Nat} {steps : List ProofStep}
    (h : ShownAt log positions steps) {position : Nat} (hposition : position ∈ positions) :
    ∃ step ∈ steps, ∃ version, log[position]? = some version ∧ step.Shows version := by
  induction h with
  | nil => cases hposition
  | cons hfirst _ ih =>
    rcases List.mem_cons.mp hposition with rfl | hlater
    · exact ⟨_, List.mem_cons_self, hfirst⟩
    · obtain ⟨step, hstep, hshown⟩ := ih hlater
      exact ⟨step, List.mem_cons_of_mem _ hstep, hshown⟩

theorem ShownAt.exists_position {log : List Version} {positions : List Nat}
    {steps : List ProofStep} (h : ShownAt log positions steps) {step : ProofStep}
    (hstep : step ∈ steps) :
    ∃ position ∈ positions, ∃ version, log[position]? = some version ∧ step.Shows version := by
  induction h with
  | nil => cases hstep
  | cons hfirst _ ih =>
    rcases List.mem_cons.mp hstep with rfl | hlater
    · exact ⟨_, List.mem_cons_self, hfirst⟩
    · obtain ⟨position, hposition, hshown⟩ := ih hlater
      exact ⟨position, List.mem_cons_of_mem _ hposition, hshown⟩

/-! ## A log with several versions of an identifier -/

namespace ThreeVersions

def low : CommitmentIndex := ⟨.replicate 32 0x00⟩

def high : CommitmentIndex := ⟨.replicate 32 0xff⟩

def log : List Version := [⟨low, 0⟩, ⟨high, 0⟩, ⟨high, 1⟩, ⟨high, 2⟩]

def step (version : Version) : ProofStep :=
  ⟨version.index, ⟨[], version.counter⟩, ⟨.replicate 32 0x01⟩⟩

theorem ordered_log : Ordered log := ⟨by decide, by decide⟩

theorem shows_step (version : Version) : (step version).Shows version :=
  ⟨rfl, rfl, Nat.zero_le _⟩

end ThreeVersions

end KeyTransparency
