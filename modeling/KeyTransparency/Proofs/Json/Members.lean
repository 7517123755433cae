import KeyTransparency.Json.Reader
import Mathlib.Data.Option.Basic

/-!
# Repeated members

A text that is read plainly may give an object several members with one name.  The object that is
read has one member for each name, with the value of the last of them.
-/

namespace KeyTransparency.Json

variable {members : List (Option String × Json)} {name : Option String}
  {json value : Json}

/-- The value of the last member with a name, if there is one. -/
def lastValue? (members : List (Option String × Json)) (name : String) : Option Json :=
  members.reverse.lookup (some name)

theorem mem_map_collapseMembers :
    name ∈ (collapseMembers members).map (·.1) ↔ name ∈ members.map (·.1) := by
  induction members with
  | nil => rfl
  | cons member rest ih =>
    obtain ⟨first, value⟩ := member
    rw [collapseMembers]
    split
    · rename_i hagain
      have hmem : first ∈ rest.map (·.1) := by
        obtain ⟨later, hlater, heq⟩ := List.any_eq_true.mp hagain
        exact eq_of_beq heq ▸ List.mem_map_of_mem hlater
      rw [ih, List.map_cons, List.mem_cons, or_iff_right_of_imp]
      rintro rfl
      exact hmem
    · rw [List.map_cons, List.map_cons, List.mem_cons, List.mem_cons, ih]

theorem forall_collapseMembers_iff {p : Option String → Prop} :
    (∀ member ∈ collapseMembers members, p member.1) ↔ ∀ member ∈ members, p member.1 := by
  refine List.forall_mem_map.symm.trans (Iff.trans ?_ List.forall_mem_map)
  exact forall_congr' fun _ => imp_congr_left mem_map_collapseMembers

theorem nodup_collapseMembers (members : List (Option String × Json)) :
    ((collapseMembers members).map (·.1)).Nodup := by
  induction members with
  | nil => exact List.nodup_nil
  | cons member rest ih =>
    obtain ⟨first, value⟩ := member
    rw [collapseMembers]
    split
    · exact ih
    · rename_i honce
      refine List.nodup_cons.mpr ⟨fun hmem => honce ?_, ih⟩
      obtain ⟨later, hlater, heq⟩ := List.mem_map.mp (mem_map_collapseMembers.mp hmem)
      exact List.any_eq_true.mpr ⟨later, hlater, beq_iff_eq.mpr heq⟩

/-- The member that is kept is the last one with its name. -/
theorem lookup_collapseMembers (members : List (Option String × Json)) (name : Option String) :
    (collapseMembers members).lookup name = (members.reverse.lookup name).map collapse := by
  induction members with
  | nil => rfl
  | cons member rest ih =>
    obtain ⟨first, value⟩ := member
    rw [collapseMembers, List.reverse_cons, List.lookup_append]
    split
    · rename_i hagain
      rw [ih]
      cases hlater : rest.reverse.lookup name with
      | some later => rfl
      | none =>
        obtain ⟨later, hmem, heq⟩ := List.any_eq_true.mp hagain
        have hne : name ≠ first := by
          rintro rfl
          have hnone := List.lookup_eq_none_iff.mp hlater later (List.mem_reverse.mpr hmem)
          exact absurd (eq_of_beq heq) (bne_iff_ne.mp hnone).symm
        rw [List.lookup_cons, beq_false_of_ne hne]
        rfl
    · rename_i honce
      rw [List.lookup_cons]
      by_cases hname : name = first
      · have hlater : rest.reverse.lookup name = none := by
          refine List.lookup_eq_none_iff.mpr fun later hmem => bne_iff_ne.mpr fun heq => honce ?_
          exact List.any_eq_true.mpr
            ⟨later, List.mem_reverse.mp hmem, beq_iff_eq.mpr (heq.symm.trans hname)⟩
        rw [hlater, hname, beq_self_eq_true, Option.none_or, List.lookup_cons_self]
        rfl
      · rw [beq_false_of_ne hname, ih, List.lookup_cons, beq_false_of_ne hname]
        simp

/-- Where no name occurs twice, a member is found by its name. -/
theorem lookup_eq_some_iff_mem {α β : Type} [BEq α] [LawfulBEq α] {entries : List (α × β)}
    {key : α} {value : β} (h : (entries.map (·.1)).Nodup) :
    entries.lookup key = some value ↔ (key, value) ∈ entries := by
  induction entries with
  | nil => simp
  | cons entry rest ih =>
    obtain ⟨first, given⟩ := entry
    obtain ⟨hfirst, hrest⟩ := List.nodup_cons.mp h
    rw [List.lookup_cons, List.mem_cons, Prod.mk.injEq]
    by_cases hkey : key = first
    · subst hkey
      have hnot : (key, value) ∉ rest := fun hmem =>
        hfirst (List.mem_map_of_mem (f := (·.1)) hmem)
      rw [beq_self_eq_true]
      simp [hnot, eq_comm]
    · rw [beq_false_of_ne hkey]
      simp [hkey, ih hrest]

/-- The value is a text or a number. -/
def IsScalar : Json → Prop
  | .string _ => True
  | .number _ => True
  | _ => False

theorem collapse_eq_iff (h : json.IsScalar) : value.collapse = json ↔ value = json := by
  cases json with
  | string text => cases value <;> simp [collapse]
  | number numeral => cases value <;> simp [collapse]
  | _ => contradiction

theorem map_collapse_eq_iff {found wanted : Option Json} (h : ∀ json ∈ wanted, json.IsScalar) :
    found.map collapse = wanted ↔ found = wanted := by
  cases wanted with
  | none => exact Option.map_eq_none_iff
  | some json =>
    cases found with
    | none => simp
    | some value => simp [collapse_eq_iff (h json rfl)]

/-- The text spells the value, with all members that it gives to objects, and every part of it can
be read plainly. -/
def IsPlainText (text : String) (value : Json) : Prop :=
  ∃ tokens, tokens? text = some tokens ∧ build none [] tokens = some value ∧
    (∀ token ∈ tokens, token.isPlain) ∧ nesting 0 tokens ≤ plainNesting

theorem readPlain?_eq_some_iff {text : String} :
    readPlain? text = some json ↔ ∃ value, IsPlainText text value ∧ value.collapse = json := by
  simp only [readPlain?, IsPlainText, Option.bind_eq_bind, Option.bind_eq_some_iff,
    Option.guard_eq_some', List.all_eq_true]
  constructor
  · rintro ⟨tokens, htokens, -, hplain, -, hnesting, value, hvalue, hjson⟩
    exact ⟨value, ⟨tokens, htokens, hvalue, hplain, hnesting⟩, Option.some.inj hjson⟩
  · rintro ⟨value, ⟨tokens, htokens, hvalue, hplain, hnesting⟩, hjson⟩
    exact ⟨tokens, htokens, (), hplain, (), hnesting, value, hvalue, congrArg some hjson⟩

end KeyTransparency.Json
