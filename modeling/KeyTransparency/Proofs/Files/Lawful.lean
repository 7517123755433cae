import KeyTransparency.Proofs.Files.Walk

/-!
# Files that can be relied on

What a program relies on when it reads and changes files: reading changes nothing, a change that
succeeds does what it says, and no change reaches files that are apart from those it names.  Only of
a change of name it is asked that it leaves its target as it was if it fails.  The model of a
directory has these properties.
-/

namespace KeyTransparency

/-- The paths that a change names. -/
def Change.paths : Change → List String
  | create path => [path]
  | append path _ => [path]
  | rename source target => [source, target]

namespace FileAccess

variable {σ : Type}

/-- What comes of reading at a path. -/
def readAt (files : FileAccess (StateM σ)) (s : σ) (path : String) : Reading :=
  ((files.read path).run s).1

/-- Whether a change succeeds. -/
def succeeds (files : FileAccess (StateM σ)) (s : σ) (change : Change) : Bool :=
  ((files.change change).run s).1

/-- The files after a change, or after the attempt to make it. -/
def after (files : FileAccess (StateM σ)) (s : σ) (change : Change) : σ :=
  ((files.change change).run s).2

/-- Files that can be relied on, where `Apart` says of two paths that they lead to different
files. -/
structure Lawful (files : FileAccess (StateM σ)) (Apart : String → String → Prop) : Prop where
  read_eq : ∀ path s, (files.read path).run s = (files.readAt s path, s)
  readAt_after : ∀ s change path, (∀ named ∈ change.paths, Apart path named) →
    files.readAt (files.after s change) path = files.readAt s path
  readAt_create : ∀ s path, files.succeeds s (.create path) →
    files.readAt (files.after s (.create path)) path = .text ""
  readAt_append : ∀ s path old text, files.readAt s path = .text old →
    files.succeeds s (.append path text) →
    files.readAt (files.after s (.append path text)) path = .text (old ++ text)
  readAt_rename : ∀ s source target content, files.readAt s source = .text content →
    files.succeeds s (.rename source target) →
    files.readAt (files.after s (.rename source target)) target = .text content
  readAt_rename_of_fails : ∀ s source target, files.succeeds s (.rename source target) = false →
    files.readAt (files.after s (.rename source target)) target = files.readAt s target

end FileAccess

/-! ## The model of a directory -/

namespace Directory

variable {dir dir' : Directory} {path : String}

/-- What happens at the second path does not concern the first: wherever the second leads to a file,
the first does not stop at its name. -/
def Apart (path path' : String) : Prop :=
  ∀ (dir : Directory) (file : String) (stop : Stop), dir.place path' = .file file →
    dir.stop? path = some stop → stop.file ≠ file

theorem apart_of_ne {path' : String} (hslash : '/' ∉ path.toList) (hslash' : '/' ∉ path'.toList)
    (hne : path ≠ path') : Apart path path' := by
  intro dir file stop hplace hstop
  obtain ⟨stop', hstop', -, -, rfl⟩ := place_eq_file_iff.mp hplace
  rwa [file_of_stop? hslash hstop, file_of_stop? hslash' hstop']

theorem namesFile_of_place {file : String} (h : dir.place path = .file file) : NamesFile file := by
  obtain ⟨stop, hstop, -, -, rfl⟩ := place_eq_file_iff.mp h
  exact namesFile_of_stop? hstop

/-! ### Changes -/

theorem run_change (dir : Directory) (change : Change) :
    (access.change change).run dir =
      ((dir.change? change).isSome, (dir.change? change).getD dir) := by
  cases hchange : dir.change? change with
  | none =>
    simp only [access, StateT.run_bind, StateT.run_get, pure_bind, hchange]
    rfl
  | some after =>
    simp only [access, StateT.run_bind, StateT.run_get, pure_bind, hchange]
    rfl

theorem after_eq (dir : Directory) (change : Change) :
    access.after dir change = (dir.change? change).getD dir :=
  congrArg Prod.snd (run_change dir change)

theorem exists_of_succeeds {change : Change} (h : access.succeeds dir change) :
    ∃ dir', dir.change? change = some dir' ∧ access.after dir change = dir' := by
  rw [FileAccess.succeeds, run_change, Option.isSome_iff_exists] at h
  obtain ⟨dir', hchange⟩ := h
  exact ⟨dir', hchange, by rw [after_eq, hchange, Option.getD_some]⟩

theorem exists_of_create (h : dir.change? (.create path) = some dir') :
    ∃ name, dir.place path = .file name ∧ dir' = dir.insert name (some "") := by
  rw [change?] at h
  split at h
  · rename_i name hplace
    cases h
    exact ⟨name, hplace, rfl⟩
  · cases h

theorem exists_of_append {text : String}
    (h : dir.change? (.append path text) = some dir') :
    ∃ name content, dir.place path = .file name ∧ dir.find? name = some content ∧
      dir' = dir.insert name (content.map (· ++ text)) := by
  rw [change?] at h
  split at h
  · rename_i name hplace
    obtain ⟨content, hfound, rfl⟩ := Option.map_eq_some_iff.mp h
    exact ⟨name, content, hplace, hfound, rfl⟩
  · cases h

theorem exists_of_rename {source target : String}
    (h : dir.change? (.rename source target) = some dir') :
    ∃ old new content, dir.place source = .file old ∧ dir.place target = .file new ∧
      dir.find? old = some content ∧ dir' = (dir.erase old).insert new content := by
  rw [change?] at h
  split at h
  · rename_i old new hold hnew
    obtain ⟨content, hfound, rfl⟩ := Option.map_eq_some_iff.mp h
    exact ⟨old, new, content, hold, hnew, hfound, rfl⟩
  · cases h

/-- A change leaves the files alone that it does not name. -/
theorem find?_of_change? {change : Change} (h : dir.change? change = some dir') {name : String}
    (hname : ∀ path ∈ change.paths, dir.place path ≠ .file name) :
    dir'.find? name = dir.find? name := by
  cases change with
  | create path =>
    obtain ⟨named, hplace, rfl⟩ := exists_of_create h
    have hne : name ≠ named := fun heq => hname path List.mem_cons_self (heq ▸ hplace)
    rw [find?_insert, if_neg hne]
  | append path text =>
    obtain ⟨named, content, hplace, -, rfl⟩ := exists_of_append h
    have hne : name ≠ named := fun heq => hname path List.mem_cons_self (heq ▸ hplace)
    rw [find?_insert, if_neg hne]
  | rename source target =>
    obtain ⟨old, new, content, hold, hnew, -, rfl⟩ := exists_of_rename h
    have hneOld : name ≠ old := fun heq => hname source List.mem_cons_self (heq ▸ hold)
    have hneNew : name ≠ new := fun heq =>
      hname target (List.mem_cons_of_mem _ List.mem_cons_self) (heq ▸ hnew)
    rw [find?_insert, if_neg hneNew, find?_erase, if_neg hneOld]

/-- A change makes no directory and takes none away. -/
theorem sameInside_of_change? {change : Change} (h : dir.change? change = some dir') :
    SameInside dir dir' := by
  cases change with
  | create path =>
    obtain ⟨name, hplace, rfl⟩ := exists_of_create h
    exact sameInside_insert (namesFile_of_place hplace) dir _
  | append path text =>
    obtain ⟨name, content, hplace, -, rfl⟩ := exists_of_append h
    exact sameInside_insert (namesFile_of_place hplace) dir _
  | rename source target =>
    obtain ⟨old, new, content, hold, hnew, -, rfl⟩ := exists_of_rename h
    exact (sameInside_erase (namesFile_of_place hold) dir).trans
      (sameInside_insert (namesFile_of_place hnew) _ _)

/-- After a change, what is read at a path that leads to a file is what the file holds. -/
theorem readAt_of_change? {change : Change} (h : dir.change? change = some dir') {file : String}
    (hplace : dir.place path = .file file) :
    access.readAt dir' path = readingOf (dir'.find? file) :=
  read_of_place ((sameInside_of_change? h).place_eq_file hplace)

theorem lawful_access : FileAccess.Lawful access Apart where
  read_eq path dir := rfl
  readAt_after dir change path hapart := by
    rw [after_eq]
    cases hchange : dir.change? change with
    | none => rfl
    | some dir' =>
      refine read_eq_of_find?_eq (sameInside_of_change? hchange) fun stop hstop => ?_
      refine find?_of_change? hchange fun named hnamed hplace => ?_
      exact hapart named hnamed dir _ stop hplace hstop rfl
  readAt_create dir path hsucceeds := by
    obtain ⟨dir', hchange, hafter⟩ := exists_of_succeeds hsucceeds
    obtain ⟨name, hplace, hdir⟩ := exists_of_create hchange
    rw [hafter, readAt_of_change? hchange hplace, hdir, find?_insert, if_pos rfl]
    rfl
  readAt_append dir path old text hread hsucceeds := by
    obtain ⟨dir', hchange, hafter⟩ := exists_of_succeeds hsucceeds
    obtain ⟨name, content, hplace, hfound, hdir⟩ := exists_of_append hchange
    have hold : readingOf (some content) = .text old :=
      hfound ▸ (read_of_place hplace).symm.trans hread
    rw [hafter, readAt_of_change? hchange hplace, hdir, find?_insert, if_pos rfl]
    cases content with
    | none => cases hold
    | some content =>
      cases hold
      rfl
  readAt_rename dir source target content hread hsucceeds := by
    obtain ⟨dir', hchange, hafter⟩ := exists_of_succeeds hsucceeds
    obtain ⟨old, new, given, hold, hnew, hfound, hdir⟩ := exists_of_rename hchange
    rw [hafter, readAt_of_change? hchange hnew, hdir, find?_insert, if_pos rfl]
    exact hfound ▸ (read_of_place hold).symm.trans hread
  readAt_rename_of_fails dir source target hfails := by
    rw [FileAccess.succeeds, run_change, Option.isSome_eq_false_iff, Option.isNone_iff_eq_none]
      at hfails
    rw [after_eq, hfails, Option.getD_none]

end Directory

end KeyTransparency
