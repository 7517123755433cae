import KeyTransparency.Files.Directory
import KeyTransparency.Proofs.Files.Path

/-!
# Where paths lead

The parts of a path are followed one by one as long as they lead to directories, and the first that
does not is the name at which the path stops.  Which directories there are settles where a path
stops, and what is read at the path depends on the file of this name and on no other.  Making and
moving files leaves the directories as they are.
-/

namespace KeyTransparency

open KeyTransparency.Path (EndsIn IsName)

/-! ## Names of files -/

/-- The name is not that of a directory, which ends in a slash. -/
def NamesFile (name : String) : Prop := name.toList.getLast? ≠ some '/'

instance (name : String) : Decidable (NamesFile name) := inferInstanceAs (Decidable (_ ≠ _))

theorem Way.getLast?_text_inside (outer : Way) (name : String) :
    (outer.inside name).text.toList.getLast? = some '/' := by
  have hslash : "/".toList = ['/'] := rfl
  rw [text, String.toList_append, hslash, List.getLast?_concat]

theorem NamesFile.text_ne {name : String} (h : NamesFile name) (outer : Way) (inner : String) :
    (outer.inside inner).text ≠ name := by
  rintro rfl
  exact h (outer.getLast?_text_inside inner)

namespace Directory

variable {dir dir' : Directory} {path : String} {way inner : Way} {stop : Stop}
  {part : List Char} {ps before trailing : List (List Char)}

/-! ## Following the parts of a path -/

/-- The way that parts of a path lead to, if they all lead to directories. -/
def follow? (dir : Directory) (way : Way) (ps : List (List Char)) : Option Way :=
  ps.foldlM dir.enter? way

theorem isName_of_enter?_eq_none (h : dir.enter? way part = none) : IsName part := by
  rw [enter?] at h
  split at h
  · cases h
  · rename_i hmoves
    split at h
    · cases h
    · rename_i hdown
      exact ⟨Bool.eq_false_iff.mpr hmoves, Bool.eq_false_iff.mpr hdown⟩

theorem follow?_of_staysPut (h : ∀ part ∈ ps, Path.staysPut part) (dir : Directory) (way : Way) :
    dir.follow? way ps = some way := by
  induction ps with
  | nil => rfl
  | cons part rest ih =>
    obtain ⟨hpart, hrest⟩ := List.forall_mem_cons.mp h
    have henter : dir.enter? way part = some way := if_pos hpart
    rw [follow?, List.foldlM_cons, henter]
    exact ih hrest

theorem stopFrom?_append (h : dir.follow? way before = some inner) (rest : List (List Char)) :
    dir.stopFrom? way (before ++ rest) = dir.stopFrom? inner rest := by
  induction before generalizing way with
  | nil =>
    cases h
    rfl
  | cons part before ih =>
    rw [follow?, List.foldlM_cons] at h
    obtain ⟨next, henter, hrest⟩ := Option.bind_eq_some_iff.mp h
    rw [List.cons_append, stopFrom?, henter]
    exact ih hrest

theorem stopFrom?_eq_none (h : dir.follow? way ps = some inner) :
    dir.stopFrom? way ps = none := by
  have hstop := stopFrom?_append h []
  rwa [List.append_nil] at hstop

/-- The parts before the name at which they stop lead to directories, and the name does not. -/
theorem exists_of_stopFrom? (h : dir.stopFrom? way ps = some stop) :
    ∃ before, ps = before ++ stop.name :: stop.rest ∧
      dir.follow? way before = some stop.way ∧ dir.enter? stop.way stop.name = none := by
  induction ps generalizing way with
  | nil => cases h
  | cons part rest ih =>
    rw [stopFrom?] at h
    split at h
    · rename_i next henter
      obtain ⟨before, rfl, hfollow, hname⟩ := ih h
      refine ⟨part :: before, rfl, ?_, hname⟩
      rw [follow?, List.foldlM_cons, henter]
      exact hfollow
    · rename_i henter
      cases h
      exact ⟨[], rfl, rfl, henter⟩

theorem exists_of_stop? (h : dir.stop? path = some stop) :
    ¬Path.pathLimit < path.utf8ByteSize ∧
      ∃ before, Path.parts path.toList = before ++ stop.name :: stop.rest ∧
        dir.follow? (.start path) before = some stop.way ∧
        dir.enter? stop.way stop.name = none := by
  rw [stop?] at h
  split at h
  · cases h
  · rename_i hshort
    exact ⟨hshort, exists_of_stopFrom? h⟩

/-- Where the parts before the last name lead to a directory, the path stops at this name unless it
leads to a directory as well. -/
theorem stop?_eq_ite (hshort : ¬Path.pathLimit < path.utf8ByteSize)
    (hends : EndsIn (Path.parts path.toList) before part trailing)
    (hfollow : dir.follow? (.start path) before = some way) :
    dir.stop? path = if dir.enter? way part = none then some ⟨way, part, trailing⟩ else none := by
  rw [stop?, if_neg hshort, hends.parts_eq, stopFrom?_append hfollow, stopFrom?]
  cases dir.enter? way part with
  | none => rfl
  | some inner =>
    exact stopFrom?_eq_none (follow?_of_staysPut hends.staysPut dir inner)

theorem namesFile_of_stop? (h : dir.stop? path = some stop) : NamesFile stop.file := by
  obtain ⟨-, before, hparts, -, hname⟩ := exists_of_stop? h
  have hmem : stop.name ∈ Path.parts path.toList := hparts ▸ by simp
  have hslash := Path.slash_notMem_of_mem_parts hmem
  have hne : stop.name ≠ [] := (isName_of_enter?_eq_none hname).ne_nil
  intro hlast
  rw [Stop.file, String.toList_append, String.toList_ofList, List.getLast?_append,
    List.getLast?_eq_some_getLast hne, Option.some_or] at hlast
  exact hslash (Option.some.inj hlast ▸ List.getLast_mem hne)

/-- A path without slashes stops at its own name, if it stops. -/
theorem file_of_stop? (hslash : '/' ∉ path.toList) (h : dir.stop? path = some stop) :
    stop.file = path := by
  obtain ⟨-, before, hparts, hfollow, hname⟩ := exists_of_stop? h
  have hsingle := Path.parts_eq_singleton hslash
  obtain ⟨rfl, hlast⟩ : before = [] ∧ stop.name :: stop.rest = [path.toList] :=
    (List.singleton_eq_append_iff.mp (hsingle.symm.trans hparts)).resolve_right fun h => nomatch h.2
  have hrelative : ¬path.startsWith "/" := fun hstart =>
    nomatch (Path.startsWith_slash_iff hparts (isName_of_enter?_eq_none hname).ne_nil).mp hstart
  have hway : Way.above 0 = stop.way := by
    have hstart := Option.some.inj hfollow
    rwa [Way.start, if_neg hrelative] at hstart
  rw [Stop.file, ← hway, (List.cons.inj hlast).1, String.ofList_toList]
  exact String.empty_append

/-! ## The same directories -/

/-- The same directories are there. -/
def SameInside (dir dir' : Directory) : Prop :=
  ∀ way name, dir'.hasInside way name = dir.hasInside way name

theorem SameInside.trans {dir'' : Directory} (h : SameInside dir dir')
    (h' : SameInside dir' dir'') : SameInside dir dir'' := fun way name =>
  (h' way name).trans (h way name)

theorem SameInside.stop?_eq (h : SameInside dir dir') (path : String) :
    dir'.stop? path = dir.stop? path := by
  have henter (way : Way) (part : List Char) : dir'.enter? way part = dir.enter? way part := by
    rw [enter?, enter?, h]
  have hstop (ps : List (List Char)) (way : Way) :
      dir'.stopFrom? way ps = dir.stopFrom? way ps := by
    induction ps generalizing way with
    | nil => rfl
    | cons part rest ih =>
      rw [stopFrom?, stopFrom?, henter]
      split
      · exact ih _
      · rfl
  rw [stop?, stop?, hstop]

/-! ## Places -/

/-- A path leads to a file if it stops at the name of the file and does not go on. -/
theorem place_eq_file_iff {file : String} :
    dir.place path = .file file ↔
      ∃ stop, dir.stop? path = some stop ∧ Path.fits (String.ofList stop.name) ∧
        stop.rest = [] ∧ stop.file = file := by
  rw [place]
  cases hstop : dir.stop? path with
  | none => simp
  | some stop =>
    by_cases hfits : Path.fits (String.ofList stop.name)
    · by_cases hrest : stop.rest = []
      · simp [hfits, hrest]
      · by_cases hthere : (dir.find? stop.file).isSome
        · simp [hfits, hrest, hthere]
        · simp [hfits, hrest, hthere]
    · simp [hfits]

theorem SameInside.place_eq_file (h : SameInside dir dir') {file : String}
    (hplace : dir.place path = .file file) : dir'.place path = .file file := by
  rw [place_eq_file_iff] at hplace ⊢
  rwa [h.stop?_eq]

/-- What comes of reading a file that is there or not. -/
def readingOf : Option (Option String) → Reading
  | some (some content) => .text content
  | some none => .unreadable
  | none => .absent

theorem read_of_place {file : String} (h : dir.place path = .file file) :
    dir.read path = readingOf (dir.find? file) := by
  simp only [read, h]
  rcases dir.find? file with _ | _ | _ <;> rfl

theorem read_of_stop? (h : dir.stop? path = some stop)
    (hfits : Path.fits (String.ofList stop.name)) :
    dir.read path =
      if stop.rest = [] then readingOf (dir.find? stop.file)
      else if (dir.find? stop.file).isSome then .unreadable
      else .absent := by
  by_cases hrest : stop.rest = []
  · rw [if_pos hrest]
    exact read_of_place (place_eq_file_iff.mpr ⟨stop, h, hfits, hrest, rfl⟩)
  · by_cases hthere : (dir.find? stop.file).isSome
    · simp [read, place, h, hfits, hrest, hthere]
    · simp [read, place, h, hfits, hrest, hthere]

/-- What is read at a path depends on the file at whose name it stops, and on no other. -/
theorem read_eq_of_find?_eq (h : SameInside dir dir')
    (hfound : ∀ stop, dir.stop? path = some stop → dir'.find? stop.file = dir.find? stop.file) :
    dir'.read path = dir.read path := by
  have hplace : dir'.place path = dir.place path := by
    rw [place, place, h.stop?_eq]
    cases hstop : dir.stop? path with
    | none => rfl
    | some stop => simp only [hfound stop hstop]
  rw [read, read, hplace]
  cases hfile : dir.place path with
  | file file =>
    obtain ⟨stop, hstop, -, -, rfl⟩ := place_eq_file_iff.mp hfile
    simp only [hfound stop hstop]
  | noFile => rfl
  | nowhere => rfl

/-! ## Files that come and go -/

theorem lookup_cons_eq_ite (name : String) (file : String × Option String)
    (files : List (String × Option String)) :
    (file :: files).lookup name = if name = file.1 then some file.2 else files.lookup name := by
  rw [List.lookup_cons]
  cases hname : name == file.1 with
  | true => rw [if_pos (beq_iff_eq.mp hname)]
  | false => rw [if_neg (beq_eq_false_iff_ne.mp hname)]

theorem find?_erase (dir : Directory) (name other : String) :
    (dir.erase name).find? other = if other = name then none else dir.find? other := by
  unfold find? erase
  induction dir.files with
  | nil => simp
  | cons file files ih =>
    simp only at ih
    by_cases hname : file.1 = name
    · rw [List.filter_cons_of_neg (by simp [hname]), lookup_cons_eq_ite, ih, hname]
      split
      · rfl
      · rfl
    · rw [List.filter_cons_of_pos (by simp [hname]), lookup_cons_eq_ite, lookup_cons_eq_ite, ih]
      by_cases hfirst : other = file.1
      · rw [if_pos hfirst, if_pos hfirst, if_neg (hfirst ▸ hname)]
      · rw [if_neg hfirst, if_neg hfirst]

theorem find?_insert (dir : Directory) (name other : String) (content : Option String) :
    (dir.insert name content).find? other =
      if other = name then some content else dir.find? other := by
  have herase := find?_erase dir name other
  unfold find? at herase ⊢
  rw [insert, lookup_cons_eq_ite, herase]
  split
  · rfl
  · rfl

theorem sameInside_insert {name : String} (h : NamesFile name) (dir : Directory)
    (content : Option String) : SameInside dir (dir.insert name content) := by
  intro way inner
  rw [hasInside, find?_insert, if_neg (h.text_ne way inner)]
  rfl

theorem sameInside_erase {name : String} (h : NamesFile name) (dir : Directory) :
    SameInside dir (dir.erase name) := by
  intro way inner
  rw [hasInside, find?_erase, if_neg (h.text_ne way inner)]
  rfl

/-- A file does not change what is read at a path that does not stop at its name. -/
theorem read_insert {name : String} (hfile : NamesFile name) (content : Option String)
    (h : ∀ stop, dir.stop? path = some stop → stop.file ≠ name) :
    (dir.insert name content).read path = dir.read path :=
  read_eq_of_find?_eq (sameInside_insert hfile dir content) fun stop hstop => by
    rw [find?_insert, if_neg (h stop hstop)]

theorem read_insert_of_ne {name : String} (hslash : '/' ∉ path.toList) (hfile : NamesFile name)
    (hne : path ≠ name) (dir : Directory) (content : Option String) :
    (dir.insert name content).read path = dir.read path :=
  read_insert hfile content fun _ hstop hname => hne ((file_of_stop? hslash hstop).symm.trans hname)

end Directory

end KeyTransparency
