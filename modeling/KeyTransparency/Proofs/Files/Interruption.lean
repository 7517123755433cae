import KeyTransparency.Octets
import KeyTransparency.Proofs.Files.Remembered

/-!
# Saving that is cut off

New contents are written at the temporary path before they replace the old ones.  If this is cut off
at any point, the path is left with the old contents or with all of the new ones, unless the name at
its end has the extension of temporary paths already.  Then the temporary path leads to the same
name, and the old contents are gone as soon as the new ones begin to be written.
-/

namespace KeyTransparency

namespace Directory

open LastSeen (makeAll writing replacing temporaryPath save)
open KeyTransparency.Path (EndsIn IsName)

variable {dir left : Directory} {path file : String} {seen : LastSeen}

/-! ## Where temporary paths lead -/

/-- The name that stands at the end of the temporary path instead of another. -/
def temporaryName (name : List Char) : List Char := Path.stem name ++ ".tmp".toList

theorem temporaryName_append {stem : List Char} (h : stem ≠ []) :
    temporaryName (stem ++ ".tmp".toList) = stem ++ ".tmp".toList := by
  have hdot : ".tmp".toList = '.' :: "tmp".toList := by decide
  rw [temporaryName, hdot, Path.stem_append (by decide) h]

/-- The name at the end of a path has the extension of temporary paths, and where the directories on
the way are there, a file can be made at its temporary path. -/
structure OwnTemporary (path : String) : Prop where
  short : ¬Path.pathLimit < path.utf8ByteSize
  leadsTo : ∃ (dir : Directory) (file : String), dir.place (temporaryPath path) = .file file
  endsIn : ∃ before stem trailing, stem ≠ [] ∧
    EndsIn (Path.parts path.toList) before (stem ++ ".tmp".toList) trailing

/-- The temporary path leads to a file with the temporary name in the place of the name. -/
theorem exists_of_place_temporaryPath (h : dir.place (temporaryPath path) = .file file) :
    ∃ before name trailing way, EndsIn (Path.parts path.toList) before name trailing ∧
      dir.follow? (.start path) before = some way ∧
      Path.fits (String.ofList (temporaryName name)) ∧
      dir.enter? way (temporaryName name) = none ∧
      file = way.text ++ String.ofList (temporaryName name) := by
  obtain ⟨⟨way, last, rest⟩, hstop, hfits, rfl, rfl⟩ := place_eq_file_iff.mp h
  obtain ⟨-, before, hparts, hfollow, hlast⟩ := exists_of_stop? hstop
  have hlastName : IsName last := isName_of_enter?_eq_none hlast
  obtain ⟨given, name, trailing, hends, hchanged⟩ | hnone :=
    Path.parts_withExtension path "tmp" (by decide)
  · have hdot : '.' :: "tmp".toList = ".tmp".toList := by decide
    obtain ⟨rfl, heq⟩ := List.append_inj' (hparts.symm.trans hchanged) rfl
    obtain rfl : last = temporaryName name := (List.cons.inj heq).1.trans (by rw [hdot]; rfl)
    have hstart : Way.start (temporaryPath path) = Way.start path := by
      have hslash : (temporaryPath path).startsWith "/" = path.startsWith "/" :=
        Bool.eq_iff_iff.mpr ((Path.startsWith_slash_iff hparts hlastName.ne_nil).trans
          (Path.startsWith_slash_iff hends.parts_eq hends.isName.ne_nil).symm)
      rw [Way.start, Way.start, hslash]
    exact ⟨before, name, trailing, way, hends, hstart ▸ hfollow, hfits, hlast, rfl⟩
  · exact absurd hlastName (hnone before last hparts)

/-- Unless the name at the end of a path has the extension of temporary paths, what happens at the
temporary path does not concern the path. -/
theorem apart_temporaryPath (h : ¬OwnTemporary path) : Apart path (temporaryPath path) := by
  intro dir file stop hplace hstop hsame
  obtain ⟨before, name, trailing, way, hends, hfollow, -, -, rfl⟩ :=
    exists_of_place_temporaryPath hplace
  have hshort := (exists_of_stop? hstop).1
  rw [stop?_eq_ite hshort hends hfollow] at hstop
  split at hstop
  · cases hstop
    have hname : name = temporaryName name :=
      String.ofList_inj.mp ((String.append_right_inj _).mp hsame)
    have hown : EndsIn (Path.parts path.toList) before (temporaryName name) trailing :=
      (congrArg (EndsIn (Path.parts path.toList) before · trailing) hname).mp hends
    exact h ⟨hshort, ⟨dir, _, hplace⟩, before, Path.stem name, trailing,
      Path.stem_ne_nil hends.isName.ne_nil, hown⟩
  · cases hstop

/-- A file at the temporary path does not change what is read at the path, unless the name at its
end has the extension of temporary paths. -/
theorem read_insert_temporary (h : ¬OwnTemporary path)
    (hplace : dir.place (temporaryPath path) = .file file) (content : Option String) :
    (dir.insert file content).read path = dir.read path :=
  read_insert (namesFile_of_place hplace) content fun stop =>
    apart_temporaryPath h dir file stop hplace

/-- Where a path has the extension of temporary paths, what is read at it changes as soon as there
is a file at its temporary path. -/
theorem exists_of_ownTemporary (h : OwnTemporary path) :
    ∃ (dir : Directory) (file : String), dir.place (temporaryPath path) = .file file ∧
      dir.read path = .absent ∧
      ∀ content, (dir.insert file (some content)).read path = .text content ∨
        (dir.insert file (some content)).read path = .unreadable := by
  obtain ⟨hshort, ⟨found, file, hplace⟩, given, stem, following, hstem, hgiven⟩ := h
  obtain ⟨before, name, trailing, way, hends, hfollow, hfits, henter, hfile⟩ :=
    exists_of_place_temporaryPath hplace
  obtain ⟨rfl, rfl⟩ := hgiven.unique hends
  rw [temporaryName_append hstem] at hfits henter hfile
  have hstop : found.stop? path = some ⟨way, stem ++ ".tmp".toList, trailing⟩ := by
    rw [stop?_eq_ite hshort hends hfollow, if_pos henter]
  have hnames := namesFile_of_place hplace
  have hread (dir : Directory) (hsame : SameInside found dir) :=
    read_of_stop? ((hsame.stop?_eq path).trans hstop) hfits
  simp only [Stop.file, ← hfile] at hread
  have hgone := sameInside_erase hnames found
  refine ⟨found.erase file, file, hgone.place_eq_file hplace, ?_, fun content => ?_⟩
  · rw [hread _ hgone, find?_erase, if_pos rfl]
    split
    · rfl
    · rfl
  · rw [hread _ (hgone.trans (sameInside_insert hnames _ _)), find?_insert, if_pos rfl]
    split
    · exact .inl rfl
    · exact .inr rfl

/-! ## Points at which saving may be cut off -/

/-- The text that bytes are, if they are one. -/
def textOf? (bytes : Bytes) : Option String := String.fromUTF8? ⟨bytes.toArray⟩

theorem textOf?_utf8 (text : String) : textOf? (utf8 text) = some text := by
  simp [textOf?, utf8, String.fromUTF8?, String.fromUTF8, text.isValidUTF8]

/-- The files that are left before the new contents take the place of the old ones. -/
inductive Unreplaced (dir : Directory) (path : String) (seen : LastSeen) : Directory → Prop
  | untouched : Unreplaced dir path seen dir
  /-- A file has been made, and the first bytes of the new contents have been written to it. -/
  | unfinished {file : String} {written rest : Bytes}
      (hplace : dir.place (temporaryPath path) = .file file)
      (htext : utf8 (Wire.prettyText seen) = written ++ rest) :
      Unreplaced dir path seen (dir.insert file (textOf? written))

/-- The files that are left if saving is cut off, or not. -/
def CutOff (dir : Directory) (path : String) (seen : LastSeen) (left : Directory) : Prop :=
  Unreplaced dir path seen left ∨ left = ((save access path seen).run dir).2

/-- Wherever saving is cut off, the path holds what it held, or all of the new contents. -/
def CrashSafe (path : String) : Prop :=
  ∀ dir seen left, CutOff dir path seen left →
    left.read path = dir.read path ∨ left.read path = .text (Wire.prettyText seen)

theorem insert_insert (dir : Directory) (name : String) (first second : Option String) :
    (dir.insert name first).insert name second = dir.insert name second := by
  simp [insert, erase]

theorem succeeds_eq (dir : Directory) (change : Change) :
    access.succeeds dir change = (dir.change? change).isSome :=
  congrArg Prod.fst (run_change dir change)

/-- Making the temporary file and writing to it leaves the old contents in their place. -/
theorem Unreplaced.of_writing {done : Bool}
    (h : (makeAll access (writing path seen)).run dir = (done, left)) :
    Unreplaced dir path seen left := by
  rw [writing, LastSeen.run_makeAll_cons, LastSeen.run_makeAll_cons, succeeds_eq, after_eq] at h
  cases hcreate : dir.change? (.create (temporaryPath path)) with
  | none =>
    rw [hcreate, if_neg (by decide)] at h
    cases h
    exact .untouched
  | some created =>
    obtain ⟨file, hplace, rfl⟩ := exists_of_create hcreate
    have hcreated : (dir.insert file (some "")).place (temporaryPath path) = .file file :=
      (sameInside_of_change? hcreate).place_eq_file hplace
    have happend : (dir.insert file (some "")).change?
        (.append (temporaryPath path) (Wire.prettyText seen)) =
          some (dir.insert file (some (Wire.prettyText seen))) := by
      simp [change?, hcreated, find?_insert, insert_insert]
    have hwritten : Unreplaced dir path seen (dir.insert file (some (Wire.prettyText seen))) :=
      textOf?_utf8 (Wire.prettyText seen) ▸ .unfinished hplace (List.append_nil _).symm
    rw [hcreate, if_pos Option.isSome_some, Option.getD_some, succeeds_eq, after_eq, happend,
      if_pos Option.isSome_some] at h
    cases h
    exact hwritten

theorem Unreplaced.of_save_eq_error {fault : LastSeen.SaveFault}
    (h : (save access path seen).run dir = (.error fault, left)) :
    Unreplaced dir path seen left := by
  rw [LastSeen.run_save] at h
  split at h
  · rename_i unwritten hunwritten
    cases h
    exact .of_writing hunwritten
  · rename_i written hwritten
    split at h
    · cases h
    · rename_i hfails
      cases h
      have hnone : written.change? (replacing path) = none := by
        rwa [succeeds_eq, Bool.not_eq_true, Option.isSome_eq_false_iff,
          Option.isNone_iff_eq_none] at hfails
      rw [after_eq, hnone]
      exact .of_writing hwritten

theorem Unreplaced.read_eq (h : ¬OwnTemporary path) (hleft : Unreplaced dir path seen left) :
    left.read path = dir.read path := by
  cases hleft with
  | untouched => rfl
  | unfinished hplace htext => exact read_insert_temporary h hplace _

/-- Saving is crash safe at every path but those whose name has the extension of temporary paths
already. -/
theorem crashSafe_iff (path : String) : CrashSafe path ↔ ¬OwnTemporary path := by
  constructor
  · intro hsafe hown
    obtain ⟨dir, file, hplace, habsent, hread⟩ := exists_of_ownTemporary hown
    have hcreated : Unreplaced dir path .empty (dir.insert file (some "")) :=
      .unfinished hplace (List.nil_append _).symm
    have hnew : "" ≠ Wire.prettyText LastSeen.empty := by decide
    have hleft := hsafe dir .empty _ (.inl hcreated)
    rw [habsent] at hleft
    obtain hempty | hunreadable := hread ""
    · rw [hempty] at hleft
      exact hleft.elim (fun h => nomatch h) fun h => hnew (Reading.text.inj h)
    · rw [hunreadable] at hleft
      exact hleft.elim (fun h => nomatch h) fun h => nomatch h
  · intro hown dir seen left hleft
    obtain hunreplaced | rfl := hleft
    · exact .inl (hunreplaced.read_eq hown)
    · cases hsave : (save access path seen).run dir with
      | mk result left =>
        cases result with
        | ok done => exact .inr (LastSeen.readAt_of_save_eq_ok lawful_access hsave)
        | error fault => exact .inl ((Unreplaced.of_save_eq_error hsave).read_eq hown)

/-- It is not crash safe at such paths in other directories either. -/
example : OwnTemporary "/var/lib/kt/state.tmp" where
  short := by decide
  leadsTo := ⟨⟨[("/var/", none), ("/var/lib/", none), ("/var/lib/kt/", none)]⟩,
    "/var/lib/kt/state.tmp", by decide +kernel⟩
  endsIn := ⟨[[], "var".toList, "lib".toList, "kt".toList], "state".toList, [], by decide,
    ⟨by decide, ⟨by decide, by decide⟩, nofun⟩⟩

/-- A directory with a state at a path that has the extension of temporary paths. -/
def keptAtTemporary : Directory := ⟨[("kt-state.tmp", some (Wire.prettyText LastSeen.empty))]⟩

/-- The state at `kt-state.tmp` is gone if saving is cut off before anything is written. -/
theorem not_forall_crashSafe : ¬∀ path, CrashSafe path := by
  intro h
  have hplace : keptAtTemporary.place (temporaryPath "kt-state.tmp") = .file "kt-state.tmp" := by
    decide +kernel
  have hcreated : Unreplaced keptAtTemporary "kt-state.tmp" .empty
      (keptAtTemporary.insert "kt-state.tmp" (some "")) :=
    .unfinished hplace (List.nil_append _).symm
  have hold : keptAtTemporary.read "kt-state.tmp" = .text (Wire.prettyText LastSeen.empty) := by
    decide +kernel
  have hleft :
      (keptAtTemporary.insert "kt-state.tmp" (some "")).read "kt-state.tmp" = .text "" := by
    decide +kernel
  have hlost : Reading.text "" ≠ .text (Wire.prettyText LastSeen.empty) := by decide
  have hkept := h "kt-state.tmp" keptAtTemporary .empty _ (.inl hcreated)
  rw [hold, hleft] at hkept
  exact hkept.elim hlost hlost

end Directory

end KeyTransparency
