import KeyTransparency.Files.Remembered
import KeyTransparency.Proofs.Files.Lawful
import KeyTransparency.Proofs.Wire.Head

/-!
# What a client remembers is kept in its file

New contents are written to another file first, so the file of what a client remembers changes only
when this file takes its name.  If that succeeds, the new contents are read back from it, and
otherwise the old ones are.
-/

namespace KeyTransparency.LastSeen

variable {σ : Type} {files : FileAccess (StateM σ)} {Apart : String → String → Prop}
  {path : String} {seen : LastSeen} {s s' : σ}

/-- What a client remembers is read back from the text that is written for it. -/
theorem ofReading_prettyText (seen : LastSeen) :
    ofReading (.text (Wire.prettyText seen)) = .ok seen := by
  rw [ofReading, Wire.ofText?_prettyText]

/-! ## Changes one after the other -/

theorem run_makeAll_cons (files : FileAccess (StateM σ)) (change : Change) (rest : List Change)
    (s : σ) :
    (makeAll files (change :: rest)).run s =
      if files.succeeds s change then (makeAll files rest).run (files.after s change)
      else (false, files.after s change) := by
  rw [makeAll, StateT.run_bind]
  change ((if files.succeeds s change then makeAll files rest else pure false :
    StateM σ Bool).run (files.after s change)) = _
  split
  · rfl
  · rfl

theorem readAt_makeAll (hfiles : files.Lawful Apart) {changes : List Change} {other : String}
    (hapart : ∀ change ∈ changes, ∀ named ∈ change.paths, Apart other named) (s : σ) :
    files.readAt ((makeAll files changes).run s).2 other = files.readAt s other := by
  induction changes generalizing s with
  | nil => rfl
  | cons change rest ih =>
    obtain ⟨hchange, hrest⟩ := List.forall_mem_cons.mp hapart
    rw [run_makeAll_cons]
    split
    · rw [ih hrest, hfiles.readAt_after s change other hchange]
    · exact hfiles.readAt_after s change other hchange

/-- If all changes succeed that write new contents, the contents are there. -/
theorem readAt_temporaryPath (hfiles : files.Lawful Apart)
    (h : (makeAll files (writing path seen)).run s = (true, s')) :
    files.readAt s' (temporaryPath path) = .text (Wire.prettyText seen) := by
  rw [writing, run_makeAll_cons] at h
  split at h
  · rename_i hcreated
    rw [run_makeAll_cons] at h
    split at h
    · rename_i happended
      cases h
      have hread := hfiles.readAt_append _ _ _ _ (hfiles.readAt_create _ _ hcreated) happended
      rw [hread, String.empty_append]
    · cases h
  · cases h

/-! ## Saving -/

theorem run_save (files : FileAccess (StateM σ)) (path : String) (seen : LastSeen) (s : σ) :
    (save files path seen).run s =
      match (makeAll files (writing path seen)).run s with
      | (false, s') => (.error .unwritten, s')
      | (true, s') =>
        if files.succeeds s' (replacing path) then (.ok (), files.after s' (replacing path))
        else (.error .unreplaced, files.after s' (replacing path)) := by
  rw [save, StateT.run_bind]
  rcases (makeAll files (writing path seen)).run s with ⟨_ | _, s'⟩
  · rfl
  · change ((if !files.succeeds s' (replacing path) then pure (.error .unreplaced)
      else pure (.ok ()) : StateM σ (Except SaveFault Unit)).run
        (files.after s' (replacing path))) = if files.succeeds s' (replacing path) then _ else _
    cases files.succeeds s' (replacing path) with
    | false => rfl
    | true => rfl

theorem readAt_writing (hfiles : files.Lawful Apart) {other : String}
    (hother : Apart other (temporaryPath path)) (seen : LastSeen) (s : σ) :
    files.readAt ((makeAll files (writing path seen)).run s).2 other = files.readAt s other := by
  refine readAt_makeAll hfiles ?_ s
  simp [writing, Change.paths, hother]

/-- What was saved is remembered. -/
theorem readAt_of_save_eq_ok (hfiles : files.Lawful Apart)
    (h : (save files path seen).run s = (.ok (), s')) :
    files.readAt s' path = .text (Wire.prettyText seen) := by
  rw [run_save] at h
  split at h
  · cases h
  · rename_i written hwritten
    split at h
    · rename_i hrenamed
      cases h
      exact hfiles.readAt_rename _ _ _ _ (readAt_temporaryPath hfiles hwritten) hrenamed
    · cases h

/-- What was not saved changes nothing. -/
theorem readAt_of_save_eq_error (hfiles : files.Lawful Apart)
    (hapart : Apart path (temporaryPath path)) {fault : SaveFault}
    (h : (save files path seen).run s = (.error fault, s')) :
    files.readAt s' path = files.readAt s path := by
  have hkept := readAt_writing hfiles hapart seen s
  rw [run_save] at h
  split at h
  · rename_i unwritten hunwritten
    cases h
    rw [hunwritten] at hkept
    exact hkept
  · rename_i written hwritten
    rw [hwritten] at hkept
    split at h
    · cases h
    · rename_i hfails
      cases h
      rw [replacing, hfiles.readAt_rename_of_fails _ _ _ (Bool.not_eq_true _ ▸ hfails)]
      exact hkept

/-- Saving leaves other files alone. -/
theorem readAt_save (hfiles : files.Lawful Apart) {other : String} (hother : Apart other path)
    (htemporary : Apart other (temporaryPath path)) (seen : LastSeen) (s : σ) :
    files.readAt ((save files path seen).run s).2 other = files.readAt s other := by
  have hkept := readAt_writing hfiles htemporary seen s
  have hreplaced : ∀ named ∈ (replacing path).paths, Apart other named := by
    simp [replacing, Change.paths, hother, htemporary]
  rw [run_save]
  split
  · rename_i unwritten hunwritten
    rw [hunwritten] at hkept
    exact hkept
  · rename_i written hwritten
    rw [hwritten] at hkept
    split
    · exact (hfiles.readAt_after _ _ _ hreplaced).trans hkept
    · exact (hfiles.readAt_after _ _ _ hreplaced).trans hkept

end KeyTransparency.LastSeen
