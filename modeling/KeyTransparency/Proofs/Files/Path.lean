import KeyTransparency.Files.Path

/-!
# What another extension does to a path

A path is taken apart at its slashes and put together again.  Another extension changes nothing but
the last name of a path, and cuts off what follows this name.  The path that comes out has the same
name only if the name had the extension before.  Where a path ends with no name, the path that comes
out ends with none either.
-/

namespace KeyTransparency.Path

variable {text part name extension : List Char} {ps before trailing : List (List Char)}

/-! ## Parts -/

theorem parts_eq_splitOn (text : List Char) : parts text = text.splitOn '/' := by
  induction text with
  | nil => rfl
  | cons c rest ih =>
    rw [parts, List.splitOn_cons_eq_if_modifyHead, ih]
    by_cases hslash : c = '/'
    · simp [hslash]
    · obtain ⟨first, later, hsplit⟩ := List.exists_cons_of_ne_nil (List.splitOn_ne_nil '/' rest)
      simp [hslash, hsplit]

/-- A text is put together from its parts. -/
theorem intercalate_parts (text : List Char) : ['/'].intercalate (parts text) = text := by
  rw [parts_eq_splitOn, List.intercalate_splitOn]

/-- A text that is put together from parts has these parts. -/
theorem parts_intercalate (hslash : ∀ part ∈ ps, '/' ∉ part) (hne : ps ≠ []) :
    parts (['/'].intercalate ps) = ps := by
  rw [parts_eq_splitOn, List.splitOn_intercalate '/' hslash hne]

/-- A text without slashes is its only part. -/
theorem parts_eq_singleton (hslash : '/' ∉ text) : parts text = [text] := by
  have hparts := parts_intercalate (List.forall_mem_singleton.mpr hslash) (List.cons_ne_nil _ _)
  rwa [List.intercalate_singleton] at hparts

theorem slash_notMem_of_mem_parts (h : part ∈ parts text) : '/' ∉ part := by
  induction text generalizing part with
  | nil =>
    rw [List.mem_singleton.mp h]
    exact List.not_mem_nil
  | cons c rest ih =>
    rw [parts] at h
    split at h
    · obtain rfl | hmem := List.mem_cons.mp h
      · exact List.not_mem_nil
      · exact ih hmem
    · rename_i hslash
      split at h
      · rename_i first later hparts
        rw [hparts] at ih
        obtain rfl | hmem := List.mem_cons.mp h
        · exact fun hc => (List.mem_cons.mp hc).elim (fun heq => hslash heq.symm)
            (ih List.mem_cons_self)
        · exact ih (List.mem_cons_of_mem _ hmem)
      · rw [List.mem_singleton.mp h]
        exact fun hc => hslash (List.mem_singleton.mp hc).symm

theorem parts_joinReversed {reversed : List (List Char)} (hslash : ∀ part ∈ reversed, '/' ∉ part)
    (hne : reversed ≠ []) : parts (joinReversed reversed).toList = reversed.reverse := by
  rw [joinReversed, String.toList_ofList]
  exact parts_intercalate (fun part hpart => hslash part (List.mem_reverse.mp hpart))
    fun hnil => hne (List.reverse_eq_nil_iff.mp hnil)

theorem slash_prefix_intercalate_iff (hslash : '/' ∉ part) :
    ['/'] <+: ['/'].intercalate (part :: trailing) ↔ part = [] ∧ trailing ≠ [] := by
  cases trailing with
  | nil =>
    rw [List.intercalate_singleton]
    exact iff_of_false (fun h => hslash (h.subset List.mem_cons_self)) fun h => h.2 rfl
  | cons next later =>
    rw [List.intercalate_cons_cons]
    cases part with
    | nil => simp
    | cons c rest =>
      rw [List.append_assoc, List.cons_append, List.singleton_prefix_cons_iff]
      exact iff_of_false (fun heq => hslash (heq ▸ List.mem_cons_self)) fun h => nomatch h.1

/-- A path begins with a slash if an empty part stands before its others. -/
theorem startsWith_slash_iff {path : String} (h : parts path.toList = before ++ part :: trailing)
    (hpart : part ≠ []) : path.startsWith "/" ↔ before.head? = some [] := by
  have hslashFirst : path.startsWith "/" ↔ ['/'] <+: path.toList := String.startsWith_string_iff
  have hslash : ∀ given ∈ before ++ part :: trailing, '/' ∉ given := fun _ hgiven =>
    slash_notMem_of_mem_parts (h ▸ hgiven)
  rw [hslashFirst, ← intercalate_parts path.toList, h]
  cases before with
  | nil =>
    rw [List.nil_append, slash_prefix_intercalate_iff (hslash part List.mem_cons_self)]
    exact iff_of_false (fun hboth => hpart hboth.1) fun hhead => nomatch hhead
  | cons first rest =>
    rw [List.cons_append, slash_prefix_intercalate_iff (hslash first List.mem_cons_self)]
    simp

/-! ## Names -/

/-- The part is the name of something in a directory. -/
structure IsName (part : List Char) : Prop where
  moves : staysPut part = false
  down : leadsUp part = false

theorem IsName.ne_nil (h : IsName part) : part ≠ [] := by
  rintro rfl
  cases h.moves

theorem stem_eq_or (part : List Char) :
    stem part = part ∨ ∃ before, before ≠ [] ∧ before ⊆ part ∧ stem part = before := by
  by_cases hnil : ((part.reverse.dropWhile (· != '.')).drop 1).reverse = []
  · exact .inl (if_pos hnil)
  · refine .inr ⟨_, hnil, fun c hc => ?_, if_neg hnil⟩
    exact List.mem_reverse.mp
      ((List.dropWhile_sublist _).mem (List.mem_of_mem_drop (List.mem_reverse.mp hc)))

theorem stem_ne_nil (h : part ≠ []) : stem part ≠ [] := by
  obtain hstem | ⟨before, hne, -, hstem⟩ := stem_eq_or part
  · rwa [hstem]
  · rwa [hstem]

theorem stem_subset (part : List Char) : stem part ⊆ part := by
  obtain hstem | ⟨before, -, hsubset, hstem⟩ := stem_eq_or part
  · rw [hstem]
    exact List.Subset.refl _
  · rwa [hstem]

/-- A name with an extension is its stem with the extension. -/
theorem stem_append (hextension : '.' ∉ extension) (hname : name ≠ []) :
    stem (name ++ '.' :: extension) = name := by
  have hlast : ∀ c ∈ extension.reverse, (c != '.') = true := fun c hc =>
    bne_iff_ne.mpr fun heq => hextension (heq ▸ List.mem_reverse.mp hc)
  have hdrop : (name ++ '.' :: extension).reverse.dropWhile (· != '.') = '.' :: name.reverse := by
    rw [List.reverse_append, List.reverse_cons, List.append_assoc,
      List.dropWhile_append_of_pos hlast]
    rfl
  rw [stem, hdrop]
  simp [hname]

theorem slash_notMem_renamed (hname : '/' ∉ name) (hextension : '/' ∉ extension) :
    '/' ∉ stem name ++ '.' :: extension := by
  intro hmem
  obtain hstem | hrest := List.mem_append.mp hmem
  · exact hname (stem_subset name hstem)
  · obtain hpoint | hlast := List.mem_cons.mp hrest
    · exact absurd hpoint (by decide)
    · exact hextension hlast

/-! ## Another extension -/

/-- The parts end with a name, up to parts that stay put. -/
structure EndsIn (ps before : List (List Char)) (name : List Char)
    (trailing : List (List Char)) : Prop where
  parts_eq : ps = before ++ name :: trailing
  isName : IsName name
  staysPut : ∀ part ∈ trailing, staysPut part

theorem EndsIn.dropWhile_eq (h : EndsIn ps before name trailing) :
    ps.reverse.dropWhile Path.staysPut = name :: before.reverse := by
  have htrailing : ∀ part ∈ trailing.reverse, Path.staysPut part = true := fun part hpart =>
    h.staysPut part (List.mem_reverse.mp hpart)
  rw [h.parts_eq, List.reverse_append, List.reverse_cons, List.append_assoc,
    List.dropWhile_append_of_pos htrailing, List.singleton_append,
    List.dropWhile_cons_of_neg (Bool.eq_false_iff.mp h.isName.moves)]

/-- There is one name at the end, and one way to it. -/
theorem EndsIn.unique {before' trailing' : List (List Char)} {name' : List Char}
    (h : EndsIn ps before name trailing) (h' : EndsIn ps before' name' trailing') :
    before = before' ∧ name = name' := by
  obtain ⟨hname, hbefore⟩ := List.cons.inj (h.dropWhile_eq.symm.trans h'.dropWhile_eq)
  exact ⟨List.reverse_inj.mp hbefore, hname⟩

theorem exists_of_replaceExtension {reversed changed : List (List Char)}
    (h : replaceExtension extension reversed = some changed) :
    ∃ before name trailing, EndsIn reversed.reverse before name trailing ∧
      changed = (stem name ++ '.' :: extension) :: before.reverse := by
  induction reversed with
  | nil => cases h
  | cons part rest ih =>
    rw [replaceExtension] at h
    split at h
    · rename_i hstays
      obtain ⟨before, name, trailing, hends, rfl⟩ := ih h
      refine ⟨before, name, trailing ++ [part], ⟨?_, hends.isName, ?_⟩, rfl⟩
      · rw [List.reverse_cons, hends.parts_eq, List.append_assoc, List.cons_append]
      · exact List.forall_mem_append.mpr ⟨hends.staysPut, List.forall_mem_singleton.mpr hstays⟩
    · rename_i hmoves
      split at h
      · cases h
      · rename_i hdown
        cases h
        refine ⟨rest.reverse, part, [], ⟨List.reverse_cons, ?_, ?_⟩, ?_⟩
        · exact ⟨Bool.eq_false_iff.mpr hmoves, Bool.eq_false_iff.mpr hdown⟩
        · exact fun _ hmem => absurd hmem List.not_mem_nil
        · rw [List.reverse_reverse]

/-- A path that ends in a name leads to the same place with the new name, and to no name if it does
not end in one, or if only a point is left of the name. -/
theorem parts_withExtension (path extension : String) (hslash : '/' ∉ extension.toList) :
    (∃ before name trailing, EndsIn (parts path.toList) before name trailing ∧
      parts (withExtension path extension).toList =
        before ++ [stem name ++ '.' :: extension.toList]) ∨
    ∀ before name, parts (withExtension path extension).toList = before ++ [name] →
      ¬IsName name := by
  unfold withExtension
  split
  · rename_i hnil
    refine .inr fun before name hparts => ?_
    rw [List.reverse_eq_nil_iff.mp hnil] at hparts
    simp at hparts
  · rename_i last earlier hreversed
    have hparts : parts path.toList = earlier.reverse ++ [last] := by
      rw [← List.reverse_reverse (parts path.toList), hreversed, List.reverse_cons]
    have hearlier : ∀ part ∈ earlier, '/' ∉ part := fun part hpart =>
      slash_notMem_of_mem_parts
        (hparts ▸ List.mem_append_left _ (List.mem_reverse.mpr hpart))
    split
    · -- nothing but a point is left without the old extension, which names no file any more
      refine .inr fun before name hchanged => ?_
      rw [parts_joinReversed (List.forall_mem_cons.mpr ⟨by decide, hearlier⟩)
        (List.cons_ne_nil _ _), List.reverse_cons] at hchanged
      obtain ⟨-, hname⟩ := List.append_inj' hchanged rfl
      obtain rfl := List.cons.inj hname |>.1
      exact fun h => nomatch h.down
    · cases hreplaced : replaceExtension extension.toList (last :: earlier) with
      | none =>
        refine .inr fun before name hchanged => ?_
        rw [Option.elim_none, hparts] at hchanged
        obtain ⟨-, hname⟩ := List.append_inj' hchanged rfl
        obtain rfl := List.cons.inj hname |>.1
        intro h
        simp [replaceExtension, h.moves, h.down] at hreplaced
      | some changed =>
        obtain ⟨before, name, trailing, hends, rfl⟩ := exists_of_replaceExtension hreplaced
        rw [← hreversed, List.reverse_reverse] at hends
        refine .inl ⟨before, name, trailing, hends, ?_⟩
        have hgiven : ∀ part ∈ before ++ name :: trailing, '/' ∉ part := fun part hpart =>
          slash_notMem_of_mem_parts (hends.parts_eq ▸ hpart)
        have hchanged : ∀ part ∈ (stem name ++ '.' :: extension.toList) :: before.reverse,
            '/' ∉ part :=
          List.forall_mem_cons.mpr ⟨slash_notMem_renamed (hgiven name (by simp)) hslash,
            fun part hpart => hgiven part (List.mem_append_left _ (List.mem_reverse.mp hpart))⟩
        rw [Option.elim_some, parts_joinReversed hchanged (List.cons_ne_nil _ _),
          List.reverse_cons, List.reverse_reverse]

end KeyTransparency.Path
