import Workflows.Files.Placeholder

/-!
# Writing placeholders adds to a tree

Whatever is in a tree before a placeholder is written is there afterwards, and a
path that led to something leads to the same.  What is new is a directory, or
the document of the placeholder at the end of its path; that holds as well when
the writing fails on the way.
-/

namespace Workflows.FileTree

theorem locate_eq_ok_iff {t : FileTree} {path : String}
    {place : Place} {e : FileEntry} :
    t.locate path = .ok (place, e) ↔
      ∃ start, t.origin path = .ok start ∧
      t.walk start (names path) = .ok place ∧
        t.find? place = some e ∧ (endsInSlash path && !e.isDirectory) =
          false := by
  constructor
  · intro h
    obtain ⟨start, hstart, h⟩ := exists_of_bind_ok h
    obtain ⟨last, hwalk, h⟩ := exists_of_bind_ok h
    cases hfound : t.find? last with
    | none =>
        rw [hfound] at h
        cases h
    | some found =>
        rw [hfound] at h
        cases hslash : endsInSlash path && !found.isDirectory with
        | true =>
            simp only [hslash] at h
            cases h
        | false =>
            simp only [hslash] at h
            cases h
            exact ⟨start, hstart, hwalk, hfound, hslash⟩
  · rintro ⟨start, hstart, hwalk, hfound, hslash⟩
    simp [locate, hstart, hwalk, hfound, hslash, bind, Except.bind, pure,
      Except.pure]

/-! ## Growing trees -/

/-- All that is in the first tree is in the second, unchanged and in its
place. -/
structure Grows (t t' : FileTree) : Prop where
  workingDirectory : t'.workingDirectory = t.workingDirectory
  kept : ∀ place e, t.find? place = some e → t'.find? place = some e

namespace Grows

variable {t t' t'' : FileTree}

theorem refl (t : FileTree) : t.Grows t := ⟨rfl, fun _ _ h => h⟩

theorem trans (h : t.Grows t') (h' : t'.Grows t'') : t.Grows t'' :=
  ⟨h'.workingDirectory.trans h.workingDirectory,
    fun place e hfound => h'.kept place e (h.kept place e hfound)⟩

theorem searchable (h : t.Grows t') {place : Place}
    (hplace : t.searchable place = .ok ()) :
    t'.searchable place = .ok () := by
  unfold FileTree.searchable at hplace ⊢
  cases hfound : t.find? place with
  | none =>
      rw [hfound] at hplace
      cases hplace
  | some e =>
      rw [hfound] at hplace
      rw [h.kept place e hfound]
      exact hplace

theorem child (h : t.Grows t') {place next : Place} {name : String}
    (hchild : t.child place name = .ok next) :
    t'.child place name = .ok next := by
  unfold FileTree.child at hchild ⊢
  obtain ⟨⟨⟩, hplace, hchild⟩ := exists_of_bind_ok hchild
  simp only [h.searchable hplace, Except.bind, bind]
  split at hchild
  · next hpoint => exact (if_pos hpoint).trans hchild
  · next hpoint =>
      rw [if_neg hpoint]
      split at hchild
      · next hup => exact (if_pos hup).trans hchild
      · next hup =>
          rw [if_neg hup]
          split at hchild
          · cases hchild
          · next hlong =>
              rw [if_neg hlong]
              cases hfound : t.find? (place ++ [name]) with
              | none =>
                  rw [hfound] at hchild
                  cases hchild
              | some e =>
                  rw [hfound] at hchild
                  rw [h.kept _ e hfound]
                  exact hchild

theorem walk (h : t.Grows t') {place last : Place} {names : List String}
    (hwalk : t.walk place names = .ok last) :
    t'.walk place names = .ok last := by
  induction names generalizing place with
  | nil => exact hwalk
  | cons name rest ih =>
      obtain ⟨next, hchild, hwalk⟩ := exists_of_bind_ok hwalk
      rw [FileTree.walk, h.child hchild]
      exact ih hwalk

theorem origin (h : t.Grows t') (path : String) :
    t'.origin path = t.origin path := by
  rw [FileTree.origin, FileTree.origin, h.workingDirectory]

theorem locate (h : t.Grows t') {path : String} {place : Place} {e : FileEntry}
    (hlocate : t.locate path = .ok (place, e)) :
    t'.locate path = .ok (place, e) := by
  obtain ⟨start, hstart, hwalk, hfound, hslash⟩ := locate_eq_ok_iff.mp hlocate
  exact locate_eq_ok_iff.mpr
    ⟨start, (h.origin path).trans hstart, h.walk hwalk, h.kept place e hfound,
      hslash⟩

end Grows

/-! ## Additions -/

/-- What writing some placeholders can put where nothing was. -/
inductive IsAddition (written : List (String × Placeholder))
    (t : FileTree) (place : Place) :
    FileEntry → Prop
  | directory : IsAddition written t place .newDirectory
  | document {path name kind : String}
      (hwritten : (path, .document name kind) ∈ written)
      (hlocate : t.locate path =
        .ok (place, .newFile (.text (Placeholder.documentText name kind)))) :
      IsAddition written t place
        (.newFile (.text (Placeholder.documentText name kind)))

/-- The second tree is the first one with additions. -/
structure Adds (written : List (String × Placeholder)) (t t' : FileTree) : Prop
    extends Grows t t' where
  added : ∀ place e, t.find? place = none → t'.find? place = some e →
    IsAddition written t' place e

namespace Adds

variable {written written' : List (String × Placeholder)} {t t' t'' : FileTree}

theorem refl (written : List (String × Placeholder)) (t : FileTree) :
    t.Adds written t where
  toGrows := .refl t
  added := by
    intro place e hnone hfound
    rw [hnone] at hfound
    cases hfound

theorem trans (h : t.Adds written t') (h' : t'.Adds written t'') :
    t.Adds written t'' where
  toGrows := h.toGrows.trans h'.toGrows
  added := by
    intro place e hnone hfound
    cases hmiddle : t'.find? place with
    | none => exact h'.added place e hmiddle hfound
    | some e' =>
        rw [h'.kept place e' hmiddle] at hfound
        cases hfound
        cases h.added place e hnone hmiddle with
        | directory => exact .directory
        | document hwritten hlocate =>
            exact .document hwritten (h'.toGrows.locate hlocate)

theorem mono (h : t.Adds written t') (hsub : written ⊆ written') :
    t.Adds written' t' where
  toGrows := h.toGrows
  added := by
    intro place e hnone hfound
    cases h.added place e hnone hfound with
    | directory => exact .directory
    | document hwritten hlocate => exact .document (hsub hwritten) hlocate

end Adds

/-! ## One new entry -/

section NewEntry

variable {written : List (String × Placeholder)} {t t' : FileTree}
  {place : Place} {path name text : String} {occupied : AccessError}

theorem find?_put_self (t : FileTree) (place : Place) (e : FileEntry) :
    (t.put place e).find? place = some e := by
  simp [put, find?]

theorem find?_put_of_ne (t : FileTree) (e : FileEntry) {place other : Place}
    (h : other ≠ place) : (t.put place e).find? other = t.find? other := by
  have hother : (other == place) = false := by simpa using h
  have hlookup : ∀ entries : List (Place × FileEntry),
      (entries.filter fun entry => entry.1 != place).lookup other =
      entries.lookup other := by
    intro entries
    induction entries with
    | nil => rfl
    | cons entry entries ih =>
        rw [List.filter_cons]
        split
        · rw [List.lookup_cons, List.lookup_cons, ih]
        · next hsame =>
            have hplace : entry.1 = place := by simpa using hsame
            rw [ih, List.lookup_cons, hplace, hother]
  change ((place, e) :: _).lookup other = _
  rw [List.lookup_cons, hother]
  exact hlookup t.entries

theorem grows_put (e : FileEntry) (hnone : t.find? place = none) :
    t.Grows (t.put place e) where
  workingDirectory := rfl
  kept := by
    intro other found hfound
    have hne : other ≠ place := by
      rintro rfl
      rw [hnone] at hfound
      cases hfound
    rw [find?_put_of_ne t e hne]
    exact hfound

theorem adds_put {e : FileEntry} (hnone : t.find? place = none)
    (he : IsAddition written (t.put place e) place e) :
    t.Adds written (t.put place e) where
  toGrows := grows_put e hnone
  added := by
    intro other found hother hfound
    by_cases hsame : other = place
    · subst hsame
      rw [find?_put_self] at hfound
      cases hfound
      exact he
    · rw [find?_put_of_ne t e hsame, hother] at hfound
      cases hfound

structure IsVacant (t : FileTree) (path : String) (place : Place)
    (name : String) : Prop where
  walked : ∃ start, t.origin path = .ok start ∧
    t.walk start (names path).dropLast = .ok place
  last : (names path).getLast? = some name
  searchable : t.searchable place = .ok ()
  named : name ≠ "." ∧ name ≠ ".."
  short : ¬ maxName < name.utf8ByteSize
  nothing : t.find? (place ++ [name]) = none

theorem isVacant_of_vacancy (h : t.vacancy path occupied = .ok (place, name)) :
    t.IsVacant path place name := by
  obtain ⟨start, hstart, h⟩ := exists_of_bind_ok h
  cases hlast : (names path).getLast? with
  | none =>
      rw [hlast] at h
      cases h
  | some last =>
      rw [hlast] at h
      obtain ⟨above, hwalk, h⟩ := exists_of_bind_ok h
      obtain ⟨⟨⟩, hsearchable, h⟩ := exists_of_bind_ok h
      split at h
      · cases h
      next hpoints =>
        split at h
        · cases h
        next hshort =>
          split at h
          · cases h
          next hnothing =>
            cases h
            exact ⟨⟨start, hstart, hwalk⟩, hlast,
              hsearchable, not_or.mp hpoints, hshort, by simpa using hnothing⟩

theorem walk_concat {start middle last : Place} {names : List String}
    (hwalk : t.walk start names = .ok middle)
    (hchild : t.child middle name = .ok last) :
    t.walk start (names ++ [name]) = .ok last := by
  induction names generalizing start with
  | nil =>
      cases hwalk
      rw [List.nil_append, walk, hchild]
      rfl
  | cons first rest ih =>
      obtain ⟨next, hfirst, hrest⟩ := exists_of_bind_ok hwalk
      rw [List.cons_append, walk, hfirst]
      exact ih hrest

theorem IsVacant.locate_put (h : t.IsVacant path place name) (e : FileEntry)
    (hslash : (endsInSlash path && !e.isDirectory) = false) :
    (t.put (place ++ [name]) e).locate path = .ok (place ++ [name], e) := by
  obtain ⟨⟨start, hstart, hwalk⟩, hlast, hsearchable, ⟨hpoint, hup⟩, hshort,
      hnothing⟩ := h
  have hgrows := grows_put e hnothing
  have hchild : (t.put (place ++ [name]) e).child place name =
      .ok (place ++ [name]) := by
    unfold FileTree.child
    rw [hgrows.searchable hsearchable]
    change (if _ then _ else _) = _
    rw [if_neg hpoint, if_neg hup, if_neg hshort, find?_put_self]
    rfl
  obtain ⟨above, hnames⟩ := List.getLast?_eq_some_iff.mp hlast
  rw [hnames, List.dropLast_concat] at hwalk
  have hwalked := walk_concat (hgrows.walk hwalk) hchild
  rw [← hnames] at hwalked
  exact locate_eq_ok_iff.mpr ⟨start, (hgrows.origin path).trans hstart, hwalked,
    find?_put_self t _ e, hslash⟩

theorem eq_put_of_add {e : FileEntry} (h : t.add place name e = .ok t') :
    t' = t.put (place ++ [name]) e := by
  unfold add at h
  split at h
  · split at h
    · cases h
      rfl
    · cases h
  · cases h

end NewEntry

/-! ## Placeholders -/

section Placeholders

variable {t t' : FileTree} {path name kind : String}

theorem adds_makeDirectory (h : t.makeDirectory path = .ok t') :
    t.Adds [] t' := by
  obtain ⟨⟨place, last⟩, hvacancy, hadd⟩ := exists_of_bind_ok h
  rw [eq_put_of_add hadd]
  exact adds_put (isVacant_of_vacancy hvacancy).nothing .directory

theorem adds_makeDirectoriesFrom (fuel : Nat) (t : FileTree) (path : String) :
    t.Adds [] (makeDirectoriesFrom fuel t path).1 := by
  induction fuel generalizing path with
  | zero => exact .refl [] t
  | succ fuel ih =>
      rw [makeDirectoriesFrom]
      split
      · exact .refl [] t
      split
      · next t' _ hmade => exact adds_makeDirectory hmade
      · next parent hparent hmade =>
          have habove := ih (String.ofList parent)
          generalize makeDirectoriesFrom fuel t (String.ofList parent) =
            above at habove
          obtain ⟨grown, cause | done⟩ := above
          · exact habove
          · dsimp only
            split
            · next t' hmade => exact habove.trans (adds_makeDirectory hmade)
            · exact habove
      · exact .refl [] t

theorem adds_makeParents (t : FileTree) (path : String) :
    t.Adds [] (t.makeParents path).1 := by
  unfold makeParents
  split
  · exact .refl [] t
  · exact adds_makeDirectoriesFrom _ t _

theorem adds_createFile
    (h : t.createFile path (Placeholder.documentText name kind) = .ok t') :
    t.Adds [(path, .document name kind)] t' := by
  obtain ⟨⟨place, last⟩, hvacancy, hadd⟩ := exists_of_bind_ok h
  have hvacant := isVacant_of_vacancy hvacancy
  cases hslash : endsInSlash path with
  | true =>
      rw [hslash] at hadd
      cases hadd
  | false =>
      rw [hslash] at hadd
      rw [eq_put_of_add hadd]
      exact adds_put hvacant.nothing
        (.document (List.mem_singleton.mpr rfl)
          (hvacant.locate_put _ (by simp [hslash])))

/-- A file is written only where a look just before found nothing, so it is a
new one. -/
theorem adds_createMissing (t : FileTree) (path name kind : String) :
    t.Adds [(path, .document name kind)]
      (t.createMissing path (Placeholder.documentText name kind)).1 := by
  unfold createMissing exists?
  cases hlocate : t.locate path with
  | ok found => exact .refl _ t
  | error cause =>
      cases cause with
      | notFound =>
          have hwrite : t.write path (Placeholder.documentText name kind) =
              t.createFile path (Placeholder.documentText name kind) := by
            rw [write, hlocate]
          dsimp only
          rw [hwrite]
          cases hcreated :
            t.createFile path (Placeholder.documentText name kind) with
          | ok t' => exact adds_createFile hcreated
          | error cause => exact .refl _ t
      | _ => exact .refl _ t

theorem adds_putPlaceholder (t : FileTree) (path : String) (p : Placeholder) :
    t.Adds [(path, p)] (t.putPlaceholder path p).1 := by
  cases p with
  | directory =>
      exact (adds_makeDirectoriesFrom (path.length + 1) t path).mono
        (List.nil_subset _)
  | document name kind =>
      have hparents := (adds_makeParents t path).mono
        (List.nil_subset [(path, .document name kind)])
      unfold putPlaceholder
      dsimp only
      generalize t.makeParents path = parents at hparents
      obtain ⟨grown, cause | done⟩ := parents
      · exact hparents
      · exact hparents.trans (adds_createMissing grown path name kind)

end Placeholders

end Workflows.FileTree
