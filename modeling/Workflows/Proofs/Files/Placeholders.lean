import Workflows.Files.Inspection
import Workflows.Proofs.Files.Additions

/-!
# Where the path of a placeholder leads

After a placeholder was written its path leads to something, be it new or not.
Only the empty path leads nowhere, and asks for no directory to be made.  What
is new can be read.  So whoever writes the placeholder again, be it in a tree
that has grown since, finds it there.
-/

namespace Workflows.FileTree

def Leads (t : FileTree) (path : String) : Prop :=
  ∃ place e, t.locate path = .ok (place, e)

variable {t t' last : FileTree} {path text : String}

theorem Grows.leads (h : t.Grows t') (hleads : t.Leads path) :
    t'.Leads path := by
  obtain ⟨place, e, hlocate⟩ := hleads
  exact ⟨place, e, h.locate hlocate⟩

theorem not_leads_empty (t : FileTree) : ¬ t.Leads "" := by
  rintro ⟨place, e, hlocate⟩
  obtain ⟨start, hstart, -⟩ := locate_eq_ok_iff.mp hlocate
  cases hstart

/-! ## Directories -/

theorem leads_of_isDirectory (h : t.isDirectory path = true) :
    t.Leads path := by
  unfold isDirectory at h
  split at h
  · next place e hlocate => exact ⟨place, e, hlocate⟩
  · cases h

theorem Grows.isDirectory (h : t.Grows t')
    (hdirectory : t.isDirectory path = true) :
    t'.isDirectory path = true := by
  obtain ⟨place, e, hlocate⟩ := leads_of_isDirectory hdirectory
  unfold FileTree.isDirectory at hdirectory ⊢
  rw [hlocate] at hdirectory
  rw [h.locate hlocate]
  exact hdirectory

theorem isDirectory_of_makeDirectory (h : t.makeDirectory path = .ok t') :
    t'.isDirectory path = true := by
  obtain ⟨⟨place, name⟩, hvacancy, hadd⟩ := exists_of_bind_ok h
  have hlocate :=
    (isVacant_of_vacancy hvacancy).locate_put .newDirectory (Bool.and_false _)
  rw [eq_put_of_add hadd, isDirectory, hlocate]
  rfl

theorem isDirectory_of_settle {cause : AccessError}
    (h : (t.settle path cause).2 = .ok ()) :
    (t.settle path cause).1.isDirectory path = true := by
  cases hdirectory : t.isDirectory path with
  | true => exact hdirectory
  | false => simp [settle, hdirectory] at h

theorem isDirectory_of_makeDirectoriesFrom (fuel : Nat) (hpath : path ≠ "")
    (h : (makeDirectoriesFrom fuel t path).2 = .ok ()) :
    (makeDirectoriesFrom fuel t path).1.isDirectory path = true := by
  cases fuel with
  | zero => cases h
  | succ fuel =>
      have hwritten : ¬ path.isEmpty = true := by simpa using hpath
      rw [makeDirectoriesFrom, if_neg hwritten] at h ⊢
      split at h
      · next t' _ hmade => exact isDirectory_of_makeDirectory hmade
      · next parent hparent hmade =>
          generalize makeDirectoriesFrom fuel t (String.ofList parent) =
            above at h ⊢
          obtain ⟨grown, cause | done⟩ := above
          · cases h
          · dsimp only at h ⊢
            cases hagain : grown.makeDirectory path with
            | ok t' => exact isDirectory_of_makeDirectory hagain
            | error cause =>
                rw [hagain] at h
                exact isDirectory_of_settle h
      · exact isDirectory_of_settle h

/-! ## Documents -/

theorem leads_of_createFile (h : t.createFile path text = .ok t') :
    t'.Leads path := by
  obtain ⟨⟨place, name⟩, hvacancy, hadd⟩ := exists_of_bind_ok h
  cases hslash : endsInSlash path with
  | true =>
      rw [hslash] at hadd
      cases hadd
  | false =>
      rw [hslash] at hadd
      rw [eq_put_of_add hadd]
      exact ⟨_, _,
        (isVacant_of_vacancy hvacancy).locate_put _ (by simp [hslash])⟩

theorem leads_of_createMissing (h : (t.createMissing path text).2 = .ok ()) :
    (t.createMissing path text).1.Leads path := by
  unfold createMissing exists? at h ⊢
  cases hlocate : t.locate path with
  | ok found => exact ⟨found.1, found.2, hlocate⟩
  | error cause =>
      cases cause with
      | notFound =>
          simp only [hlocate, write] at h ⊢
          cases hcreated : t.createFile path text with
          | ok t' => exact leads_of_createFile hcreated
          | error cause =>
              rw [hcreated] at h
              cases h
      | _ =>
          rw [hlocate] at h
          cases h

theorem leads_of_putPlaceholder {p : Placeholder}
    (h : (t.putPlaceholder path p).2 = .ok ()) :
    (t.putPlaceholder path p).1.Leads path ∨ p = .directory ∧ path = "" := by
  cases p with
  | directory =>
      by_cases hpath : path = ""
      · exact .inr ⟨rfl, hpath⟩
      · refine .inl (leads_of_isDirectory
          (isDirectory_of_makeDirectoriesFrom (path.length + 1) hpath ?_))
        unfold putPlaceholder makeDirectories at h
        generalize makeDirectoriesFrom (path.length + 1) t path = outcome at h ⊢
        obtain ⟨grown, cause | done⟩ := outcome
        · cases h
        · rfl
  | document name kind =>
      left
      unfold putPlaceholder at h ⊢
      dsimp only at h ⊢
      generalize t.makeParents path = parents at h ⊢
      obtain ⟨grown, cause | done⟩ := parents
      · cases h
      · dsimp only at h ⊢
        refine leads_of_createMissing ?_
        generalize grown.createMissing path (Placeholder.documentText name
          kind) = outcome at h ⊢
        obtain ⟨last, cause | done⟩ := outcome
        · cases h
        · rfl

/-! ## Placeholders that are there -/

theorem exists_of_walk_concat {start last : Place} {names : List String}
    {name : String} (h : t.walk start (names ++ [name]) = .ok last) :
    ∃ middle, t.walk start names = .ok middle ∧
    t.child middle name = .ok last := by
  induction names generalizing start with
  | nil =>
      obtain ⟨next, hchild, hlast⟩ := exists_of_bind_ok h
      cases hlast
      exact ⟨start, rfl, hchild⟩
  | cons first rest ih =>
      obtain ⟨next, hfirst, hrest⟩ := exists_of_bind_ok h
      obtain ⟨middle, hmiddle, hlast⟩ := ih hrest
      refine ⟨middle, ?_, hlast⟩
      rw [walk, hfirst]
      exact hmiddle

theorem vacancy_of_leads (h : t.Leads path) (occupied : AccessError) :
    t.vacancy path occupied = .error occupied := by
  obtain ⟨place, e, hlocate⟩ := h
  obtain ⟨start, hstart, hwalk, hfound, -⟩ := locate_eq_ok_iff.mp hlocate
  cases hlast : (names path).getLast? with
  | none =>
      simp only [vacancy, hstart, hlast, bind, Except.bind]
      rfl
  | some name =>
      obtain ⟨above, hnames⟩ := List.getLast?_eq_some_iff.mp hlast
      rw [hnames] at hwalk
      obtain ⟨middle, hmiddle, hchild⟩ := exists_of_walk_concat hwalk
      obtain ⟨⟨⟩, hsearchable, hchild⟩ := exists_of_bind_ok hchild
      simp only [vacancy, hstart, hnames, List.getLast?_concat,
        List.dropLast_concat, hmiddle, hsearchable, bind, Except.bind]
      split
      · rfl
      next hpoints =>
        obtain ⟨hpoint, hup⟩ := not_or.mp hpoints
        rw [if_neg hpoint, if_neg hup] at hchild
        split at hchild
        · cases hchild
        next hshort =>
          cases hnext : t.find? (middle ++ [name]) with
          | none =>
              rw [hnext] at hchild
              cases hchild
          | some found =>
              rw [if_neg hshort, Option.isSome_some, if_pos rfl]
              rfl

theorem makeDirectory_of_leads (h : t.Leads path) :
    t.makeDirectory path = .error .alreadyExists := by
  rw [makeDirectory, vacancy_of_leads h]
  rfl

theorem makeDirectories_again (h : t.makeDirectories path = (t', .ok ()))
    (hgrows : t'.Grows last) : last.makeDirectories path = (last, .ok ()) := by
  unfold makeDirectories at h ⊢
  by_cases hpath : path = ""
  · rw [makeDirectoriesFrom, if_pos (by simpa using hpath)]
  · have hdirectory :=
      isDirectory_of_makeDirectoriesFrom _ hpath (congrArg Prod.snd h)
    rw [h] at hdirectory
    have hlast := hgrows.isDirectory hdirectory
    rw [makeDirectoriesFrom, if_neg (by simpa using hpath),
      makeDirectory_of_leads (leads_of_isDirectory hlast)]
    simp only [settle, hlast, if_true]

theorem makeParents_again (h : t.makeParents path = (t', .ok ()))
    (hgrows : t'.Grows last) :
    last.makeParents path = (last, .ok ()) := by
  unfold makeParents at h ⊢
  cases hparent : Path.parent? path.toList with
  | none => rfl
  | some parent =>
      simp only [hparent] at h ⊢
      rcases hmade : t.makeDirectories (String.ofList parent) with
          ⟨grown, cause | done⟩
      · rw [hmade] at h
        cases h
      · rw [hmade] at h
        cases h
        rw [makeDirectories_again hmade hgrows]
        rfl

theorem createMissing_of_leads (h : t.Leads path) (text : String) :
    t.createMissing path text = (t, .ok ()) := by
  obtain ⟨place, e, hlocate⟩ := h
  rw [createMissing, exists?, hlocate]

theorem putPlaceholder_again {p : Placeholder}
    (h : t.putPlaceholder path p = (t', .ok ())) (hgrows : t'.Grows last) :
    last.putPlaceholder path p = (last, .ok ()) := by
  unfold putPlaceholder at h ⊢
  cases p with
  | directory =>
      rcases hmade : t.makeDirectories path with ⟨grown, cause | done⟩
      · rw [hmade] at h
        cases h
      · rw [hmade] at h
        cases h
        rw [makeDirectories_again hmade hgrows]
        rfl
  | document name kind =>
      dsimp only at h ⊢
      rcases hparents : t.makeParents path with ⟨grown, cause | done⟩
      · rw [hparents] at h
        cases h
      · rw [hparents] at h
        dsimp only at h
        have hadds := adds_createMissing grown path name kind
        rcases hcreated :
            grown.createMissing path (Placeholder.documentText name kind) with
          ⟨left, cause | done⟩
        · rw [hcreated] at h
          cases h
        · have hleads := leads_of_createMissing (congrArg Prod.snd hcreated)
          rw [hcreated] at h hadds hleads
          cases h
          rw [makeParents_again hparents (hadds.toGrows.trans hgrows)]
          dsimp only
          rw [createMissing_of_leads (hgrows.leads hleads)]
          rfl

/-! ## Reports -/

theorem exists_inspect_of_locate {place : Place} {e : FileEntry}
    (h : t.locate path = .ok (place, e)) :
    ∃ report, t.inspect path = .ok report ∧ report.exist = true ∧
    report.isUsable = e.mayRead := by
  rw [inspect, h]
  dsimp only
  cases hread : e.mayRead with
  | true => exact ⟨_, rfl, rfl, rfl⟩
  | false => exact ⟨_, rfl, rfl, rfl⟩

theorem IsAddition.mayRead {written : List (String × Placeholder)}
    {place : Place} {e : FileEntry} (h : IsAddition written t place e) :
    e.mayRead = true := by
  cases h <;> simp [FileEntry.mayRead, FileEntry.newFile,
    FileEntry.newDirectory, FileEntry.mode]

theorem Adds.mayRead_iff {written : List (String × Placeholder)}
    (h : t.Adds written t') {place : Place} {e : FileEntry}
    (hlocate : t'.locate path = .ok (place, e)) :
    e.mayRead = true ↔ ∀ place e, t.find? place = some e →
      t'.locate path = .ok (place, e) → e.mayRead = true := by
  obtain ⟨-, -, -, hnow, -⟩ := locate_eq_ok_iff.mp hlocate
  refine ⟨fun hread place' e' _ hlocate' => ?_, fun hkept => ?_⟩
  · rw [hlocate] at hlocate'
    cases hlocate'
    exact hread
  · cases hfound : t.find? place with
    | none => exact (h.added place e hfound hnow).mayRead
    | some before =>
        have hstays := h.kept place before hfound
        rw [hnow] at hstays
        cases hstays
        exact hkept place e hfound hlocate

end Workflows.FileTree
