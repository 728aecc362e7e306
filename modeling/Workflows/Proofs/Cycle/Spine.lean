import Mathlib.Data.List.Nodup
import Workflows.Proofs.Cycle.Search

/-!
# Searches along a spine

Each node of a spine is the first successor of the node before it, so a search
walks down the whole spine first.  On its way back it tries the other
successors: those on the path close cycles, and the rest were entered before or
lead nowhere.
-/

namespace Workflows.Cycle

variable {α : Type} [DecidableEq α]

def closing (walk : List α) (node : α) : List α :=
  walk.drop (walk.idxOf node) ++ [node]

def closings (walk nexts : List α) : List (List α) :=
  (nexts.filter fun next => next ∈ walk).map (closing walk)

theorem closings_cons_of_mem {walk : List α} {next : α} (h : next ∈ walk)
    (nexts : List α) :
    closings walk (next :: nexts) = closing walk next ::
      closings walk nexts := by
  simp [closings, h]

theorem closings_cons_of_notMem {walk : List α} {next : α} (h : next ∉ walk)
    (nexts : List α) : closings walk (next :: nexts) = closings walk nexts := by
  simp [closings, h]

def spineCycles (successors : α → List α) : List α → List α → List (List α)
  | _, [] => []
  | before, node :: after =>
      spineCycles successors (before ++ [node]) after ++
        closings (before ++ [node]) (successors node)

/-! ## Rows of steps -/

def Steps (successors : α → List α) : Search α → Search α → Prop :=
  Relation.ReflTransGen fun s t => s.step successors = t

section Steps

variable {successors : α → List α} {s t u : Search α}

theorem Steps.one (h : s.step successors = t) : Steps successors s t :=
  .single h

theorem Steps.trans (hst : Steps successors s t) (htu : Steps successors t u) :
    Steps successors s u :=
  Relation.ReflTransGen.trans hst htu

theorem steps_run (successors : α → List α) (fuel : Nat) (s : Search α) :
    Steps successors s (s.run successors fuel) := by
  induction fuel generalizing s with
  | zero => exact .refl
  | succ fuel ih =>
      rw [Search.run]
      cases s.isDone with
      | true => exact .refl
      | false => exact .head rfl (ih _)

theorem step_of_isDone (h : s.isDone = true) : s.step successors = s := by
  obtain ⟨hroots, hframes⟩ : s.roots = [] ∧ s.frames = [] := by
    simpa [Search.isDone] using h
  rw [Search.step, hframes, hroots]

theorem Steps.eq_of_isDone (h : s.isDone = true)
    (hsteps : Steps successors s t) :
    t = s := by
  induction hsteps with
  | refl => rfl
  | tail _ hstep ih => rw [← hstep, ih, step_of_isDone h]

theorem Steps.isDone_unique (ht : Steps successors s t)
    (hu : Steps successors s u) (htdone : t.isDone = true)
    (hudone : u.isDone = true) : t = u := by
  have hunique : Relator.RightUnique
      fun s t : Search α => s.step successors = t := by
    intro s t u hst hsu
    exact hst.symm.trans hsu
  rcases Relation.ReflTransGen.total_of_right_unique hunique ht hu with
      htu | hut
  · exact (Steps.eq_of_isDone htdone htu).symm
  · exact Steps.eq_of_isDone hudone hut

end Steps

/-! ## Single steps -/

def standing (roots : List α) (frames : List (Frame α)) (entered : List α)
    (found : List (List α)) : Search α :=
  ⟨roots, frames, depthsOf (frames.map Frame.node), entered, found⟩

section Standing

variable {successors : α → List α} {roots entered pending walk : List α}
  {node next : α} {below : List (Frame α)} {found : List (List α)}

theorem lookup_depthsOf_of_mem (hnodup : walk.Nodup) (h : node ∈ walk) :
    (depthsOf walk.reverse).lookup node = some (walk.idxOf node) := by
  rw [lookup_depthsOf (List.nodup_reverse.mpr hnodup), List.reverse_reverse]
  exact List.getElem?_idxOf h

theorem lookup_depthsOf_of_notMem (hnodup : walk.Nodup) (h : node ∉ walk) :
    (depthsOf walk.reverse).lookup node = none := by
  cases hdepth : (depthsOf walk.reverse).lookup node with
  | none => rfl
  | some depth =>
      rw [lookup_depthsOf (List.nodup_reverse.mpr hnodup), List.reverse_reverse]
        at hdepth
      exact absurd (List.mem_of_getElem? hdepth) h

theorem step_passRoot {root : α} (h : root ∈ entered) :
    (standing (root :: roots) [] entered found).step successors =
      standing roots [] entered found := by
  simp [Search.step, standing, h]

theorem step_enterRoot {root : α} (h : root ∉ entered) :
    (standing (root :: roots) [] entered found).step successors =
      standing roots [⟨root, successors root⟩] (root :: entered) found := by
  simp [Search.step, standing, h, Search.enter, depthsOf]

theorem step_close (hwalk : node :: below.map Frame.node = walk.reverse)
    (hnodup : walk.Nodup) (h : next ∈ walk) :
    (standing roots (⟨node, next :: pending⟩ :: below) entered found).step
      successors = standing roots (⟨node, pending⟩ :: below) entered
        (closing walk next :: found) := by
  have hdepth := lookup_depthsOf_of_mem hnodup h
  rw [Search.step, standing, standing, List.map_cons, hwalk]
  simp only [Search.depth?, hdepth, Search.closed_eq,
    Search.path, List.map_cons, hwalk, List.reverse_reverse, closing]

theorem step_pass (hwalk : node :: below.map Frame.node = walk.reverse)
    (hnodup : walk.Nodup) (hnew : next ∉ walk) (h : next ∈ entered) :
    (standing roots (⟨node, next :: pending⟩ :: below) entered found).step
      successors = standing roots (⟨node, pending⟩ :: below) entered found := by
  have hdepth := lookup_depthsOf_of_notMem hnodup hnew
  rw [Search.step, standing, standing, List.map_cons, hwalk]
  simp only [Search.depth?, hdepth, h, if_true, List.map_cons, hwalk]

theorem step_enter (hwalk : node :: below.map Frame.node = walk.reverse)
    (hnodup : walk.Nodup) (hnew : next ∉ walk) (h : next ∉ entered) :
    (standing roots (⟨node, next :: pending⟩ :: below) entered found).step
      successors =
      standing roots (⟨next, successors next⟩ :: ⟨node, pending⟩ :: below)
        (next :: entered) found := by
  have hdepth := lookup_depthsOf_of_notMem hnodup hnew
  rw [Search.step, standing, standing, List.map_cons, hwalk]
  simp only [Search.depth?, hdepth, h, if_false, Search.enter, List.map_cons,
    depthsOf]
  simp [← hwalk, depthsOf]

theorem step_leave (h : node ∉ below.map Frame.node) :
    (standing roots (⟨node, []⟩ :: below) entered found).step successors =
      standing roots below entered found := by
  simpa [Search.step, standing] using filter_depthsOf h

end Standing

/-! ## Walks down and back -/

section Walks

variable {successors : α → List α} {roots entered pending walk : List α}
  {node : α} {below : List (Frame α)} {found : List (List α)}

theorem steps_leaf {leaf : α}
    (hwalk : node :: below.map Frame.node = walk.reverse) (hnodup : walk.Nodup)
    (hnew : leaf ∉ walk) (hentered : leaf ∉ entered)
    (hleaf : successors leaf = []) :
    Steps successors
      (standing roots (⟨node, leaf :: pending⟩ :: below) entered found)
      (standing roots (⟨node, pending⟩ :: below) (leaf :: entered) found) := by
  have henter :
      (standing roots (⟨node, leaf :: pending⟩ :: below) entered found).step
      successors = standing roots (⟨leaf, []⟩ :: ⟨node, pending⟩ :: below)
          (leaf :: entered) found := by
    rw [step_enter hwalk hnodup hnew hentered, hleaf]
  refine .trans (.one henter) (.one (step_leave ?_))
  rw [List.map_cons, hwalk]
  exact mt List.mem_reverse.mp hnew

theorem steps_pending (hwalk : node :: below.map Frame.node = walk.reverse)
    (hnodup : walk.Nodup) (hflat : ∀ next ∈ pending,
      next ∈ walk ∨ next ∈ entered ∨ successors next = []) :
    ∃ entered', (∀ other ∈ entered, other ∈ entered') ∧
      Steps successors (standing roots (⟨node, pending⟩ :: below) entered found)
        (standing roots below entered'
          ((closings walk pending).reverse ++ found)) := by
  induction pending generalizing entered found with
  | nil =>
      have hpath := List.nodup_reverse.mpr hnodup
      rw [← hwalk] at hpath
      exact ⟨entered, fun _ h => h,
        .one (step_leave (List.nodup_cons.mp hpath).1)⟩
  | cons next pending ih =>
      obtain ⟨hnext, hlater⟩ := List.forall_mem_cons.mp hflat
      by_cases hmem : next ∈ walk
      · obtain ⟨entered', hsub, hsteps⟩ :=
          @ih entered (closing walk next :: found) hlater
        refine ⟨entered', hsub, .trans (.one (step_close hwalk hnodup hmem)) ?_⟩
        rwa [closings_cons_of_mem hmem, List.reverse_cons, List.append_assoc]
      · rw [closings_cons_of_notMem hmem]
        by_cases hentered : next ∈ entered
        · obtain ⟨entered', hsub, hsteps⟩ := ih hlater
          exact ⟨entered', hsub,
            .trans (.one (step_pass hwalk hnodup hmem hentered)) hsteps⟩
        · have hleaf : successors next = [] :=
            (hnext.resolve_left hmem).resolve_left hentered
          obtain ⟨entered', hsub, hsteps⟩ := @ih (next :: entered) found
            fun other hother => (hlater other hother).imp_right
              (Or.imp_left (List.mem_cons_of_mem next))
          exact ⟨entered', fun other hother =>
            hsub _ (List.mem_cons_of_mem _ hother),
            .trans (steps_leaf hwalk hnodup hmem hentered hleaf) hsteps⟩

/-- Each node of a spine is followed first of all by the next, and all else that
follows it is on the spine or leads nowhere. -/
structure IsSpine (successors : α → List α) (spine : List α) : Prop where
  nodup : spine.Nodup
  walk : spine.IsChain fun node next => (successors node).head? = some next
  flat : ∀ node ∈ spine, ∀ next ∈ successors node,
    next ∈ spine ∨ successors next = []

omit [DecidableEq α] in
theorem IsSpine.exists_successors {before after : List α} {next : α}
    (h : IsSpine successors (before ++ node :: next :: after)) :
    ∃ rest, successors node = next :: rest := by
  have hhead := (List.isChain_cons_cons.mp h.walk.right_of_append).1
  exact List.head?_eq_some_iff.mp hhead

omit [DecidableEq α] in
theorem IsSpine.mem_walk {before after : List α}
    (h : IsSpine successors (before ++ node :: after)) {next : α}
    (hnext : next ∈ successors node) :
    next ∈ before ++ [node] ∨ next ∈ after ∨ successors next = [] := by
  have hflat :=
    h.flat node (List.mem_append_right _ List.mem_cons_self) next hnext
  rwa [List.append_cons, List.mem_append, or_assoc] at hflat

theorem steps_spine {before after : List α}
    (h : IsSpine successors (before ++ node :: after))
    (hbelow : below.map Frame.node = before.reverse)
    (hnew : ∀ other ∈ after, other ∉ entered) :
    ∃ entered', (∀ other ∈ after ++ node :: entered, other ∈ entered') ∧
      Steps successors
        (standing roots (⟨node, successors node⟩ :: below) (node :: entered)
          found)
        (standing roots below entered'
          ((spineCycles successors before (node :: after)).reverse ++
            found)) := by
  induction after generalizing node before below entered found with
  | nil =>
      have hwalk :
          node :: below.map Frame.node = (before ++ [node]).reverse := by
        simp [hbelow]
      have hflat (next : α) (hnext : next ∈ successors node) :
          next ∈ before ++ [node] ∨ next ∈ node :: entered ∨
            successors next = [] :=
        (h.mem_walk hnext).imp_right (Or.imp_left nofun)
      exact steps_pending hwalk h.nodup hflat
  | cons next after ih =>
      obtain ⟨rest, hsuccessors⟩ := h.exists_successors
      have hwalk :
          node :: below.map Frame.node = (before ++ [node]).reverse := by
        simp [hbelow]
      have hspine :
          IsSpine successors ((before ++ [node]) ++ next :: after) := by
        rwa [← List.append_cons]
      have hnodup := List.nodup_append.mp hspine.nodup
      have hnext : next ∉ before ++ [node] := fun hmem =>
        hnodup.2.2 next hmem next List.mem_cons_self rfl
      have hentered : ∀ other ∈ next :: after, other ∉ node :: entered := by
        intro other hother hmem
        rcases List.mem_cons.mp hmem with rfl | hmem
        · exact hnodup.2.2 other (by simp) other hother rfl
        · exact hnew other hother hmem
      -- down to the end of the spine and back to this node
      obtain ⟨entered₁, hsub₁, hdown⟩ := @ih (node :: entered) next
        (⟨node, rest⟩ :: below) found (before ++ [node]) hspine hwalk
        fun other hother => hentered other (List.mem_cons_of_mem _ hother)
      have hseen (other : α)
          (hother : other ∈ (next :: after) ++ node :: entered) :
          other ∈ after ++ next :: node :: entered :=
        List.perm_middle.mem_iff.mpr hother
      have hflat (other : α) (hother : other ∈ rest) :
          other ∈ before ++ [node] ∨ other ∈ entered₁ ∨
          successors other = [] := by
        have hmem : other ∈ successors node := by
          rw [hsuccessors]
          exact List.mem_cons_of_mem _ hother
        refine (h.mem_walk hmem).imp_right (Or.imp_left fun hafter =>
          hsub₁ other ?_)
        exact hseen other (List.mem_append_left _ hafter)
      -- by now the rest of the spine was entered, so what is left to try here
      -- is flat
      obtain ⟨entered₂, hsub₂, hback⟩ := steps_pending hwalk hnodup.1 hflat
      refine ⟨entered₂,
        fun other hother => hsub₂ other (hsub₁ other (hseen other hother)), ?_⟩
      rw [hsuccessors, spineCycles, hsuccessors, closings_cons_of_notMem hnext,
        List.reverse_append, List.append_assoc]
      exact .trans (.one (step_enter hwalk hnodup.1 hnext
        (hentered next List.mem_cons_self))) (hdown.trans hback)

theorem steps_roots
    (hflat : ∀ root ∈ roots, root ∈ entered ∨ successors root = []) :
    ∃ entered', Steps successors (standing roots [] entered found)
      (standing [] [] entered' found) := by
  induction roots generalizing entered with
  | nil => exact ⟨entered, .refl⟩
  | cons root roots ih =>
      obtain ⟨hroot, hlater⟩ := List.forall_mem_cons.mp hflat
      by_cases hentered : root ∈ entered
      · obtain ⟨entered', hsteps⟩ := ih hlater
        exact ⟨entered', .trans (.one (step_passRoot hentered)) hsteps⟩
      · obtain ⟨entered', hsteps⟩ := @ih (root :: entered) fun other hother =>
          (hlater other hother).imp_left (List.mem_cons_of_mem root)
        have henter :
            (standing (root :: roots) [] entered found).step successors =
            standing roots [⟨root, []⟩] (root :: entered) found := by
          rw [step_enterRoot hentered, hroot.resolve_left hentered]
        exact ⟨entered',
          .trans (.one henter) (.trans (.one (step_leave nofun)) hsteps)⟩

/-- Where a spine is walked first, what is found are the cycles that its nodes
close. -/
theorem find_spine {nodes others after : List α} {first : α}
    (h : IsSpine successors (first :: after))
    (hothers : ∀ root ∈ others, root ∈ first :: after ∨ successors root = [])
    (hnodes : ∀ node, Reachable successors (first :: others) node →
      node ∈ nodes) :
    find successors nodes (first :: others) =
      spineCycles successors [] (first :: after) := by
  obtain ⟨entered₁, hsub, hspine⟩ :=
    @steps_spine α _ successors others [] first []
    [] [] after h rfl nofun
  obtain ⟨entered₂, hroots⟩ := @steps_roots α _ successors others entered₁
    ((spineCycles successors [] (first :: after)).reverse ++ [])
    fun root hroot => (hothers root hroot).imp_left fun hmem => hsub root
      (by simpa [or_comm] using hmem)
  have henter : (Search.start (first :: others)).step successors =
      standing others [⟨first, successors first⟩] [first] [] :=
    step_enterRoot nofun
  -- the bound ends the search somewhere, and a search has one end only
  have hend := Steps.isDone_unique
    (steps_run successors (bound successors nodes (first :: others)) _)
    (.trans (.one henter) (hspine.trans hroots)) (search_isDone hnodes) rfl
  rw [find, search, hend]
  simp [standing]

end Walks

end Workflows.Cycle
