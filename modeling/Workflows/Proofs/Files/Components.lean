import Mathlib.Data.List.Basic
import Workflows.Files.Path

/-!
# Components of joined paths

The components of a path are what it starts with, a slash or a single point, and
those of its segments.  To take a relative path from a base puts the components
of its segments behind those of the base.
-/

namespace Workflows.Path

def leadOf : List Char → List Component
  | '/' :: _ => [.root]
  | '.' :: [] | '.' :: '/' :: _ => [.current]
  | _ => []

def innerOf (path : List Char) : List Component :=
  (segments path).filterMap component?

theorem componentsOf_eq (path : List Char) :
    componentsOf path = leadOf path ++ innerOf path := by
  unfold componentsOf leadOf innerOf
  split <;> simp_all

def Component.isLead : Component → Bool
  | .root | .current => true
  | _ => false

theorem leadOf_relative {path : List Char} (h : isAbsolute path = false) :
    leadOf path = [] ∨ leadOf path = [.current] := by
  unfold leadOf
  split
  · simp [isAbsolute] at h
  · exact .inr rfl
  · exact .inr rfl
  · exact .inl rfl

theorem leadOf_absolute {path : List Char} (h : isAbsolute path = true) :
    leadOf path = [.root] := by
  cases path with
  | nil => simp [isAbsolute] at h
  | cons c rest =>
      obtain rfl : c = '/' := by simpa [isAbsolute] using h
      rfl

theorem isLead_of_mem_leadOf {path : List Char} {x : Component}
    (h : x ∈ leadOf path) :
    x.isLead = true := by
  cases habsolute : isAbsolute path with
  | true =>
      rw [leadOf_absolute habsolute, List.mem_singleton] at h
      rw [h]
      rfl
  | false =>
      rcases leadOf_relative habsolute with hlead | hlead <;> rw [hlead] at h
      · cases h
      · rw [List.mem_singleton.mp h]
        rfl

theorem isLead_of_mem_innerOf {path : List Char} {x : Component}
    (h : x ∈ innerOf path) :
    x.isLead = false := by
  obtain ⟨segment, -, hsegment⟩ := List.mem_filterMap.mp h
  unfold component? at hsegment
  split at hsegment <;> cases hsegment <;> rfl

theorem takeWhile_isLead (path segments : List Char) :
    (leadOf path ++ innerOf segments).takeWhile Component.isLead =
      leadOf path := by
  rw [List.takeWhile_append_of_pos fun x hx => isLead_of_mem_leadOf hx]
  cases hinner : innerOf segments with
  | nil => simp
  | cons x rest =>
      have hx : x.isLead = false :=
        isLead_of_mem_innerOf (hinner ▸ List.mem_cons_self)
      simp [hx]

theorem leadOf_eq {path path' segments segments' : List Char}
    (h : leadOf path ++ innerOf segments = leadOf path' ++ innerOf segments') :
    leadOf path = leadOf path' := by
  rw [← takeWhile_isLead path segments, h, takeWhile_isLead]

theorem isAbsolute_eq_of_leadOf_eq {path path' : List Char}
    (h : leadOf path = leadOf path') :
    isAbsolute path = isAbsolute path' := by
  have hroot (p : List Char) : isAbsolute p = true ↔ leadOf p = [.root] := by
    refine ⟨leadOf_absolute, fun hlead => ?_⟩
    by_contra hnot
    rcases leadOf_relative (by simpa using hnot) with hnone | hcurrent
    · rw [hnone] at hlead
      cases hlead
    · rw [hcurrent] at hlead
      cases hlead
  exact Bool.eq_iff_iff.mpr ((hroot path).trans (h ▸ (hroot path').symm))

theorem innerOf_eq_nil {path : List Char}
    (h : ∀ x ∈ componentsOf path, x = .current) :
    innerOf path = [] := by
  refine List.eq_nil_iff_forall_not_mem.mpr fun x hx => ?_
  have hlead := isLead_of_mem_innerOf hx
  have hcurrent : x = .current := by
    refine h x ?_
    rw [componentsOf_eq]
    exact List.mem_append_right _ hx
  rw [hcurrent] at hlead
  cases hlead

/-! ## Segments -/

theorem segments_ne_nil (path : List Char) : segments path ≠ [] := by
  induction path with
  | nil => simp [segments]
  | cons c rest ih =>
      rw [segments]
      split
      · simp
      · split <;> simp

theorem segments_append_slash (before after : List Char) :
    segments (before ++ '/' :: after) = segments before ++ segments after := by
  induction before with
  | nil => simp [segments]
  | cons c rest ih =>
      rw [List.cons_append, segments, segments]
      split
      · rw [ih, List.cons_append]
      · rw [ih]
        cases hsegments : segments rest with
        | nil => exact absurd hsegments (segments_ne_nil rest)
        | cons first others => rfl

theorem innerOf_append_slash (before after : List Char) :
    innerOf (before ++ '/' :: after) = innerOf before ++ innerOf after := by
  rw [innerOf, segments_append_slash, List.filterMap_append, innerOf, innerOf]

theorem leadOf_append_slash {before : List Char} (h : before ≠ [])
    (after : List Char) :
    leadOf (before ++ '/' :: after) = leadOf before := by
  match before, h with
  | [c], _ =>
      by_cases hslash : c = '/'
      · subst hslash
        rfl
      · by_cases hpoint : c = '.' <;> simp [leadOf, hslash, hpoint]
  | c :: d :: rest, _ =>
      by_cases hslash : c = '/'
      · subst hslash
        rfl
      · by_cases hpoint : c = '.' <;> by_cases hnext : d = '/' <;>
          simp [leadOf, hslash, hpoint, hnext]

/-! ## Joining -/

theorem samePlace_iff {p q : String} :
    samePlace p q = true ↔ components p = components q :=
  beq_iff_eq

theorem join_of_absolute {path : String} (h : isAbsolute path.toList = true)
    (base : String) : join base path = path := if_pos h

theorem join_empty (path : String) : join "" path = path := by
  simp [join]

theorem components_join {base path : String} (hbase : base ≠ "")
    (h : isAbsolute path.toList = false) :
    components (join base path) = components base ++ innerOf path.toList := by
  have hne : base.toList ≠ [] := by simpa using hbase
  unfold components
  rw [componentsOf_eq, componentsOf_eq, List.append_assoc]
  by_cases hlast : base.toList.getLast? = some '/'
  · obtain ⟨before, hbefore⟩ := List.getLast?_eq_some_iff.mp hlast
    have hjoin : (join base path).toList = before ++ '/' :: path.toList := by
      simp [join, h, hbefore]
    have hlead : leadOf (before ++ '/' :: path.toList) =
        leadOf (before ++ ['/']) := by
      by_cases hempty : before = []
      · rw [hempty]
        rfl
      · rw [leadOf_append_slash hempty, leadOf_append_slash hempty]
    have hnothing : innerOf [] = [] := rfl
    rw [hjoin, hbefore, innerOf_append_slash, innerOf_append_slash, hlead,
      hnothing, List.append_nil]
  · have hjoin :
        (join base path).toList = base.toList ++ '/' :: path.toList := by
      simp [join, h, hlast, hbase]
    rw [hjoin, leadOf_append_slash hne, innerOf_append_slash]

end Workflows.Path
