import Workflows.Files.SystemPath
import Workflows.Proofs.Files.Components

/-!
# Paths that are no text

On texts the paths of a system are the paths as text.  A path that is no text
leads elsewhere once it was stored as text, and further away when it is then
taken from its base again.  The components of a path hold all its pieces but
slashes and points, so paths that mean one place have the same stray bytes and
the same replacement characters.
-/

namespace Workflows.SystemPath

@[simp] theorem samePlace_self (p : SystemPath) : samePlace p p = true :=
  beq_self_eq_true _

/-! ## Texts -/

@[simp] theorem shown_ofText (path : String) : (ofText path).shown = path := by
  have hshown : PathPiece.shown ∘ PathPiece.char = id := rfl
  rw [shown, ofText, List.map_map, hshown, List.map_id, String.ofList_toList]

@[simp] theorem isText_ofText (path : String) :
    (ofText path).isText = true := by
  simp [isText, ofText, PathPiece.isChar]

theorem ofText_shown {p : SystemPath} (h : p.isText = true) :
    ofText p.shown = p := by
  rw [ofText, shown, String.toList_ofList, List.map_map]
  refine (List.map_congr_left fun x hx => ?_).trans (List.map_id p)
  cases x with
  | char c => rfl
  | stray bytes => cases List.all_eq_true.mp h _ hx

theorem map_char_injective :
    Function.Injective (List.map PathPiece.char) :=
  List.map_injective_iff.mpr fun _ _ h => PathPiece.char.inj h

@[simp] theorem isAbsolute_ofText (path : String) :
    isAbsolute (ofText path) = Path.isAbsolute path.toList := by
  rw [isAbsolute, ofText, Path.isAbsolute]
  cases path.toList <;> simp [Bool.beq_eq_decide_eq]

theorem join_ofText (base path : String) :
    join (ofText base) (ofText path) = ofText (Path.join base path) := by
  have hempty : (ofText base).isEmpty = base.isEmpty := by
    rw [Bool.eq_iff_iff]
    simp [ofText]
  have hlast : (ofText base).getLast? = some (.char '/') ↔
      base.toList.getLast? = some '/' := by
    simp [ofText]
  rw [join, Path.join, isAbsolute_ofText, hempty]
  simp only [hlast]
  split
  · rfl
  · split <;> simp [ofText]

theorem segments_map_char (path : List Char) :
    segments (path.map .char) = (Path.segments path).map (List.map .char) := by
  induction path with
  | nil => rfl
  | cons c rest ih =>
      rw [List.map_cons, segments, Path.segments, ih]
      by_cases hslash : c = '/'
      · simp [hslash]
      · have hslash' : PathPiece.char c ≠ .char '/' := by simpa using hslash
        rw [if_neg hslash, if_neg hslash']
        cases Path.segments rest <;> rfl

namespace Component

def ofText : Path.Component → Component
  | .root => .root
  | .current => .current
  | .parent => .parent
  | .name text => .name (text.map .char)

theorem ofText_injective : Function.Injective ofText := by
  intro x y h
  cases x <;> cases y <;> simp only [ofText, reduceCtorEq] at h ⊢
  rw [map_char_injective (name.inj h)]

end Component

theorem component?_map_char (segment : List Char) :
    component? (segment.map .char) =
      (Path.component? segment).map Component.ofText := by
  unfold Path.component?
  split
  · rfl
  · rfl
  · rfl
  · next hnil hpoint hpoints =>
      unfold component?
      split
      · next h => exact absurd (List.map_eq_nil_iff.mp h) hnil
      · next h => exact absurd (@map_char_injective _ ['.'] h) hpoint
      · next h => exact absurd (@map_char_injective _ ['.', '.'] h) hpoints
      · rfl

def leadOf : SystemPath → List Component
  | .char '/' :: _ => [.root]
  | .char '.' :: [] | .char '.' :: .char '/' :: _ => [.current]
  | _ => []

theorem components_eq (p : SystemPath) :
    components p = leadOf p ++ (segments p).filterMap component? := by
  unfold components leadOf
  split <;> simp_all

theorem leadOf_map_char (path : List Char) :
    leadOf (path.map .char) = (Path.leadOf path).map Component.ofText := by
  cases path with
  | nil => rfl
  | cons c rest =>
      by_cases hslash : c = '/'
      · subst hslash
        rfl
      by_cases hpoint : c = '.'
      · subst hpoint
        cases rest with
        | nil => rfl
        | cons d rest =>
            by_cases hslash : d = '/' <;>
              simp [leadOf, Path.leadOf, hslash, Component.ofText]
      · simp [leadOf, Path.leadOf, hslash, hpoint]

theorem components_ofText (path : String) :
    components (ofText path) =
      (Path.components path).map Component.ofText := by
  rw [components_eq, Path.components, Path.componentsOf_eq, List.map_append,
    ofText, leadOf_map_char, segments_map_char, Path.innerOf,
    List.filterMap_map, List.map_filterMap]
  congr 2
  exact funext component?_map_char

theorem samePlace_ofText (p q : String) :
    samePlace (ofText p) (ofText q) = Path.samePlace p q := by
  rw [Bool.eq_iff_iff, samePlace, Path.samePlace, beq_iff_eq, beq_iff_eq,
    components_ofText, components_ofText,
    (List.map_injective_iff.mpr Component.ofText_injective).eq_iff]

/-! ## Pieces that the components keep -/

def Component.pieces : Component → SystemPath
  | name pieces => pieces
  | _ => []

section

variable {keep : PathPiece → Bool}

theorem filter_flatten_segments (hslash : keep (.char '/') = false)
    (p : SystemPath) : (segments p).flatten.filter keep = p.filter keep := by
  induction p with
  | nil => rfl
  | cons x rest ih =>
      rw [segments]
      split
      · next hx => simp [hx, hslash, ih]
      · rw [List.filter_cons, ← ih]
        cases segments rest with
        | nil => simp [List.filter_cons]
        | cons first others => simp [List.filter_cons]

theorem filter_component? (hpoint : keep (.char '.') = false)
    (segment : SystemPath) :
    ((component? segment).toList.flatMap Component.pieces).filter keep =
      segment.filter keep := by
  unfold component?
  split <;> simp [Component.pieces, hpoint]

theorem filter_components (hslash : keep (.char '/') = false)
    (hpoint : keep (.char '.') = false) (p : SystemPath) :
    ((components p).flatMap Component.pieces).filter keep = p.filter keep := by
  have hlead : (leadOf p).flatMap Component.pieces = [] := by
    unfold leadOf
    split <;> rfl
  rw [components_eq, List.flatMap_append, hlead, List.nil_append,
    ← filter_flatten_segments hslash p]
  induction segments p with
  | nil => rfl
  | cons segment rest ih =>
      rw [List.flatten_cons, List.filter_append, ← ih,
        ← filter_component? hpoint segment, List.filterMap_cons]
      cases component? segment <;> simp

theorem filter_eq_of_samePlace (hslash : keep (.char '/') = false)
    (hpoint : keep (.char '.') = false) {p q : SystemPath}
    (h : samePlace p q = true) : p.filter keep = q.filter keep := by
  rw [← filter_components hslash hpoint p, beq_iff_eq.mp h,
    filter_components hslash hpoint q]

theorem filter_join (hslash : keep (.char '/') = false) (base : SystemPath)
    {path : SystemPath} (h : isAbsolute path = false) :
    (join base path).filter keep = base.filter keep ++ path.filter keep := by
  rw [join, h, if_neg (by simp)]
  split <;> simp [hslash]

end

/-! ## Stored paths -/

def strays (p : SystemPath) : SystemPath := p.filter fun x => !x.isChar

theorem isText_iff {p : SystemPath} : p.isText = true ↔ strays p = [] := by
  rw [isText, List.all_eq_true, strays, List.filter_eq_nil_iff]
  simp

theorem isText_of_samePlace {p q : SystemPath} (h : samePlace p q = true)
    (hp : p.isText = true) : q.isText = true := by
  rw [isText_iff] at hp ⊢
  rw [← hp]
  exact (filter_eq_of_samePlace rfl rfl h).symm

theorem isText_join {base path : SystemPath} (hbase : base.isText = true)
    (hpath : path.isText = true) : (join base path).isText = true := by
  rw [← ofText_shown hbase, ← ofText_shown hpath, join_ofText, isText_ofText]

theorem samePlace_shown_iff {p : SystemPath} :
    samePlace (ofText p.shown) p = true ↔ p.isText = true := by
  refine ⟨fun h => isText_of_samePlace h (isText_ofText _), fun h => ?_⟩
  rw [ofText_shown h, samePlace_self]

def replacements (p : SystemPath) : SystemPath :=
  p.filter fun x => x.shown == '\uFFFD'

theorem replacements_eq_of_samePlace {p q : SystemPath}
    (h : samePlace p q = true) : replacements p = replacements q :=
  filter_eq_of_samePlace rfl rfl h

theorem replacements_join (base : SystemPath) {path : SystemPath}
    (h : isAbsolute path = false) :
    replacements (join base path) = replacements base ++ replacements path :=
  filter_join rfl base h

theorem length_replacements_shown (p : SystemPath) :
    (replacements (ofText p.shown)).length = (replacements p).length := by
  rw [replacements, replacements, ofText, shown, String.toList_ofList,
    List.map_map, ← List.countP_eq_length_filter,
    ← List.countP_eq_length_filter, List.countP_map]
  rfl

theorem isAbsolute_shown (p : SystemPath) :
    isAbsolute (ofText p.shown) = isAbsolute p := by
  cases p with
  | nil => rfl
  | cons x rest => cases x <;> simp [isAbsolute, ofText, shown, PathPiece.shown]

theorem isText_of_replacements_eq_nil {p : SystemPath}
    (h : replacements p = []) : p.isText = true := by
  rw [isText_iff, strays, List.filter_eq_nil_iff]
  intro x hx
  have hshown := List.filter_eq_nil_iff.mp h x hx
  cases x with
  | char c => simp [PathPiece.isChar]
  | stray bytes => exact absurd rfl hshown

/-- A path from a base that is no text, shown as text and taken from the base
again. -/
theorem not_samePlace_join_shown {base path : SystemPath}
    (hpath : path.isText = true) (h : (join base path).isText = false) :
    samePlace (join base (ofText (join base path).shown)) (join base path) =
      false := by
  refine Bool.eq_false_iff.mpr fun hsame => ?_
  cases hjoin : isAbsolute (join base path) with
  | true =>
      have htext : join base (ofText (join base path).shown) =
          ofText (join base path).shown :=
        if_pos (by rw [isAbsolute_shown, hjoin])
      rw [htext, samePlace_shown_iff, h] at hsame
      cases hsame
  | false =>
      -- the replacement characters of the base are there twice on one side
      have htwice := congrArg List.length (replacements_eq_of_samePlace hsame)
      rw [replacements_join base (by rw [isAbsolute_shown, hjoin]),
        List.length_append, length_replacements_shown] at htwice
      have hbase : base.isText = true :=
        isText_of_replacements_eq_nil (List.length_eq_zero_iff.mp (by omega))
      rw [isText_join hbase hpath] at h
      cases h

end Workflows.SystemPath
