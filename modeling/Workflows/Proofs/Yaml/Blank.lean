import Workflows.Proofs.Yaml.Values
import Workflows.Text.Blank

/-!
# Texts of blanks

A reader only moves on, to what is left of its text.  Among blanks it meets no
indicator: what is neither space nor break to it, such as a no-break space, is a
plain scalar.  So the tokens of a text of blanks are scalars, and its value has
no parts.
-/

namespace Workflows.Yaml

open Text

/-! ## Moving on -/

namespace Cursor

theorem skip_rest_suffix (c : Cursor) (count : Nat) :
    (c.skip count).rest <:+ c.rest :=
  List.drop_suffix count c.rest

theorem skipWhile_rest_suffix (c : Cursor) (p : Char → Bool) :
    (c.skipWhile p).rest <:+ c.rest :=
  List.dropWhile_suffix p

theorem skipLine_rest_suffix (c : Cursor) : c.skipLine.rest <:+ c.rest := by
  unfold skipLine
  split
  · next rest hrest =>
      rw [hrest]
      exact ⟨['\r', '\n'], rfl⟩
  · next ch rest _ hrest =>
      split
      · rw [hrest]
        exact List.suffix_cons ch rest
      · exact List.suffix_rfl
  · exact List.suffix_rfl

theorem ite_rest_suffix {c next : Cursor} {cond : Prop} [Decidable cond]
    (h : next.rest <:+ c.rest) :
    (if cond then next else c).rest <:+ c.rest := by
  split
  · exact h
  · exact List.suffix_rfl

end Cursor

theorem Gap.rest_suffix_of_read? {fuel : Nat} {limit : Int} {g g' : Gap}
    {c c' : Cursor} (h : Gap.read? fuel limit g c = some (g', c')) :
    c'.rest <:+ c.rest := by
  induction fuel generalizing g c with
  | zero => cases h
  | succ fuel ih =>
      rw [Gap.read?] at h
      split at h
      · cases h
        exact List.suffix_rfl
      · split at h
        · have hskip := c.skip_rest_suffix 1
          split at h
          · split at h
            · cases h
            · exact (ih h).trans hskip
          · exact (ih h).trans hskip
        · split at h
          · exact (ih h).trans c.skipLine_rest_suffix
          · cases h
            exact List.suffix_rfl

theorem suffix_of_plainRun? {flow : Bool} {s run rest : List Char}
    (h : plainRun? flow s = some (run, rest)) : rest <:+ s := by
  induction s generalizing run with
  | nil =>
      cases h
      exact List.suffix_rfl
  | cons c s ih =>
      unfold plainRun? at h
      extract_lets indicatorFollows at h
      split at h
      · cases h
        exact List.suffix_rfl
      split at h
      · cases h
      split at h
      · cases h
        exact List.suffix_rfl
      · obtain ⟨⟨more, left⟩, hmore, heq⟩ := Option.bind_eq_some_iff.mp h
        cases heq
        exact (ih hmore).trans (List.suffix_cons c s)

theorem rest_suffix_of_plain? {flow : Bool} {indent : Int} {fuel : Nat}
    {gap : Gap} {c c' : Cursor} {found : List Char × Bool}
    (h : plain? flow indent fuel gap c = some (found, c')) :
    c'.rest <:+ c.rest := by
  induction fuel generalizing gap c found with
  | zero => cases h
  | succ fuel ih =>
      rw [plain?] at h
      split at h
      · cases h
        exact List.suffix_rfl
      obtain ⟨⟨run, rest⟩, hrun, h⟩ := Option.bind_eq_some_iff.mp h
      have hrest := suffix_of_plainRun? hrun
      dsimp only at h
      split at h
      · cases h
        exact List.suffix_rfl
      obtain ⟨⟨gap', next⟩, hgap, h⟩ := Option.bind_eq_some_iff.mp h
      have hnext : next.rest <:+ c.rest :=
        (Gap.rest_suffix_of_read? hgap).trans hrest
      dsimp only at h
      split at h
      · cases h
        exact hnext
      · obtain ⟨⟨⟨more, broken⟩, last⟩, hmore, heq⟩ :=
          Option.bind_eq_some_iff.mp h
        cases heq
        exact (ih hmore).trans hnext

/-! ## Tokens -/

def Token.IsScalar : Token → Prop
  | .scalar _ _ => True
  | _ => False

namespace Lexer

theorem skipGap_rest_suffix (flow : Bool) (fuel : Nat) (keyAllowed : Bool)
    (c : Cursor) :
    (skipGap flow fuel keyAllowed c).2.rest <:+ c.rest := by
  induction fuel generalizing keyAllowed c with
  | zero => exact List.suffix_rfl
  | succ fuel ih =>
      unfold skipGap
      extract_lets marked spaced commented
      have hmarked : marked.rest <:+ c.rest :=
        Cursor.ite_rest_suffix (c.skip_rest_suffix 1)
      have hspaced : spaced.rest <:+ c.rest :=
        (marked.skipWhile_rest_suffix _).trans hmarked
      have hcommented : commented.rest <:+ c.rest :=
        (Cursor.ite_rest_suffix (spaced.skipWhile_rest_suffix _)).trans hspaced
      split
      · exact (ih _ _).trans (commented.skipLine_rest_suffix.trans hcommented)
      · exact hcommented

def indicators : List Char :=
  ['%', '-', '.', '[', ']', '{', '}', ',', '?', ':', '*', '&', '!', '|', '>',
    '\x27', '\x22']

theorem ne_indicator {ch : Char} (hblank : isBlank ch = true) :
    ∀ indicator ∈ indicators, ch ≠ indicator := by
  have hindicators : (indicators.all fun indicator => !isBlank indicator) =
      true := by decide
  rintro indicator hmem rfl
  have hnot := List.all_eq_true.mp hindicators ch hmem
  rw [hblank] at hnot
  cases hnot

/-- Outside of all collections, with scalars behind and blanks ahead. -/
structure AmongBlanks (s : Lexer) : Prop where
  outerKeys : s.outerKeys = []
  indent : s.indent = -1
  indents : s.indents = []
  scalars : ∀ t ∈ s.tokens, t.IsScalar
  blanks : ∀ ch ∈ s.cursor.rest, isBlank ch = true

namespace AmongBlanks

variable {s s' : Lexer}

theorem start {text : List Char} (h : ∀ ch ∈ text, isBlank ch = true) :
    AmongBlanks (Lexer.start text) :=
  ⟨rfl, rfl, rfl, (fun _ ht => nomatch ht), h⟩

theorem flow (h : AmongBlanks s) : s.flow = false := by
  simp [Lexer.flow, h.outerKeys]

theorem unroll (h : AmongBlanks s) {column : Int} (hcolumn : -1 ≤ column) :
    s.unroll column = s := by
  have hclosed : closed column s.indent s.indents =
      (0, s.indent, s.indents) := by
    rw [h.indent, h.indents, closed, if_neg (by omega)]
  simp [Lexer.unroll, h.flow, hclosed]

theorem dropKey? (h : AmongBlanks s) (hdrop : s.dropKey? = some s') :
    AmongBlanks s' := by
  unfold Lexer.dropKey? at hdrop
  split at hdrop
  · split at hdrop
    · cases hdrop
    · cases hdrop
      exact ⟨h.outerKeys, h.indent, h.indents, h.scalars, h.blanks⟩
  · cases hdrop
    exact h

theorem saveKey? (h : AmongBlanks s) (hsave : s.saveKey? = some s') :
    AmongBlanks s' := by
  unfold Lexer.saveKey? at hsave
  split at hsave
  · obtain ⟨dropped, hdropped, heq⟩ := Option.bind_eq_some_iff.mp hsave
    have hamong := h.dropKey? hdropped
    cases heq
    exact ⟨hamong.outerKeys, hamong.indent, hamong.indents, hamong.scalars,
      hamong.blanks⟩
  · cases hsave
    exact h

theorem dropStaleKeys? (h : AmongBlanks s)
    (hdrop : s.dropStaleKeys? = some s') :
    AmongBlanks s' := by
  obtain ⟨key, -, hdrop⟩ := Option.bind_eq_some_iff.mp hdrop
  obtain ⟨outerKeys, houter, heq⟩ := Option.bind_eq_some_iff.mp hdrop
  rw [h.outerKeys] at houter
  cases houter
  cases heq
  exact ⟨rfl, h.indent, h.indents, h.scalars, h.blanks⟩

theorem approach? (h : AmongBlanks s) (happroach : s.approach? = some s') :
    AmongBlanks s' := by
  obtain ⟨found, hdropped, heq⟩ := Option.bind_eq_some_iff.mp happroach
  have hrest :=
    skipGap_rest_suffix s.flow (s.cursor.rest.length + 1) s.keyAllowed s.cursor
  have hfound : AmongBlanks found := by
    refine AmongBlanks.dropStaleKeys? ?_ hdropped
    exact ⟨h.outerKeys, h.indent, h.indents, h.scalars,
      fun ch hch => h.blanks ch (hrest.mem hch)⟩
  cases heq
  rw [hfound.unroll (by omega)]
  exact hfound

theorem plainScalar? (h : AmongBlanks s) (hscalar : s.plainScalar? = some s') :
    AmongBlanks s' := by
  obtain ⟨saved, hsaved, hscalar⟩ := Option.bind_eq_some_iff.mp hscalar
  obtain ⟨⟨⟨text, broken⟩, cursor⟩, hplain, heq⟩ :=
    Option.bind_eq_some_iff.mp hscalar
  have hamong := h.saveKey? hsaved
  cases heq
  refine ⟨hamong.outerKeys, hamong.indent, hamong.indents, ?_,
    fun ch hch => hamong.blanks ch ((rest_suffix_of_plain? hplain).mem hch)⟩
  intro t ht
  cases ht with
  | head => trivial
  | tail _ ht => exact hamong.scalars t ht

theorem token?_eq (h : AmongBlanks s) (hrest : s.cursor.rest ≠ []) :
    s.token? = if startsPlain s.flow s.cursor.rest then s.plainScalar?
      else none := by
  obtain ⟨ch, next, hcons⟩ := List.exists_cons_of_ne_nil hrest
  have hne := ne_indicator (h.blanks ch (by simp [hcons]))
  simp only [indicators, List.forall_mem_cons] at hne
  -- a mark of a document starts with a hyphen or a point
  have hmark : s.cursor.atDocumentMark = false := by
    unfold Cursor.atDocumentMark
    rw [hcons]
    split <;> simp_all
  simp [Lexer.token?, hmark, hcons, hne]

theorem token? (h : AmongBlanks s) (hrest : s.cursor.rest ≠ [])
    (htoken : s.token? = some s') :
    AmongBlanks s' := by
  rw [h.token?_eq hrest] at htoken
  split at htoken
  · exact h.plainScalar? htoken
  · cases htoken

theorem run? {fuel : Nat} {tokens : List Token} (h : AmongBlanks s)
    (hrun : Lexer.run? fuel s = some tokens) : ∀ t ∈ tokens, t.IsScalar := by
  induction fuel generalizing s with
  | zero => cases hrun
  | succ fuel ih =>
      rw [Lexer.run?] at hrun
      obtain ⟨near, hnear, hrun⟩ := Option.bind_eq_some_iff.mp hrun
      have hamong := h.approach? hnear
      split at hrun
      · obtain ⟨last, hlast, heq⟩ := Option.bind_eq_some_iff.mp hrun
        rw [hamong.unroll (Int.le_refl _)] at hlast
        cases heq
        exact fun t ht =>
          (hamong.dropKey? hlast).scalars t (List.mem_reverse.mp ht)
      · next hrest =>
          obtain ⟨after, hafter, hrun⟩ := Option.bind_eq_some_iff.mp hrun
          exact ih (hamong.token? (by simpa using hrest) hafter) hrun

end AmongBlanks

end Lexer

theorem isScalar_of_tokens? {text : List Char}
    (htext : ∀ ch ∈ text, isBlank ch = true) {tokens : List Token}
    (h : tokens? text = some tokens) : ∀ t ∈ tokens, t.IsScalar :=
  (Lexer.AmongBlanks.start htext).run? (Option.ite_none_right_eq_some.mp h).2

/-! ## The value -/

theorem Node.exists_scalar_of_document? {tokens : List Token}
    (htokens : ∀ t ∈ tokens, t.IsScalar) {root : Node String}
    (h : Node.document? tokens = some (some root)) :
    ∃ text plain, root = .scalar ⟨none, none⟩ text plain := by
  cases tokens with
  | nil => cases h
  | cons token rest =>
      cases token with
      | scalar text plain =>
          have hroot : (∀ t ∈ rest, Node.isDocumentEnd t = true) ∧
              Node.scalar ⟨none, none⟩ text plain = root := by
            simpa [Node.document?, Node.directives?,
              Node.parse?, Node.properties?] using h
          exact ⟨text, plain, hroot.2.symm⟩
      | _ => exact (htokens _ (List.mem_cons_self ..)).elim

theorem isAtom_of_read?_blank {text : List Char}
    (htext : ∀ ch ∈ text, isBlank ch = true) {j : Json}
    (h : read? text = some j) : j.IsAtom := by
  obtain ⟨tokens, htokens, h⟩ := Option.bind_eq_some_iff.mp h
  obtain ⟨document, hdocument, h⟩ := Option.bind_eq_some_iff.mp h
  cases document with
  | none =>
      cases h
      trivial
  | some root =>
      obtain ⟨s, plain, rfl⟩ :=
        Node.exists_scalar_of_document? (isScalar_of_tokens? htext htokens)
          hdocument
      simp only [Node.link?, Node.linkAnchored, Option.map_some,
        Option.bind_eq_bind, Option.bind_some, Node.value?, Node.follow?,
        Option.pure_def] at h
      obtain ⟨⟨value, left⟩, hvalue, heq⟩ := Option.bind_eq_some_iff.mp h
      obtain ⟨j, hscalar, hpair⟩ := Option.map_eq_some_iff.mp hvalue
      cases hpair
      cases heq
      exact isAtom_of_scalarValue? hscalar

end Workflows.Yaml
