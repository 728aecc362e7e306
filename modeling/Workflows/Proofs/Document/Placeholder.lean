import Workflows.Files.Placeholder
import Workflows.Proofs.Document.Enclosed
import Workflows.Proofs.Yaml.Fields
import Workflows.Proofs.Yaml.Values
import Workflows.Workflow.Reference

/-!
# Placeholders as documents

The document of a placeholder has the name as it is, in its front matter and in
its heading.  It is read as a workflow of that name where the front matter gives
the name back or no text at all, so that the heading counts.
-/

namespace Workflows.Document

open Text

/-! ## Names -/

/-- A name on one line, without blanks at its ends. -/
structure IsName (name : List Char) : Prop where
  ne_nil : name ≠ []
  line : ∀ c ∈ name, Yaml.isBreak c = false
  first : ∀ c ∈ name.head?, isBlank c = false
  last : ∀ c ∈ name.getLast?, isBlank c = false

structure IsPlainName (name : List Char) : Prop extends IsName name where
  starts : Yaml.Lexer.startsPlain false name = true
  not_dash : name ≠ ['-']

/-- The value of a plain scalar on a line of its own; there is none where the
text breaks off before a colon. -/
def lineValue? (text : List Char) : Option Json :=
  if (Yaml.plainLine true text).2.head? = some ':' then none
  else Yaml.plainValue? (String.ofList (Yaml.plainLine true text).1)

def nameValue? (name : List Char) : Option Json :=
  if name.all Yaml.isAllowed then lineValue? name else none

/-- The name has a value in front matter, and the text of that, if it has one,
is the name. -/
def isLegible (name : String) : Bool :=
  (nameValue? name.toList).any fun value => (scalarText? value).all (· == name)

/-- The text is read as a workflow of the name and of version 0.0.0, with
neither steps nor dependencies. -/
def ReadsAs (name text : String) : Prop :=
  ∃ w, parse text (some .markdown) = .ok w ∧ w.name = name ∧
  w.version = some "0.0.0" ∧
    w.steps = [] ∧ w.dependencies = []

section WordName

variable {name : String} {c : Char} {rest : List Char}
  (hname : name.toList = c :: rest) (hletter : c.isAlpha = true)
  (hword : ∀ d ∈ name.toList, Yaml.isWordChar d = true)

include hname hletter hword

theorem isPlainName_of_isWordChar : IsPlainName name.toList := by
  have hblank : ∀ d ∈ name.toList, isBlank d = false := by
    intro d hd
    have hrange := Yaml.toNat_of_isWordChar (hword d hd)
    simp only [isBlank, Bool.or_eq_false_iff, Bool.and_eq_false_iff,
      decide_eq_false_iff_not, beq_eq_false_iff_ne]
    omega
  refine ⟨⟨?_, fun d hd => Yaml.isBreak_of_isWordChar (hword d hd),
    fun d hd => hblank d (List.mem_of_mem_head? hd),
    fun d hd => hblank d (List.mem_of_getLast? hd)⟩, ?_, ?_⟩
  · rw [hname]
    exact List.cons_ne_nil c rest
  · rw [hname]
    exact Yaml.startsPlain_of_isAlpha hletter rest
  · rw [hname]
    intro hdash
    exact Yaml.ne_of_isAlpha hletter rfl (List.cons.inj hdash).1

theorem isLegible_of_isWordChar (htruth : Yaml.truthWord? name = none) :
    isLegible name = true := by
  have hallowed : name.toList.all Yaml.isAllowed = true :=
    List.all_eq_true.mpr fun d hd => Yaml.isAllowed_of_isWordChar (hword d hd)
  have hvalue : nameValue? name.toList = Yaml.plainValue? name := by
    rw [nameValue?, if_pos hallowed, lineValue?,
      Yaml.plainLine_of_isWordChar hword, String.ofList_toList]
    rfl
  rw [isLegible, hvalue]
  cases hnull : Yaml.isNullWord name with
  | true =>
      rw [Yaml.plainValue?, hnull, Bool.or_true]
      rfl
  | false =>
      rw [Yaml.plainValue?_of_isAlpha hname hletter hnull htruth]
      simp [scalarText?]

end WordName

example : isLegible "null" = true ∧ isLegible "True" = false ∧
    isLegible "helper #2" = false := by
  decide +kernel

/-! ## Lines -/

theorem trimEnd_prefix (s : List Char) : trimEnd s <+: s := by
  rw [trimEnd, ← List.reverse_suffix, List.reverse_reverse]
  exact List.dropWhile_suffix isBlank

theorem isCloser_cons {c : Char} (hdash : c ≠ '-') (hpoint : c ≠ '.')
    (rest : List Char) :
    isCloser (c :: rest) = false := by
  have hne {d : Char} {more : List Char} (hd : c ≠ d) :
      trimEnd (c :: rest) ≠ d :: more := by
    intro heq
    obtain ⟨left, hleft⟩ := heq ▸ trimEnd_prefix (c :: rest)
    exact hd (List.cons.inj hleft).1.symm
  rw [isCloser, beq_false_of_ne (hne hdash), beq_false_of_ne (hne hpoint)]
  rfl

theorem isBreak_of_all {line : List Char}
    (h : line.all (!Yaml.isBreak ·) = true) :
    ∀ c ∈ line, Yaml.isBreak c = false := by
  simpa using h

section LinesOf

variable {line rest : List Char} {ls : List (List Char)}

theorem newline_notMem_of_isBreak (hline : ∀ c ∈ line, Yaml.isBreak c = false) :
    '\n' ∉ line := by
  intro hmem
  cases hline '\n' hmem

theorem withoutReturn_of_isBreak (hline : ∀ c ∈ line, Yaml.isBreak c = false) :
    withoutReturn line = line := by
  apply withoutReturn_eq_self
  intro hlast
  cases hline '\r' (List.mem_of_getLast? hlast)

theorem lines_cons (hline : ∀ c ∈ line, Yaml.isBreak c = false)
    (rest : List Char) :
    lines (line ++ '\n' :: rest) = line :: lines rest := by
  rw [lines_line (newline_notMem_of_isBreak hline),
    withoutReturn_of_isBreak hline]

theorem lines_flatMap (hls : ∀ line ∈ ls, ∀ c ∈ line, Yaml.isBreak c = false) :
    lines (ls.flatMap (· ++ ['\n'])) = ls := by
  have hsame : ls.map withoutReturn = ls.map id :=
    List.map_congr_left fun line hline =>
      withoutReturn_of_isBreak (hls line hline)
  have hread := lines_flatMap_append
    (fun line hline => newline_notMem_of_isBreak (hls line hline)) []
  simpa [hsame] using hread

theorem lines_joinLines (hls : ∀ line ∈ ls, ∀ c ∈ line, Yaml.isBreak c = false)
    (hlast : ls.getLast? ≠ some []) : lines (joinLines ls) = ls := by
  induction ls with
  | nil => rfl
  | cons line ls ih =>
      obtain ⟨hline, hmore⟩ := List.forall_mem_cons.mp hls
      cases ls with
      | nil =>
          have hne : line ≠ [] := by simpa using hlast
          have hjoin : joinLines [line] = line ++ [] := by
            simp [joinLines, List.intercalate]
          rw [hjoin, lines, linesFrom_append (newline_notMem_of_isBreak hline),
            linesFrom]
          simp [hne]
      | cons next ls =>
          rw [joinLines_cons (List.cons_ne_nil next ls), lines_cons hline,
            ih hmore (by simpa using hlast)]

theorem all_joinLines {p : Char → Bool} (hp : p '\n' = true)
    (ls : List (List Char)) :
    (joinLines ls).all p = ls.all (·.all p) := by
  induction ls with
  | nil => rfl
  | cons line ls ih =>
      cases ls with
      | nil => simp [joinLines, List.intercalate]
      | cons next ls =>
          rw [joinLines_cons (List.cons_ne_nil next ls), List.all_append,
            List.all_cons, hp, ih]
          rfl

end LinesOf

/-! ## The parts of the document -/

def placeholderDescription (kind : DependencyKind) : String :=
  "Placeholder " ++ kind.name ++ " created for a missing dependency"

def placeholderFields (name : List Char) (kind : DependencyKind) :
    List Yaml.Field :=
  [⟨"name".toList, name⟩,
    ⟨"description".toList, (placeholderDescription kind).toList⟩,
    ⟨"version".toList, "0.0.0".toList⟩]

def placeholderBody (name : List Char) (kind : DependencyKind) :
    List (List Char) :=
  [[], '#' :: ' ' :: name, [],
    ("This " ++ kind.name ++
      " is a placeholder. Replace it with a real definition.").toList]

section Parts

variable {name : List Char} {kind : DependencyKind}

theorem toList_documentText (name : String) (kind : DependencyKind) :
    (Placeholder.documentText name kind.name).toList =
      (['-', '-', '-'] ::
        ((placeholderFields name.toList kind).map Yaml.Field.line ++
        ['-', '-', '-'] :: placeholderBody name.toList kind)).flatMap
          (· ++ ['\n']) := by
  have hopening : "---\nname: ".toList =
      '-' :: '-' :: '-' :: '\n' :: "name".toList ++ [':', ' '] := by
    decide
  have hdescription : "\ndescription: Placeholder ".toList =
      '\n' :: "description".toList ++ ':' :: ' ' :: "Placeholder ".toList := by
    decide
  have hversion :
      " created for a missing dependency\nversion: 0.0.0\n---\n\n# ".toList =
      " created for a missing dependency".toList ++ '\n' :: "version".toList ++
        ':' :: ' ' :: "0.0.0".toList ++ ['\n', '-', '-',
          '-', '\n', '\n', '#', ' '] := by
    decide
  have hbody : "\n\nThis ".toList = '\n' :: '\n' :: "This ".toList := by decide
  have hlast :
      " is a placeholder. Replace it with a real definition.\n".toList =
      " is a placeholder. Replace it with a real definition.".toList ++
        ['\n'] := by
    decide
  unfold Placeholder.documentText
  simp only [String.toList_append, hopening, hdescription, hversion,
    hbody, hlast, placeholderFields, placeholderDescription, placeholderBody,
    Yaml.Field.line, List.map_cons, List.map_nil, List.flatMap_cons,
    List.flatMap_nil, List.append_assoc, List.cons_append, List.nil_append,
    List.append_nil]

theorem isPlain_placeholderFields (hname : IsPlainName name)
    (kind : DependencyKind) :
    ∀ f ∈ placeholderFields name kind, f.IsPlain := by
  refine List.forall_mem_cons.mpr ⟨?_, List.forall_mem_cons.mpr ⟨?_,
    List.forall_mem_singleton.mpr ?_⟩⟩
  · exact ⟨by simp, by simp, by simp, hname.starts, hname.not_dash, hname.line⟩
  · have hkey : "description".toList ≠ [] ∧ "description".toList.length ≤
        1024 := by decide
    cases kind <;>
      exact ⟨hkey.1, hkey.2, by simp, by decide,
        by decide, isBreak_of_all (by decide)⟩
  · exact ⟨by decide, by decide, by simp, by decide,
      by decide, isBreak_of_all (by decide)⟩

theorem isBreak_of_mem_line {f : Yaml.Field} (hf : f.IsPlain) :
    ∀ c ∈ f.line, Yaml.isBreak c = false := by
  intro c hc
  rcases List.mem_append.mp hc with hkey | hrest
  · exact Yaml.isBreak_of_isAlpha (hf.key_alpha c hkey)
  · rcases List.mem_cons.mp hrest with rfl | hrest
    · rfl
    · rcases List.mem_cons.mp hrest with rfl | hvalue
      · rfl
      · exact hf.value_line c hvalue

theorem isCloser_line {f : Yaml.Field} (hf : f.IsPlain) :
    isCloser f.line = false := by
  obtain ⟨c, key, hkey⟩ := List.exists_cons_of_ne_nil hf.key_ne
  have hletter := hf.key_alpha c (by simp [hkey])
  rw [Yaml.Field.line, hkey, List.cons_append]
  exact isCloser_cons (Yaml.ne_of_isAlpha hletter rfl)
    (Yaml.ne_of_isAlpha hletter rfl) _

theorem isBreak_of_mem_placeholderBody
    (hname : ∀ c ∈ name, Yaml.isBreak c = false) :
    ∀ line ∈ placeholderBody name kind, ∀ c ∈ line, Yaml.isBreak c = false := by
  have hheading : ∀ c ∈ '#' :: ' ' :: name, Yaml.isBreak c = false :=
    List.forall_mem_cons.mpr ⟨rfl, List.forall_mem_cons.mpr ⟨rfl, hname⟩⟩
  have hlast : ∀ c ∈ ("This " ++ kind.name ++
      " is a placeholder. Replace it with a real definition.").toList,
        Yaml.isBreak c = false := by
    cases kind <;> exact isBreak_of_all (by decide)
  exact List.forall_mem_cons.mpr ⟨List.forall_mem_nil _,
    List.forall_mem_cons.mpr ⟨hheading,
      List.forall_mem_cons.mpr ⟨List.forall_mem_nil _,
        List.forall_mem_singleton.mpr hlast⟩⟩⟩

theorem hasFront_documentText {name : String} (hname : IsPlainName name.toList)
    (kind : DependencyKind) :
    HasFront (Placeholder.documentText name kind.name).toList
      ((placeholderFields name.toList kind).map Yaml.Field.line)
      (placeholderBody name.toList kind) := by
  have hplain := isPlain_placeholderFields hname kind
  have hdelimiter : ∀ c ∈ ['-', '-', '-'], Yaml.isBreak c = false :=
    isBreak_of_all (by decide)
  have hlines : lines (Placeholder.documentText name kind.name).toList =
      ['-', '-', '-'] ::
        ((placeholderFields name.toList kind).map Yaml.Field.line ++
        ['-', '-', '-'] :: placeholderBody name.toList kind) := by
    rw [toList_documentText name]
    refine lines_flatMap (List.forall_mem_cons.mpr ⟨hdelimiter, ?_⟩)
    rw [List.forall_mem_append, List.forall_mem_cons, List.forall_mem_map]
    exact ⟨fun f hf => isBreak_of_mem_line (hplain f hf), hdelimiter,
      isBreak_of_mem_placeholderBody hname.line⟩
  have hmark :
      (Placeholder.documentText name kind.name).toList.dropWhile
        isByteOrderMark = (Placeholder.documentText name kind.name).toList := by
    rw [toList_documentText name]
    rfl
  have hcontent :
      contentLines (Placeholder.documentText name kind.name).toList =
      ['-', '-', '-'] ::
        ((placeholderFields name.toList kind).map Yaml.Field.line ++
        ['-', '-', '-'] :: placeholderBody name.toList kind) := by
    rw [contentLines, hmark, hlines]
    rfl
  refine ⟨hcontent, by decide, by decide, ?_⟩
  rw [List.forall_mem_map]
  exact fun f hf => isCloser_line (hplain f hf)

/-! ## The fields -/

def placeholderMembers (value : Json) (kind : DependencyKind) :
    List (String × Json) :=
  [("description", .str (placeholderDescription kind)), ("name", value),
    ("version", .str "0.0.0")]

theorem isAtom_of_lineValue? {text : List Char} {value : Json}
    (h : lineValue? text = some value) :
    value.IsAtom :=
  Yaml.isAtom_of_plainValue? (Option.ite_none_left_eq_some.mp h).2

theorem canonicalMembers_placeholder {value : Json} (h : value.IsAtom)
    (kind : DependencyKind) :
    Json.canonicalMembers [("name", value),
      ("description", .str (placeholderDescription kind)),
      ("version", .str "0.0.0")] = placeholderMembers value kind := by
  have hvalue : value.canonical = value := h.inOrder.canonical_eq
  have hsorted : Json.canonicalMembers [("name", value),
      ("description", .str (placeholderDescription kind)),
      ("version", .str "0.0.0")] =
        placeholderMembers value.canonical kind := rfl
  rw [hsorted, hvalue]

theorem plainValue?_placeholderDescription :
    Yaml.plainValue? (placeholderDescription kind) =
      some (.str (placeholderDescription kind)) := by
  cases kind <;>
    exact Yaml.plainValue?_of_isAlpha (c := 'P') rfl (by decide) (by decide)
      (by decide)

theorem plainValue?_placeholderVersion :
    Yaml.plainValue? "0.0.0" = some (.str "0.0.0") := by
  have hreal : Yaml.real? "0.0.0" = none := by
    rw [Yaml.real?_of_unsigned (c := '0') rfl (by decide) (by decide)
      (by decide)]
    rfl
  exact Yaml.plainValue?_eq_str (by decide) (by decide) (by decide) hreal
    (by decide)

theorem mapM_placeholderFields (name : List Char) :
    (placeholderFields name kind).mapM Yaml.Field.member? =
      (lineValue? name).map fun value => [("name", value),
        ("description", .str (placeholderDescription kind)),
        ("version", .str "0.0.0")] := by
  have hname : Yaml.Field.member? ⟨"name".toList, name⟩ =
      (lineValue? name).map ("name", ·) := by
    rw [Yaml.Field.member?, Yaml.Field.entry?, lineValue?]
    split
    · rfl
    · simp [Yaml.Node.entryMember?]
  have hdescription : Yaml.Field.member?
      ⟨"description".toList, (placeholderDescription kind).toList⟩ =
        some ("description", .str (placeholderDescription kind)) :=
    Yaml.Field.member?_text (by cases kind <;> decide)
      plainValue?_placeholderDescription
  have hversion : Yaml.Field.member? ⟨"version".toList, "0.0.0".toList⟩ =
      some ("version", .str "0.0.0") :=
    Yaml.Field.member?_text (by decide) plainValue?_placeholderVersion
  simp only [placeholderFields, List.mapM_cons, List.mapM_nil,
    hname, hdescription, hversion]
  cases lineValue? name <;> rfl

theorem all_isAllowed_placeholderFields (name : List Char)
    (kind : DependencyKind) :
    (joinLines ((placeholderFields name kind).map Yaml.Field.line)).all
      Yaml.isAllowed = name.all Yaml.isAllowed := by
  have hdescription : (placeholderDescription kind).toList.all Yaml.isAllowed =
      true := by
    cases kind <;> decide
  have hversion : "0.0.0".toList.all Yaml.isAllowed = true := by decide
  have hline {key : List Char} (value : List Char)
      (hkey : key.all Yaml.isAllowed = true) :
      (Yaml.Field.line ⟨key, value⟩).all Yaml.isAllowed =
        value.all Yaml.isAllowed := by
    rw [Yaml.Field.line, List.all_append, hkey]
    rfl
  rw [all_joinLines rfl, placeholderFields, List.map_cons, List.map_cons,
    List.map_cons, List.all_cons, List.all_cons, List.all_cons,
    hline _ (by decide), hline _ (by decide), hline _ (by decide), hdescription,
    hversion]
  simp

theorem read?_placeholderFields (hname : IsPlainName name) :
    Yaml.read? (joinLines ((placeholderFields name kind).map Yaml.Field.line)) =
      (nameValue? name).map fun value =>
        .obj (placeholderMembers value kind) := by
  have hplain := isPlain_placeholderFields hname kind
  have hallowed := all_isAllowed_placeholderFields name kind
  rw [nameValue?]
  split
  · next hall =>
      rw [hall] at hallowed
      refine (Yaml.read?_fields hplain hallowed).trans ?_
      change ((placeholderFields name kind).mapM Yaml.Field.member?).map _ = _
      rw [mapM_placeholderFields name]
      cases hvalue : lineValue? name with
      | none => rfl
      | some value =>
          simp only [Option.map_some,
            canonicalMembers_placeholder (isAtom_of_lineValue? hvalue)]
  · next hall =>
      rw [Yaml.read?, Yaml.tokens?, hallowed, if_neg hall]
      rfl

theorem trim_placeholderFields :
    (trim (joinLines ((placeholderFields name kind).map
      Yaml.Field.line))).isEmpty = false := by
  rw [Bool.eq_false_iff, ne_eq, List.isEmpty_iff]
  intro hblank
  have hn :
      'n' ∈ joinLines ((placeholderFields name kind).map Yaml.Field.line) := by
    rw [placeholderFields, List.map_cons, joinLines_cons (by simp)]
    simp [Yaml.Field.line]
  exact absurd (blank_of_trim_eq_nil hblank 'n' hn) (by decide)

/-! ## The body -/

theorem lines_placeholderBody (hname : IsName name) :
    lines (joinLines (placeholderBody name kind)) =
      placeholderBody name kind := by
  refine lines_joinLines (isBreak_of_mem_placeholderBody hname.line) ?_
  simp [placeholderBody]

theorem heading?_placeholderBody (hname : IsName name) :
    heading? (joinLines (placeholderBody name kind)) = some name := by
  obtain ⟨c, rest, rfl⟩ := List.exists_cons_of_ne_nil hname.ne_nil
  have hstart : trimStart ('#' :: ' ' :: c :: rest) = '#' :: ' ' :: c :: rest :=
    rfl
  have hline : trim ('#' :: ' ' :: c :: rest) = '#' :: ' ' :: c :: rest := by
    rw [trim, hstart, trimEnd_eq_self]
    simpa using hname.last
  have htitle : trim (c :: rest) = c :: rest := by
    rw [trim, trimStart_eq_self (hname.first c rfl), trimEnd_eq_self hname.last]
  have hblank : trim ([] : List Char) = [] := rfl
  simp only [heading?, lines_placeholderBody hname]
  simp [placeholderBody, hline, htitle, hblank]

theorem proseSteps_placeholderBody (hname : IsName name) :
    proseSteps (joinLines (placeholderBody name kind)) = [] := by
  have hnames : itemNames false (placeholderBody name kind) = [] := by
    cases kind <;> rfl
  rw [proseSteps, lines_placeholderBody hname, hnames]
  rfl

/-! ## The document -/

theorem parse_placeholder {name : String} (hname : IsPlainName name.toList) :
    parse (Placeholder.documentText name kind.name) (some .markdown) =
      match nameValue? name.toList with
      | none => .error .frontMatter
      | some value =>
          .ok (workflowOf (placeholderMembers value kind)
            (some (joinLines (placeholderBody name.toList kind)))) := by
  have hfront := hasFront_documentText hname kind
  have hparse :=
    (parse_of_opens hfront.opens).symm.trans (parse_of_hasFront hfront)
  refine hparse.trans ?_
  rw [frontMapping, if_neg (by simp [trim_placeholderFields]),
    read?_placeholderFields hname]
  cases nameValue? name.toList <;> rfl

theorem workflowOf_placeholder {name : String} (hname : IsName name.toList)
    (value : Json) :
    workflowOf (placeholderMembers value kind)
        (some (joinLines (placeholderBody name.toList kind))) =
      { name := (scalarText? value).getD name
        description := some (placeholderDescription kind)
        version := some "0.0.0"
        author := none
        steps := []
        dependencies := []
        metadata := [] } := by
  have hfield : textField? (placeholderMembers value kind) "name" =
      scalarText? value := rfl
  have htitle : textField? (placeholderMembers value kind) "title" = none := rfl
  have hheading :
      ((some (joinLines (placeholderBody name.toList kind))).bind heading?).map
      String.ofList = some name := by
    rw [Option.bind_some, heading?_placeholderBody hname, Option.map_some,
      String.ofList_toList]
  have hsteps :
      (some (joinLines (placeholderBody name.toList kind))).map proseSteps =
      some [] := by
    rw [Option.map_some, proseSteps_placeholderBody hname]
  rw [workflowOf, hfield, htitle, hheading, hsteps]
  cases scalarText? value <;> rfl

/-- A placeholder is read back as a workflow of its name exactly where the name
is legible. -/
theorem readsAs_documentText_iff {name : String}
    (hname : IsPlainName name.toList) (kind : DependencyKind) :
    ReadsAs name (Placeholder.documentText name kind.name) ↔
    isLegible name = true := by
  unfold ReadsAs
  rw [parse_placeholder hname, isLegible]
  cases nameValue? name.toList with
  | none => simp
  | some value =>
      simp only [workflowOf_placeholder hname.toIsName]
      cases hvalue : scalarText? value <;> simp [hvalue]

end Parts

end Workflows.Document
