import Mathlib.Data.List.Basic
import Workflows.Diagram.Export
import Workflows.Proofs.Json.Tokens

/-!
# The DOT text loses nothing that it shows

Every part of the text says by itself where it ends, whatever comes behind it: a
quoted string by its quotation mark, which stands after a backslash inside, and
the names of shapes, colours and styles because none begins another.  So two
graphs have the same text only if all that is shown of them is the same.
-/

namespace Workflows

/-! ## Texts that say where they end -/

/-- The text of an item tells what is shown of it, and where it ends. -/
def Legible {α β : Type} (text : α → List Char) (shown : α → β) : Prop :=
  ∀ ⦃a b : α⦄ ⦃r s : List Char⦄, text a ++ r = text b ++ s →
  shown a = shown b ∧ r = s

namespace Legible

variable {α β : Type} {text : α → List Char} {shown : α → β}

theorem of_prefixFree (h : ∀ a b, text a <+: text b → a = b) :
    Legible text id := by
  intro a b r s heq
  have hab : a = b := by
    rcases List.append_eq_append_iff.mp heq with
        ⟨between, hb, -⟩ | ⟨between, ha, -⟩
    · exact h a b ⟨between, hb.symm⟩
    · exact (h b a ⟨between, ha.symm⟩).symm
  rw [hab] at heq
  exact ⟨hab, List.append_cancel_left heq⟩

theorem of_length (n : Nat) (h : ∀ a, (text a).length = n) :
    Legible text text :=
  fun a b _ _ heq => List.append_inj heq ((h a).trans (h b).symm)

theorem flatMap {stop : Char} (h : Legible text shown)
    (hhead : ∀ a, ∃ c ∈ (text a).head?, c ≠ stop) {items others : List α}
    {r s : List Char} (heq : items.flatMap text ++ stop :: r =
      others.flatMap text ++ stop :: s) :
    items.map shown = others.map shown ∧ r = s := by
  have hne : ∀ (a : α) (rest s : List Char), text a ++ rest ≠ stop :: s := by
    intro a rest s heq
    obtain ⟨c, hc, hstop⟩ := hhead a
    obtain ⟨tail, htail⟩ := List.head?_eq_some_iff.mp hc
    rw [htail, List.cons_append] at heq
    exact hstop (List.cons.inj heq).1
  induction items generalizing others with
  | nil =>
      cases others with
      | nil => exact ⟨rfl, (List.cons.inj heq).2⟩
      | cons other others =>
          rw [List.flatMap_cons, List.append_assoc] at heq
          exact absurd heq.symm (hne other _ _)
  | cons item items ih =>
      rw [List.flatMap_cons, List.append_assoc] at heq
      cases others with
      | nil => exact absurd heq (hne item _ _)
      | cons other others =>
          rw [List.flatMap_cons, List.append_assoc] at heq
          obtain ⟨hitem, hrest⟩ := h heq
          obtain ⟨hitems, hend⟩ := ih hrest
          exact ⟨by rw [List.map_cons, List.map_cons, hitem, hitems], hend⟩

end Legible

/-! ## Lines -/

namespace IndentedText

theorem toList_text_line (w : IndentedText) (t : String) :
    (w.line t).text.toList =
      w.text.toList ++
        ((indentation w.level).toList ++ (t.toList ++ ['\n'])) := by
  simp [text, String.toList_join]

theorem toList_text_addLines (w : IndentedText) (ts : List String) :
    (w.addLines ts).text.toList =
      w.text.toList ++ ts.flatMap fun t =>
        (indentation w.level).toList ++ (t.toList ++ ['\n']) := by
  induction ts generalizing w with
  | nil => simp [addLines]
  | cons t ts ih =>
      change ((w.line t).addLines ts).text.toList = _
      rw [ih, toList_text_line, List.flatMap_cons, List.append_assoc]
      rfl

def indented (line : List Char) : List Char := ' ' :: ' ' :: (line ++ ['\n'])

end IndentedText

theorem Legible.indented {α β : Type} {text : α → List Char} {shown : α → β}
    (h : Legible text shown) :
    Legible (fun a => IndentedText.indented (text a)) shown := by
  intro a b r s heq
  simp only [IndentedText.indented, List.cons_append, List.append_assoc,
    List.cons.injEq, true_and] at heq
  obtain ⟨hshown, hrest⟩ := h heq
  exact ⟨hshown, (List.cons.inj hrest).2⟩

/-! ## What is shown -/

def Node.shown (n : Node) : String × String × NodeKind × Bool :=
  (n.id, n.name, n.kind, n.isInvalid)

def Edge.shown (e : Edge) : String × String × EdgeKind × Option String :=
  (e.source, e.target, e.kind, e.label)

def GraphMetadata.shown (m : GraphMetadata) :
    Nat × Nat × Nat × ValidationStatus :=
  (m.complexity, m.totalSteps, m.dependencyCount, m.status)

namespace Dot

open IndentedText
open Json (span_digits toDigits_isDigit)

/-! ## Words -/

/-- The backslashes are doubled first, so those that are put before the
quotation marks stay as they are. -/
theorem escape_eq (s : List Char) :
    escape s = (s.flatMap fun c => if c = '\\' then ['\\', '\\']
      else [c]).flatMap fun c =>
      if c = '\x22' then ['\\', '\x22'] else [c] := by
  rw [escape, List.flatMap_assoc]
  refine congrArg s.flatMap (funext fun c => ?_)
  by_cases hbackslash : c = '\\'
  · subst hbackslash
    rfl
  · by_cases hmark : c = '\x22'
    · subst hmark
      rfl
    · simp [hbackslash, hmark]

theorem legible_escaped :
    Legible (fun c => if c = '\\' ∨ c = '\x22' then ['\\', c] else [c]) id := by
  refine .of_prefixFree fun a b hprefix => ?_
  split at hprefix
  · split at hprefix
    · simpa using hprefix
    · simp at hprefix
  · next hplain =>
    split at hprefix
    · exact absurd (.inl (by simpa using hprefix)) hplain
    · simpa using hprefix

theorem legible_quote : Legible (fun s => (quote s).toList) id := by
  intro a b r s h
  simp only [quote, String.toList_ofList, List.cons_append, List.append_assoc,
    List.nil_append] at h
  -- a quotation mark inside stands after a backslash
  have hhead : ∀ c : Char, ∃ d ∈ (if c = '\\' ∨ c = '\x22' then ['\\', c]
      else [c]).head?, d ≠ '\x22' := by
    intro c
    split
    · exact ⟨'\\', rfl, by decide⟩
    · next hplain => exact ⟨c, rfl, fun hmark => hplain (.inr hmark)⟩
  obtain ⟨htext, hrest⟩ := legible_escaped.flatMap hhead (List.cons.inj h).2
  rw [List.map_id, List.map_id] at htext
  exact ⟨String.toList_injective htext, hrest⟩

example : quote "a\x22];\n\\" = "\x22a\\\x22];\n\\\\\x22" := by decide

theorem legible_shape : Legible (fun k : NodeKind => k.shape.toList) id := by
  refine .of_prefixFree fun a b => ?_
  cases a <;> cases b <;> decide

theorem legible_lineStyle :
    Legible (fun k : EdgeKind => k.lineStyle.toList) id := by
  refine .of_prefixFree fun a b => ?_
  cases a <;> cases b <;> decide

theorem legible_status :
    Legible (fun s : ValidationStatus => s.name.toList) id := by
  refine .of_prefixFree fun a b => ?_
  cases a <;> cases b <;> decide

theorem number_append_inj {m n : Nat} {r s : List Char}
    (h : (toString m).toList ++ ',' :: r = (toString n).toList ++ ',' :: s) :
    m = n ∧ r = s := by
  simp only [Nat.toString_eq_ofList_toDigits, String.toList_ofList] at h
  have hspan : ∀ (n : Nat) (rest : List Char),
      (Nat.toDigits 10 n ++ ',' :: rest).span Char.isDigit =
      (Nat.toDigits 10 n, ',' :: rest) :=
    fun _ _ => span_digits toDigits_isDigit (by simp)
  have hparts := congrArg (List.span Char.isDigit) h
  rw [hspan, hspan, Prod.mk.injEq] at hparts
  have hvalue := congrArg (fun ds => Nat.ofDigitChars 10 ds 0) hparts.1
  exact ⟨by simpa using hvalue, (List.cons.inj hparts.2).2⟩

theorem legible_fill : Legible (fun n : Node => n.fill.toList) Node.fill := by
  have hlength : ∀ n : Node, n.fill.toList.length = 7 := fun n => by
    unfold Node.fill
    split
    · rfl
    · cases n.kind <;> rfl
  intro n n' r s h
  obtain ⟨htext, hrest⟩ := Legible.of_length 7 hlength h
  exact ⟨String.toList_injective htext, hrest⟩

theorem color_ne_alertColor (k : NodeKind) : k.color ≠ alertColor := by
  cases k <;> decide

theorem fill_eq_alertColor_iff {n : Node} :
    n.fill = alertColor ↔ n.isInvalid = true := by
  cases h : n.isInvalid <;> simp [Node.fill, h, color_ne_alertColor]

/-! ## Nodes, edges and the comment -/

theorem legible_nodeLine :
    Legible (fun n => (nodeLine n).toList) Node.shown := by
  intro n n' r s h
  simp only [nodeLine, String.toList_append, List.append_assoc] at h
  obtain ⟨(hid : n.id = n'.id), h⟩ := legible_quote h
  obtain ⟨(hname : n.name = n'.name), h⟩ :=
    legible_quote (List.append_cancel_left h)
  obtain ⟨(hkind : n.kind = n'.kind), h⟩ :=
    legible_shape (List.append_cancel_left h)
  obtain ⟨hfill, h⟩ := legible_fill (List.append_cancel_left h)
  have hinvalid : n.isInvalid = n'.isInvalid := by
    rw [Bool.eq_iff_iff, ← fill_eq_alertColor_iff,
      hfill, fill_eq_alertColor_iff]
  refine ⟨?_, List.append_cancel_left h⟩
  rw [Node.shown, Node.shown, hid, hname, hkind, hinvalid]

def labelText : Option String → String
  | some label => ", label=" ++ quote label
  | none => ""

theorem attributes_eq (e : Edge) :
    attributes e = "style=" ++ e.kind.lineStyle ++ labelText e.label := by
  unfold attributes
  cases e.label with
  | none => exact String.append_empty.symm
  | some label => exact String.append_assoc ..

theorem labelText_append_inj {label label' : Option String} {r s : List Char}
    (h : (labelText label).toList ++ ("];".toList ++ r) =
      (labelText label').toList ++ ("];".toList ++ s)) :
    label = label' ∧ r = s := by
  cases label with
  | none =>
      cases label' with
      | none => exact ⟨rfl, List.append_cancel_left h⟩
      | some text' => simp [labelText] at h
  | some text =>
      cases label' with
      | none => simp [labelText] at h
      | some text' =>
          simp only [labelText, String.toList_append, List.append_assoc] at h
          obtain ⟨(htext : text = text'), h⟩ :=
            legible_quote (List.append_cancel_left h)
          exact ⟨congrArg some htext, List.append_cancel_left h⟩

theorem legible_edgeLine :
    Legible (fun e => (edgeLine e).toList) Edge.shown := by
  intro e e' r s h
  simp only [edgeLine, attributes_eq, String.toList_append,
    List.append_assoc] at h
  obtain ⟨(hsource : e.source = e'.source), h⟩ := legible_quote h
  obtain ⟨(htarget : e.target = e'.target), h⟩ :=
    legible_quote (List.append_cancel_left h)
  have h := List.append_cancel_left (List.append_cancel_left h)
  obtain ⟨(hkind : e.kind = e'.kind), h⟩ := legible_lineStyle h
  obtain ⟨hlabel, hrest⟩ := labelText_append_inj h
  rw [Edge.shown, Edge.shown, hsource, htarget, hkind, hlabel]
  exact ⟨rfl, hrest⟩

theorem nodeLine_ne_edgeLine (n : Node) (e : Edge) (r s : List Char) :
    (nodeLine n).toList ++ r ≠ (edgeLine e).toList ++ s := by
  intro h
  simp only [nodeLine, edgeLine, String.toList_append, List.append_assoc] at h
  obtain ⟨-, h⟩ := legible_quote h
  simp at h

theorem legible_comment :
    Legible (fun m => (comment m).toList) GraphMetadata.shown := by
  intro m m' r s (h : (comment m).toList ++ r = (comment m').toList ++ s)
  unfold comment at h
  simp only [String.toList_append, List.append_assoc] at h
  have hsteps : ", steps: ".toList = ',' :: " steps: ".toList := rfl
  have hdependencies :
      ", dependencies: ".toList = ',' :: " dependencies: ".toList := rfl
  have hstatus : ", status: ".toList = ',' :: " status: ".toList := rfl
  simp only [hsteps, hdependencies, hstatus, List.cons_append] at h
  obtain ⟨hcomplexity, h⟩ := number_append_inj (List.append_cancel_left h)
  obtain ⟨htotal, h⟩ := number_append_inj (List.append_cancel_left h)
  obtain ⟨hcount, h⟩ := number_append_inj (List.append_cancel_left h)
  obtain ⟨(hname : m.status = m'.status), h⟩ :=
    legible_status (List.append_cancel_left h)
  rw [GraphMetadata.shown, GraphMetadata.shown, hcomplexity, htotal,
    hcount, hname]
  exact ⟨rfl, h⟩

/-! ## The whole text -/

inductive Statement where
  | node (n : Node)
  | edge (e : Edge)

namespace Statement

def line : Statement → List Char
  | node n => (nodeLine n).toList
  | edge e => (edgeLine e).toList

def shown : Statement →
    (String × String × NodeKind × Bool) ⊕
      (String × String × EdgeKind × Option String)
  | node n => .inl n.shown
  | edge e => .inr e.shown

theorem legible_line : Legible line shown := by
  intro a b r s h
  cases a with
  | node n =>
      cases b with
      | node n' =>
          obtain ⟨hshown, hrest⟩ := legible_nodeLine h
          exact ⟨congrArg Sum.inl hshown, hrest⟩
      | edge e => exact absurd h (nodeLine_ne_edgeLine n e r s)
  | edge e =>
      cases b with
      | node n => exact absurd h.symm (nodeLine_ne_edgeLine n e s r)
      | edge e' =>
          obtain ⟨hshown, hrest⟩ := legible_edgeLine h
          exact ⟨congrArg Sum.inr hshown, hrest⟩

end Statement

def statements (g : Graph) : List Statement :=
  g.nodes.map .node ++ g.edges.map .edge

theorem shown_statements (g : Graph) :
    (statements g).map Statement.shown =
      (g.nodes.map Node.shown).map .inl ++
        (g.edges.map Edge.shown).map .inr := by
  simp [statements, Statement.shown, Function.comp_def]

def opened (g : Graph) (includeMetadata : Bool) : IndentedText :=
  let opened := IndentedText.empty.openBlock ("digraph " ++ quote g.name)
  (if includeMetadata then opened.line (comment g.metadata)
    else opened).addLines settings

theorem level_opened (g : Graph) (includeMetadata : Bool) :
    (opened g includeMetadata).level = 1 := by
  rw [opened, level_addLines]
  cases includeMetadata <;> rfl

theorem toList_text_write (g : Graph) (includeMetadata : Bool) :
    (write g includeMetadata).text.toList =
      (opened g includeMetadata).text.toList ++
      ((statements g).flatMap (fun t => indented t.line) ++
        ['\x7d', '\n']) := by
  have hwrite : write g includeMetadata = (((opened g includeMetadata).addLines
      (g.nodes.map nodeLine)).addLines (g.edges.map edgeLine)).closeBlock := rfl
  have hindentation : (indentation 1).toList = [' ', ' '] := by decide
  have houtdent : ∀ w : IndentedText, w.outdent.text = w.text := fun _ => rfl
  have hlevel : ∀ w : IndentedText, w.outdent.level = w.level - 1 :=
    fun _ => rfl
  simp only [hwrite, closeBlock, toList_text_line, houtdent, hlevel,
    toList_text_addLines, level_addLines, level_opened, hindentation]
  simp [statements, Statement.line, indented, List.flatMap_map, indentation]

theorem toList_text_opened (g : Graph) (includeMetadata : Bool) :
    (opened g includeMetadata).text.toList =
      "digraph ".toList ++ ((quote g.name).toList ++ (" \x7b\n".toList ++
        ((if includeMetadata then indented (comment g.metadata).toList
          else []) ++
          settings.flatMap fun t => indented t.toList))) := by
  have hempty : IndentedText.empty.text = "" := by decide
  have hindent : ∀ w : IndentedText, w.indent.text = w.text := fun _ => rfl
  have hlevel : ∀ w : IndentedText, w.indent.level = w.level + 1 := fun _ => rfl
  have hzero : IndentedText.empty.level = 0 := rfl
  cases includeMetadata <;>
    simp [opened, openBlock, toList_text_addLines, toList_text_line, hempty,
      hindent, hlevel, hzero, indentation, indented]

/-! ## Two graphs with one text -/

theorem append_sum_inj {α β : Type} {lefts lefts' : List α}
    {rights rights' : List β} (h : lefts.map Sum.inl ++ rights.map Sum.inr =
      lefts'.map Sum.inl ++ rights'.map Sum.inr) :
    lefts = lefts' ∧ rights = rights' := by
  have hlefts := congrArg (List.filterMap Sum.getLeft?) h
  have hrights := congrArg (List.filterMap Sum.getRight?) h
  exact ⟨by simpa [List.filterMap_map, Function.comp_def] using hlefts,
    by simpa [List.filterMap_map, Function.comp_def] using hrights⟩

theorem map_eq_of_map_eq {α β γ : Type} {shown : α → β} {text : α → γ}
    (h : ∀ a b, shown a = shown b → text a = text b) {items others : List α}
    (heq : items.map shown = others.map shown) :
    items.map text = others.map text := by
  induction items generalizing others with
  | nil =>
      cases others with
      | nil => rfl
      | cons other others => cases heq
  | cons item items ih =>
      cases others with
      | nil => cases heq
      | cons other others =>
          obtain ⟨hitem, hrest⟩ := List.cons.inj heq
          rw [List.map_cons, List.map_cons, h item other hitem, ih hrest]

theorem shown_of_text_eq {g g' : Graph} {includeMetadata : Bool}
    (h : (write g includeMetadata).text = (write g' includeMetadata).text) :
    g.name = g'.name ∧ g.nodes.map Node.shown = g'.nodes.map Node.shown ∧
      g.edges.map Edge.shown = g'.edges.map Edge.shown ∧
      (includeMetadata = true → g.metadata.shown = g'.metadata.shown) := by
  have h := congrArg String.toList h
  simp only [toList_text_write, toList_text_opened, List.append_assoc] at h
  obtain ⟨(hname : g.name = g'.name), h⟩ :=
    legible_quote (List.append_cancel_left h)
  have h := List.append_cancel_left h
  obtain ⟨hmetadata, h⟩ :
      (includeMetadata = true → g.metadata.shown = g'.metadata.shown) ∧
      settings.flatMap (fun t => indented t.toList) ++
          ((statements g).flatMap (fun t => indented t.line) ++
            ['\x7d', '\n']) =
        settings.flatMap (fun t => indented t.toList) ++
          ((statements g').flatMap (fun t => indented t.line) ++
            ['\x7d', '\n']) := by
    cases includeMetadata with
    | false => exact ⟨nofun, h⟩
    | true =>
        obtain ⟨hshown, hrest⟩ := legible_comment.indented h
        exact ⟨fun _ => hshown, hrest⟩
  obtain ⟨hstatements, -⟩ := Statement.legible_line.indented.flatMap
    (fun _ => ⟨' ', rfl, by decide⟩) (List.append_cancel_left h)
  rw [shown_statements, shown_statements] at hstatements
  obtain ⟨hnodes, hedges⟩ := append_sum_inj hstatements
  exact ⟨hname, hnodes, hedges, hmetadata⟩

theorem text_eq_of_shown {g g' : Graph} {includeMetadata : Bool}
    (hname : g.name = g'.name)
    (hnodes : g.nodes.map Node.shown = g'.nodes.map Node.shown)
    (hedges : g.edges.map Edge.shown = g'.edges.map Edge.shown)
    (hmetadata : includeMetadata = true →
      g.metadata.shown = g'.metadata.shown) :
    (write g includeMetadata).text = (write g' includeMetadata).text := by
  have hnodeLines : g.nodes.map nodeLine = g'.nodes.map nodeLine :=
    map_eq_of_map_eq (fun n n' h => by
      simp only [Node.shown, Prod.mk.injEq] at h
      simp [nodeLine, Node.fill, h]) hnodes
  have hedgeLines : g.edges.map edgeLine = g'.edges.map edgeLine :=
    map_eq_of_map_eq (fun e e' h => by
      simp only [Edge.shown, Prod.mk.injEq] at h
      simp [edgeLine, attributes, h]) hedges
  have hcomment : includeMetadata = true →
      comment g.metadata = comment g'.metadata := by
    intro hinclude
    have h := hmetadata hinclude
    simp only [GraphMetadata.shown, Prod.mk.injEq] at h
    unfold comment
    rw [h.1, h.2.1, h.2.2.1, h.2.2.2]
  have hwrite : write g includeMetadata = write g' includeMetadata := by
    unfold write
    rw [hname, hnodeLines, hedgeLines]
    cases includeMetadata with
    | false => rfl
    | true => rw [hcomment rfl]
  rw [hwrite]

end Dot

/-- Two graphs are exported as the same DOT text if and only if they have the
same name and the same nodes and edges, as far as these are shown, and the same
comment where there is one. -/
theorem Graph.dotText_eq_iff (g g' : Graph) (includeMetadata pretty : Bool) :
    g.exportText ⟨.dot, includeMetadata, pretty⟩ =
        g'.exportText ⟨.dot, includeMetadata, pretty⟩ ↔
      g.name = g'.name ∧
      g.nodes.map Node.shown = g'.nodes.map Node.shown ∧
      g.edges.map Edge.shown = g'.edges.map Edge.shown ∧
      (includeMetadata = true → g.metadata.shown = g'.metadata.shown) :=
  ⟨Dot.shown_of_text_eq, fun ⟨hname, hnodes, hedges, hmetadata⟩ =>
    Dot.text_eq_of_shown hname hnodes hedges hmetadata⟩

end Workflows
