import ThreeAddress.Proofs.Lines
import ThreeAddress.Proofs.Literals
import ThreeAddress.Tree.Basic

/-!
# What a drawing shows

The line of a node starts with one piece for each step on the way to it, and a
piece shows the side of its step.  A label never starts with a blank, as every
piece does, so that a line can be taken apart into the way to its node and the
label.  A subtree is made of the lines whose ways go through its root; so the
lines give back the shape of the tree with all its labels, and nothing else.
-/

namespace ThreeAddress

namespace Tree

/-- The trees have the same shape, and the same label at every node. -/
def LooksLike : Tree → Tree → Prop
  | .leaf t res, .leaf u res' => (leaf t res).label = (leaf u res').label
  | .leftOnly t res l, .leftOnly u res' l' =>
    (leftOnly t res l).label = (leftOnly u res' l').label ∧ l.LooksLike l'
  | .rightOnly t res r, .rightOnly u res' r' =>
    (rightOnly t res r).label = (rightOnly u res' r').label ∧ r.LooksLike r'
  | .binary t res l r, .binary u res' l' r' =>
    (binary t res l r).label = (binary u res' l' r').label ∧ l.LooksLike l' ∧
      r.LooksLike r'
  | _, _ => False

theorem LooksLike.drawLines_eq
    {tree other : Tree}
    (h : tree.LooksLike other)
    (sides : List Bool) :
    tree.drawLines sides = other.drawLines sides := by
  induction tree generalizing other sides with
  | leaf t res =>
      cases other with
      | leaf u res' =>
        have hlabel : (leaf t res).label = (leaf u res').label := h
        simp only [drawLines, hlabel]
      | leftOnly _ _ _ | rightOnly _ _ _ | binary _ _ _ _ => exact h.elim
  | leftOnly t res l ih =>
      cases other with
      | leftOnly u res' l' => simp only [drawLines, h.1, ih h.2]
      | leaf _ _ | rightOnly _ _ _ | binary _ _ _ _ => exact h.elim
  | rightOnly t res r ih =>
      cases other with
      | rightOnly u res' r' => simp only [drawLines, h.1, ih h.2]
      | leaf _ _ | leftOnly _ _ _ | binary _ _ _ _ => exact h.elim
  | binary t res l r ihl ihr =>
      cases other with
      | binary u res' l' r' =>
          simp only [drawLines, h.1, ihl h.2.1, ihr h.2.2]
      | leaf _ _ | leftOnly _ _ _ | rightOnly _ _ _ => exact h.elim

/-! ## Labels -/

/-- A text that can be told from the pieces before it in its line. -/
structure IsLabel (label : List Char) : Prop where
  start : label.head?.any (· ≠ ' ')
  inline : '\n' ∉ label

end Tree

theorem Literal.lineFeed_not_mem_text
    (literal : Literal) :
    '\n' ∉ literal.text.toList := by
  intro hmem
  have hchar := literal.isDigit_or_eq_point hmem
  simp [Char.isDigit] at hchar

theorem Token.isLabel_shown
    (t : Token) :
    Tree.IsLabel t.shown.toList := by
  cases hkind : t.kind with
  | operator op =>
      cases op <;> constructor <;> simp [shown, text, hkind, Operator.lexeme]
  | bracket side =>
      cases side <;> constructor <;> simp [shown, text, hkind]
  | number literal =>
      constructor
      · simp [shown, hkind]
      · simp [shown, text, hkind, literal.lineFeed_not_mem_text]
  | identifier id =>
      have hdigits : '\n' ∉ Numeral.digits id.attr := by
        intro hmem
        have hdigit := Numeral.isDigit_of_mem_digits hmem
        contradiction
      constructor
      · simp [shown, hkind, Identifier.shown]
      · simp [shown, hkind, Identifier.shown, Numeral.text, hdigits]

namespace Tree

theorem isLabel_label
    (node : Tree) :
    IsLabel node.label.toList := by
  unfold label
  split
  · constructor <;> decide
  · exact node.token.isLabel_shown

/-! ## The line of a node -/

/-- What a line starts with, piece by piece. -/
def pieces : List Bool → List (List Char)
  | [] => []
  | side :: ancestors =>
    ancestors.reverse.map (fun ancestor => (passing ancestor).toList) ++
      [(branch side).toList]

theorem toList_indent
    (sides : List Bool) :
    (indent sides).toList = (pieces sides).flatten := by
  cases sides with
  | nil => rfl
  | cons side ancestors =>
      simp [indent, pieces, String.toList_join, List.flatMap_def,
        Function.comp_def]

theorem pieces_inj
    {sides others : List Bool}
    (h : pieces sides = pieces others) :
    sides = others := by
  have hpassing : Function.Injective fun side => (passing side).toList := by
    decide
  have hbranch : ∀ side other, (branch side).toList = (branch other).toList →
      side = other := by
    decide
  cases sides with
  | nil =>
      cases others with
      | nil => rfl
      | cons side ancestors => simp [pieces] at h
  | cons side ancestors =>
      cases others with
      | nil => simp [pieces] at h
      | cons other ancestors' =>
          obtain ⟨hancestors, hside⟩ := List.append_inj' h rfl
          have hreverse := hpassing.list_map hancestors
          rw [hbranch _ _ (List.singleton_inj.mp hside),
            List.reverse_injective hreverse]

structure IsPiece (piece : List Char) : Prop where
  width : piece.length = 5
  start : piece.head? = some ' '
  inline : '\n' ∉ piece

theorem isPiece_of_mem_pieces
    {sides : List Bool} {piece : List Char}
    (h : piece ∈ pieces sides) :
    IsPiece piece := by
  cases sides with
  | nil => contradiction
  | cons side ancestors =>
      rcases List.mem_append.mp h with h | h
      · obtain ⟨ancestor, _, rfl⟩ := List.mem_map.mp h
        cases ancestor <;> exact ⟨rfl, rfl, by decide⟩
      · rw [List.mem_singleton.mp h]
        cases side <;> exact ⟨rfl, rfl, by decide⟩

theorem IsLabel.ne_piece_append
    {label piece rest : List Char}
    (hlabel : IsLabel label)
    (hpiece : IsPiece piece) :
    label ≠ piece ++ rest := by
  rintro rfl
  have hstart := hlabel.start
  rw [List.head?_append, hpiece.start] at hstart
  simp at hstart

/-- Pieces and a label behind them can be told apart. -/
theorem flatten_append_inj
    {first second : List (List Char)} {label other : List Char}
    (hfirst : ∀ piece ∈ first, IsPiece piece)
    (hsecond : ∀ piece ∈ second, IsPiece piece)
    (hlabel : IsLabel label)
    (hother : IsLabel other)
    (h : first.flatten ++ label = second.flatten ++ other) :
    first = second ∧ label = other := by
  induction first generalizing second with
  | nil =>
      cases second with
      | nil => exact ⟨rfl, h⟩
      | cons piece second =>
          rw [List.flatten_cons, List.append_assoc] at h
          exact absurd h (hlabel.ne_piece_append (hsecond piece (by simp)))
  | cons piece first ih =>
      have hpiece := hfirst piece (by simp)
      cases second with
      | nil =>
          rw [List.flatten_cons, List.append_assoc] at h
          exact absurd h.symm (hother.ne_piece_append hpiece)
      | cons piece' second =>
          simp only [List.flatten_cons, List.append_assoc] at h
          have hpiece' := hsecond piece' (by simp)
          obtain ⟨rfl, hrest⟩ :=
            List.append_inj h (hpiece.width.trans hpiece'.width.symm)
          obtain ⟨rfl, rfl⟩ :=
            ih (fun p hp => hfirst p (List.mem_cons_of_mem _ hp))
            (fun p hp => hsecond p (List.mem_cons_of_mem _ hp)) hrest
          exact ⟨rfl, rfl⟩

/-! ## The lines of a tree -/

/-- The nodes in the order of their lines, each with the sides on the way to
it, the nearest first, and its label. -/
def entries : List Bool → Tree → List (List Bool × String)
  | sides, .leaf t res => [(sides, (leaf t res).label)]
  | sides, .leftOnly t res l =>
    (sides, (leftOnly t res l).label) :: entries (true :: sides) l
  | sides, .rightOnly t res r =>
    (sides, (rightOnly t res r).label) :: entries (false :: sides) r
  | sides, .binary t res l r =>
    (sides, (binary t res l r).label) ::
      (entries (true :: sides) l ++ entries (false :: sides) r)

/-- The entries of a child, if there is one. -/
def childEntries (sides : List Bool) : Option Tree → List (List Bool × String)
  | none => []
  | some child => entries sides child

theorem entries_eq
    (sides : List Bool) (tree : Tree) :
    entries sides tree = (sides, tree.label) ::
      (childEntries (true :: sides) tree.left? ++
        childEntries (false :: sides) tree.right?) := by
  cases tree <;> simp [entries, childEntries, left?, right?]

theorem drawLines_eq_map_entries
    (sides : List Bool) (tree : Tree) :
    tree.drawLines sides = (entries sides tree).map fun entry =>
        indent entry.1 ++ entry.2 := by
  induction tree generalizing sides with
  | leaf t res => rfl
  | leftOnly t res l ih | rightOnly t res r ih =>
      simp [drawLines, entries, ih]
  | binary t res l r ihl ihr => simp [drawLines, entries, ihl, ihr]

theorem of_mem_entries
    {sides : List Bool} {tree : Tree} {entry : List Bool × String}
    (h : entry ∈ entries sides tree) :
    sides <:+ entry.1 ∧ IsLabel entry.2.toList := by
  induction tree generalizing sides with
  | leaf t res =>
      rw [List.mem_singleton.mp h]
      exact ⟨List.suffix_rfl, isLabel_label _⟩
  | leftOnly t res l ih | rightOnly t res r ih =>
      rcases List.mem_cons.mp h with rfl | h
      · exact ⟨List.suffix_rfl, isLabel_label _⟩
      · exact ⟨(List.suffix_cons _ _).trans (ih h).1, (ih h).2⟩
  | binary t res l r ihl ihr =>
      rcases List.mem_cons.mp h with rfl | h
      · exact ⟨List.suffix_rfl, isLabel_label _⟩
      · rcases List.mem_append.mp h with h | h
        · exact ⟨(List.suffix_cons _ _).trans (ihl h).1, (ihl h).2⟩
        · exact ⟨(List.suffix_cons _ _).trans (ihr h).1, (ihr h).2⟩

theorem lineFeed_not_mem_drawLines
    {sides : List Bool} {tree : Tree} {line : String}
    (h : line ∈ tree.drawLines sides) :
    '\n' ∉ line.toList := by
  rw [drawLines_eq_map_entries] at h
  obtain ⟨entry, hentry, rfl⟩ := List.mem_map.mp h
  have hpieces : '\n' ∉ (pieces entry.1).flatten := by
    intro hmem
    obtain ⟨piece, hpiece, hchar⟩ := List.mem_flatten.mp hmem
    exact (isPiece_of_mem_pieces hpiece).inline hchar
  simp [toList_indent, hpieces, (of_mem_entries hentry).2.inline]

theorem hasLines_draw
    (tree : Tree) :
    Text.HasLines tree.draw (tree.drawLines []) := by
  have hjoin : ∀ lines : List String, (∀ line ∈ lines, '\n' ∉ line.toList) →
      Text.HasLines (String.join (lines.map (· ++ "\n"))) lines := by
    intro lines hlines
    induction lines with
    | nil => exact .none
    | cons line lines ih =>
        obtain ⟨hline, hlines⟩ := List.forall_mem_cons.mp hlines
        rw [List.map_cons, String.join_cons]
        exact .cons hline (ih hlines)
  exact hjoin _ fun line hline => lineFeed_not_mem_drawLines hline

theorem eq_of_map_lines_eq
    {first second : List (List Bool × String)}
    (hfirst : ∀ entry ∈ first, IsLabel entry.2.toList)
    (hsecond : ∀ entry ∈ second, IsLabel entry.2.toList)
    (h : first.map (fun entry => indent entry.1 ++ entry.2) =
      second.map fun entry => indent entry.1 ++ entry.2) :
    first = second := by
  induction first generalizing second with
  | nil =>
      cases second with
      | nil => rfl
      | cons entry second => contradiction
  | cons entry first ih =>
      cases second with
      | nil => contradiction
      | cons entry' second =>
          obtain ⟨hline, hlines⟩ := List.cons.inj h
          obtain ⟨hlabel, hfirst⟩ := List.forall_mem_cons.mp hfirst
          obtain ⟨hlabel', hsecond⟩ := List.forall_mem_cons.mp hsecond
          have hchars := congrArg String.toList hline
          rw [String.toList_append, String.toList_append, toList_indent,
            toList_indent] at hchars
          obtain ⟨hpieces, htext⟩ :=
            flatten_append_inj (fun _ => isPiece_of_mem_pieces)
            (fun _ => isPiece_of_mem_pieces) hlabel hlabel' hchars
          have hentry : entry = entry' :=
            Prod.ext (pieces_inj hpieces) (String.toList_inj.mp htext)
          rw [hentry, ih hfirst hsecond hlines]

/-- Lists that are put together from members of two kinds can be taken
apart. -/
theorem append_inj_of_kinds
    {α : Type} {kind : α → Prop} {first second first' second' : List α}
    (hfirst : ∀ a ∈ first, kind a)
    (hfirst' : ∀ a ∈ first', kind a)
    (hsecond : ∀ a ∈ second, ¬kind a)
    (hsecond' : ∀ a ∈ second', ¬kind a)
    (h : first ++ second = first' ++ second') :
    first = first' ∧ second = second' := by
  classical
  have hkind : ∀ {list rest : List α},
      (∀ a ∈ list, kind a) → (∀ a ∈ rest, ¬kind a) →
      (list ++ rest).filter (fun a => decide (kind a)) = list := by
    intro list rest hlist hrest
    have hkeep : list.filter (fun a => decide (kind a)) = list :=
      List.filter_eq_self.mpr fun a ha => decide_eq_true (hlist a ha)
    have hdrop : rest.filter (fun a => decide (kind a)) = [] :=
      List.filter_eq_nil_iff.mpr fun a ha => by simpa using hrest a ha
    rw [List.filter_append, hkeep, hdrop, List.append_nil]
  have heq : first = first' := by
    rw [← hkind hfirst hsecond, h, hkind hfirst' hsecond']
  subst heq
  exact ⟨rfl, List.append_cancel_left h⟩

theorem suffix_of_mem_childEntries
    {sides : List Bool} {child : Option Tree} {entry : List Bool × String}
    (h : entry ∈ childEntries sides child) :
    sides <:+ entry.1 := by
  cases child with
  | none => contradiction
  | some child => exact (of_mem_entries h).1

/-- What is drawn of the two children can be told apart by the side of the
way. -/
theorem childEntries_eq_of_entries_eq
    {sides : List Bool} {tree other : Tree}
    (h : entries sides tree = entries sides other) :
    tree.label = other.label ∧
      childEntries (true :: sides) tree.left? =
        childEntries (true :: sides) other.left? ∧
      childEntries (false :: sides) tree.right? =
        childEntries (false :: sides) other.right? := by
  rw [entries_eq, entries_eq] at h
  obtain ⟨hroot, hchildren⟩ := List.cons.inj h
  have hright : ∀ child : Option Tree,
      ∀ entry ∈ childEntries (false :: sides) child,
      ¬(true :: sides) <:+ entry.1 := by
    intro child entry hentry hleft
    have hsame :=
      List.suffix_of_suffix_length_le hleft
        (suffix_of_mem_childEntries hentry) (by simp)
    simpa using hsame.eq_of_length (by simp)
  exact ⟨congrArg Prod.snd hroot,
    append_inj_of_kinds (fun _ => suffix_of_mem_childEntries)
    (fun _ => suffix_of_mem_childEntries) (hright _) (hright _) hchildren⟩

theorem entries_ne_nil
    (sides : List Bool) (tree : Tree) :
    entries sides tree ≠ [] := by
  rw [entries_eq]
  exact List.cons_ne_nil _ _

theorem looksLike_of_entries_eq
    {sides : List Bool} {tree other : Tree}
    (h : entries sides tree = entries sides other) :
    tree.LooksLike other := by
  induction tree generalizing sides other with
  | leaf t res =>
      obtain ⟨hlabel, hleft, hright⟩ := childEntries_eq_of_entries_eq h
      cases other with
      | leaf u res' => exact hlabel
      | leftOnly u res' l' | binary u res' l' r' =>
          exact absurd hleft.symm (entries_ne_nil _ _)
      | rightOnly u res' r' => exact absurd hright.symm (entries_ne_nil _ _)
  | leftOnly t res l ih =>
      obtain ⟨hlabel, hleft, hright⟩ := childEntries_eq_of_entries_eq h
      cases other with
      | leftOnly u res' l' => exact ⟨hlabel, ih hleft⟩
      | leaf u res' | rightOnly u res' r' =>
          exact absurd hleft (entries_ne_nil _ _)
      | binary u res' l' r' => exact absurd hright.symm (entries_ne_nil _ _)
  | rightOnly t res r ih =>
      obtain ⟨hlabel, hleft, hright⟩ := childEntries_eq_of_entries_eq h
      cases other with
      | rightOnly u res' r' => exact ⟨hlabel, ih hright⟩
      | leaf u res' | leftOnly u res' l' =>
          exact absurd hright (entries_ne_nil _ _)
      | binary u res' l' r' => exact absurd hleft.symm (entries_ne_nil _ _)
  | binary t res l r ihl ihr =>
      obtain ⟨hlabel, hleft, hright⟩ := childEntries_eq_of_entries_eq h
      cases other with
      | binary u res' l' r' => exact ⟨hlabel, ihl hleft, ihr hright⟩
      | leaf u res' | rightOnly u res' r' =>
          exact absurd hleft (entries_ne_nil _ _)
      | leftOnly u res' l' => exact absurd hright (entries_ne_nil _ _)

/-- Two trees, of whatever shape, have the same drawing if and only if they
have the same shape and the same label at every node. -/
theorem draw_eq_draw_iff
    (tree other : Tree) :
    tree.draw = other.draw ↔ tree.LooksLike other := by
  constructor
  · intro h
    have hlines : tree.drawLines [] = other.drawLines [] := by
      have hsplit := (hasLines_draw tree).splitLines_toList
      rw [h, (hasLines_draw other).splitLines_toList] at hsplit
      have hinjective : Function.Injective String.toList :=
        fun _ _ => String.toList_inj.mp
      exact (hinjective.list_map hsplit).symm
    rw [drawLines_eq_map_entries, drawLines_eq_map_entries] at hlines
    exact looksLike_of_entries_eq (eq_of_map_lines_eq
      (fun entry hentry => (of_mem_entries hentry).2)
      (fun entry hentry => (of_mem_entries hentry).2) hlines)
  · intro h
    rw [draw, draw, h.drawLines_eq]

end Tree

end ThreeAddress
