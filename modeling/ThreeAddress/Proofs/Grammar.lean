import ThreeAddress.Proofs.PostOrder
import ThreeAddress.Proofs.Success
import ThreeAddress.Tree.Parse
import Mathlib.Tactic

/-!
# Parsing and the grammar of expressions

An expression is a sum of terms, a term is a product of factors, and a factor
is an operand or an expression in brackets.  The parser knows nothing of these
phrases: it looks at neighbours, keeps operators on a stack, and builds a tree
from a post-order.  This module closes the gap.  The stack holds exactly the
operators of the phrase that are not complete yet, so a derivable list of
tokens is arranged in the post-order of its tree; conversely, tokens that pass
the local checks and whose brackets match can be derived.
-/

namespace ThreeAddress

inductive Phrase where
  | expression
  | term
  | factor

/-- The least priority of an operator that joins phrases of this kind. -/
def Phrase.level : Phrase → Nat
  | .expression => 1
  | .term => 2
  | .factor => 3

/-- A list of tokens is a phrase of the given kind, and has the given tree.
Brackets leave no trace in the tree. -/
inductive Derives : Phrase → List Token → Tree → Prop where
  | operand {t : Token} (hoperand : t.isOperand = true) :
      Derives .factor [t] (.ofToken t)
  | bracketed {opening closing : Token} {ts : List Token} {tree : Tree}
      (hopening : opening.bracket? = some .opening)
      (hclosing : closing.bracket? = some .closing)
      (hinner : Derives .expression ts tree) :
      Derives .factor (opening :: ts ++ [closing]) tree
  | ofFactor {ts : List Token} {tree : Tree}
      (hfactor : Derives .factor ts tree) :
      Derives .term ts tree
  | product {t : Token} {op : Operator} {ls rs : List Token} {l r : Tree}
      (hleft : Derives .term ls l) (htoken : t.operator? = some op)
      (hop : op = .multiply ∨ op = .divide) (hright : Derives .factor rs r) :
      Derives .term (ls ++ t :: rs) (.join t l r)
  | ofTerm {ts : List Token} {tree : Tree} (hterm : Derives .term ts tree) :
      Derives .expression ts tree
  | sum {t : Token} {op : Operator} {ls rs : List Token} {l r : Tree}
      (hleft : Derives .expression ls l) (htoken : t.operator? = some op)
      (hop : op = .add ∨ op = .subtract) (hright : Derives .term rs r) :
      Derives .expression (ls ++ t :: rs) (.join t l r)

/-! ## Trees of phrases -/

theorem Derives.isExpression
    {phrase : Phrase} {ts : List Token} {tree : Tree}
    (h : Derives phrase ts tree) :
    tree.IsExpression := by
  induction h with
  | operand hoperand => exact ⟨hoperand, rfl⟩
  | bracketed hopening hclosing hinner ih => exact ih
  | ofFactor hfactor ih => exact ih
  | ofTerm hterm ih => exact ih
  | product hleft htoken hop hright ihl ihr
  | sum hleft htoken hop hright ihl ihr =>
      refine ⟨⟨_, htoken, ?_⟩, rfl, ihl, ihr⟩
      rcases hop with rfl | rfl <;> decide

theorem Derives.postOrder_subset
    {phrase : Phrase} {ts : List Token} {tree : Tree}
    (h : Derives phrase ts tree) :
    tree.postOrder ⊆ ts := by
  induction h with
  | operand hoperand => exact List.Subset.refl _
  | bracketed hopening hclosing hinner ih =>
      intro t ht
      simp [ih ht]
  | ofFactor hfactor ih => exact ih
  | ofTerm hterm ih => exact ih
  | product hleft htoken hop hright ihl ihr
  | sum hleft htoken hop hright ihl ihr =>
      intro t ht
      simp only [Tree.join, Tree.postOrder, List.mem_append,
        List.mem_singleton] at ht
      rcases ht with (ht | ht) | rfl
      · simp [ihl ht]
      · simp [ihr ht]
      · simp

/-- A phrase extended by an operator and a factor is an expression again: the
factor joins the last term if the operator binds tightly, and is a term of its
own otherwise. -/
theorem Derives.extend
    {ls rs : List Token} {l r : Tree} {t : Token} {op : Operator}
    (hleft : Derives .expression ls l)
    (htoken : t.operator? = some op)
    (hop : op ≠ .toFloat)
    (hright : Derives .factor rs r) :
    ∃ tree, Derives .expression (ls ++ t :: rs) tree := by
  have hsplit :
      (op = .add ∨ op = .subtract) ∨ (op = .multiply ∨ op = .divide) := by
    cases op <;> simp_all
  rcases hsplit with hsum | hproduct
  · exact ⟨_, .sum hleft htoken hsum (.ofFactor hright)⟩
  · cases hleft with
    | ofTerm hterm =>
        exact ⟨_, .ofTerm (.product hterm htoken hproduct hright)⟩
    | sum hfirst hfirstToken hfirstOp hlast =>
        rw [List.append_assoc, List.cons_append]
        exact ⟨_, .sum hfirst hfirstToken hfirstOp
          (.product hlast htoken hproduct hright)⟩

/-! ## The order of neighbours -/

def Adjoining (left right : Token) : Prop :=
  left.endsOperand ≠ right.startsOperand

theorem checkNeighbours_eq_ok_iff
    (tokens : List Token) :
    checkNeighbours tokens = .ok () ↔ tokens.IsChain Adjoining := by
  fun_induction checkNeighbours tokens with
  | case1 left right rest hboth =>
      simp_all [Adjoining]
  | case2 left right rest hboth hneither =>
      simp_all [Adjoining]
  | case3 left right rest hboth hneither ih =>
      rw [ih, List.isChain_cons_cons]
      have hadjoin : Adjoining left right := by
        unfold Adjoining
        cases hl : left.endsOperand <;>
          cases hr : right.startsOperand <;> simp_all
      simp [hadjoin]
  | case4 tokens hshort =>
      match tokens with
      | [] => simp
      | [t] => simp
      | left :: right :: rest => exact (hshort left right rest rfl).elim

theorem checkFirst_eq_ok_iff
    (t : Token) :
    checkFirst t = .ok () ↔ t.startsOperand = true := by
  cases hkind : t.kind with
  | bracket side =>
      cases side <;>
        simp [checkFirst, Token.operator?, Token.startsOperand,
          Token.isOperand, Token.bracket?, hkind]
  | operator op | number literal | identifier id =>
      simp [checkFirst, Token.operator?, Token.startsOperand,
        Token.isOperand, Token.bracket?, hkind]

theorem checkLast_eq_ok_iff
    (t : Token) :
    checkLast t = .ok () ↔ t.endsOperand = true := by
  cases hkind : t.kind with
  | bracket side =>
      cases side <;>
        simp [checkLast, Token.operator?, Token.endsOperand,
          Token.isOperand, Token.bracket?, hkind]
  | operator op | number literal | identifier id =>
      simp [checkLast, Token.operator?, Token.endsOperand,
        Token.isOperand, Token.bracket?, hkind]

/-- What the checks of the order come to: the list starts and ends with an
operand, and every two neighbours can stand next to each other. -/
structure InOrder (tokens : List Token) : Prop where
  starts : ∃ first, tokens.head? = some first ∧ first.startsOperand = true
  chain : tokens.IsChain Adjoining
  ends : ∃ last, tokens.getLast? = some last ∧ last.endsOperand = true

theorem checkOrder_eq_ok_iff
    (tokens : List Token) :
    checkOrder tokens = .ok () ↔ InOrder tokens := by
  match htokens : tokens.head?, hlast : tokens.getLast? with
  | none, last? =>
      simp only [checkOrder, htokens]
      constructor
      · intro h
        simp at h
      · intro h
        obtain ⟨first, hfirst, _⟩ := h.starts
        simp [htokens] at hfirst
  | some first, none =>
      simp [List.getLast?_eq_none_iff] at hlast
      simp [hlast] at htokens
  | some first, some last =>
      simp only [checkOrder, htokens, hlast]
      constructor
      · intro h
        obtain ⟨_, hfirst, h⟩ := Success.bind_eq_ok_iff.mp h
        obtain ⟨_, hneighbours, hends⟩ := Success.bind_eq_ok_iff.mp h
        exact ⟨⟨first, htokens, (checkFirst_eq_ok_iff first).mp hfirst⟩,
          (checkNeighbours_eq_ok_iff tokens).mp hneighbours,
          ⟨last, hlast, (checkLast_eq_ok_iff last).mp hends⟩⟩
      · intro h
        obtain ⟨first', hfirst', hstarts⟩ := h.starts
        obtain ⟨last', hlast', hends⟩ := h.ends
        obtain rfl : first = first' := by simpa [htokens] using hfirst'
        obtain rfl : last = last' := by simpa [hlast] using hlast'
        rw [(checkFirst_eq_ok_iff first).mpr hstarts,
          (checkNeighbours_eq_ok_iff tokens).mpr h.chain]
        exact (checkLast_eq_ok_iff last).mpr hends

theorem InOrder.singleton
    {t : Token}
    (ht : t.isOperand = true) :
    InOrder [t] where
  starts := ⟨t, rfl, by simp [Token.startsOperand, ht]⟩
  chain := List.isChain_singleton t
  ends := ⟨t, rfl, by simp [Token.endsOperand, ht]⟩

theorem InOrder.join
    {ls rs : List Token} {t : Token} {op : Operator}
    (hls : InOrder ls)
    (ht : t.operator? = some op)
    (hrs : InOrder rs) :
    InOrder (ls ++ t :: rs) := by
  obtain ⟨first, hfirst, hfirstStarts⟩ := hls.starts
  obtain ⟨last, hlast, hlastEnds⟩ := hls.ends
  obtain ⟨next, hnext, hnextStarts⟩ := hrs.starts
  obtain ⟨final, hfinal, hfinalEnds⟩ := hrs.ends
  refine ⟨⟨first, by simp [hfirst], hfirstStarts⟩, ?_,
    ⟨final, by simp [List.getLast?_cons, hfinal], hfinalEnds⟩⟩
  rw [List.isChain_append, List.isChain_cons]
  refine ⟨hls.chain, ⟨?_, hrs.chain⟩, ?_⟩
  · intro right hright
    obtain rfl : next = right := by simpa [hnext] using hright
    simp [Adjoining, Token.endsOperand_of_operator? ht, hnextStarts]
  · intro left hleft right hright
    obtain rfl : last = left := by simpa [hlast] using hleft
    obtain rfl : t = right := by simpa using hright
    simp [Adjoining, Token.startsOperand_of_operator? ht, hlastEnds]

theorem InOrder.bracketed
    {ts : List Token} {opening closing : Token}
    (hopening : opening.bracket? = some .opening)
    (hclosing : closing.bracket? = some .closing)
    (hts : InOrder ts) :
    InOrder (opening :: ts ++ [closing]) := by
  obtain ⟨first, hfirst, hfirstStarts⟩ := hts.starts
  obtain ⟨last, hlast, hlastEnds⟩ := hts.ends
  have hopens := Token.startsOperand_of_opening hopening
  have hcloses := Token.endsOperand_of_closing hclosing
  refine ⟨⟨opening, rfl, hopens.1⟩, ?_,
    ⟨closing, List.getLast?_concat, hcloses.1⟩⟩
  rw [List.cons_append, List.isChain_cons, List.isChain_append]
  refine ⟨?_, hts.chain, List.isChain_singleton closing, ?_⟩
  · intro right hright
    obtain rfl : first = right := by simpa [hfirst] using hright
    simp [Adjoining, hopens.2, hfirstStarts]
  · intro left hleft right hright
    obtain rfl : last = left := by simpa [hlast] using hleft
    obtain rfl : closing = right := by simpa using hright
    simp [Adjoining, hcloses.2, hlastEnds]

theorem Derives.inOrder
    {phrase : Phrase} {ts : List Token} {tree : Tree}
    (h : Derives phrase ts tree) :
    InOrder ts := by
  induction h with
  | operand hoperand => exact .singleton hoperand
  | bracketed hopening hclosing hinner ih =>
      exact .bracketed hopening hclosing ih
  | ofFactor hfactor ih => exact ih
  | product hleft htoken hop hright ihl ihr => exact ihl.join htoken ihr
  | ofTerm hterm ih => exact ih
  | sum hleft htoken hop hright ihl ihr => exact ihl.join htoken ihr

/-! ## The stack of a phrase -/

/-- Operators that wait at the end of a phrase of the given kind. -/
def Waiting (phrase : Phrase) (pending : List Token) : Prop :=
  ∀ w ∈ pending, ∃ op, w.operator? = some op ∧ phrase.level ≤ op.priority

/-- A stack on which a phrase of the given kind can be read: nothing on top of
it binds as tightly as the operators of the phrase. -/
def Receives (phrase : Phrase) (stack : List Token) : Prop :=
  ∀ w ∈ stack.head?, ∀ op, w.operator? = some op → op.priority < phrase.level

theorem Waiting.mono
    {phrase other : Phrase} {pending : List Token}
    (hle : other.level ≤ phrase.level)
    (h : Waiting phrase pending) :
    Waiting other pending := by
  intro w hw
  obtain ⟨op, hop, hlevel⟩ := h w hw
  exact ⟨op, hop, hle.trans hlevel⟩

theorem Receives.mono
    {phrase other : Phrase} {stack : List Token}
    (hle : phrase.level ≤ other.level)
    (h : Receives phrase stack) :
    Receives other stack := by
  intro w hw op hop
  exact (h w hw op hop).trans_le hle

theorem receives_of_operator
    {phrase : Phrase} {t : Token} {op : Operator} (stack : List Token)
    (ht : t.operator? = some op)
    (hlevel : op.priority < phrase.level) :
    Receives phrase (t :: stack) := by
  intro w hw other hother
  obtain rfl : t = w := by simpa using hw
  obtain rfl : op = other := by simpa [ht] using hother
  exact hlevel

theorem receives_of_bracket
    {phrase : Phrase} {t : Token} {side : Bracket} (stack : List Token)
    (ht : t.bracket? = some side) :
    Receives phrase (t :: stack) := by
  intro w hw op hop
  obtain rfl : t = w := by simpa using hw
  rw [Token.bracket?_of_operator? hop] at ht
  contradiction

/-- A new operator of a phrase's level moves the operators that wait at the
end of the phrase, and no others. -/
theorem span_comesBefore
    {phrase : Phrase} {op : Operator} {pending stack : List Token}
    (hop : op.priority = phrase.level)
    (hpending : Waiting phrase pending)
    (hstack : Receives phrase stack) :
    (pending ++ stack).takeWhile (comesBefore op) = pending ∧
      (pending ++ stack).dropWhile (comesBefore op) = stack := by
  have hall : ∀ w ∈ pending, comesBefore op w = true := by
    intro w hw
    obtain ⟨top, htop, hlevel⟩ := hpending w hw
    simp [comesBefore, htop, hop, hlevel]
  rw [List.takeWhile_append_of_pos hall, List.dropWhile_append_of_pos hall]
  cases stack with
  | nil => simp
  | cons w rest =>
      have hstays : comesBefore op w = false := by
        unfold comesBefore
        cases hw : w.operator? with
        | none => rfl
        | some top =>
            have := hstack w rfl top hw
            simp [hop, this]
      simp [hstays]

theorem span_toOpening
    {phrase : Phrase} {opening : Token} {pending : List Token}
    (hopening : opening.bracket? = some .opening)
    (hpending : Waiting phrase pending)
    (stack : List Token) :
    (pending ++ opening :: stack).takeWhile (·.bracket? != some .opening) =
        pending ∧
      (pending ++ opening :: stack).dropWhile (·.bracket? != some .opening) =
        opening :: stack := by
  have hall : ∀ w ∈ pending, (w.bracket? != some .opening) = true := by
    intro w hw
    obtain ⟨op, hop, _⟩ := hpending w hw
    simp [Token.bracket?_of_operator? hop]
  rw [List.takeWhile_append_of_pos hall, List.dropWhile_append_of_pos hall]
  simp [hopening]

theorem arrange_operand
    {t : Token}
    (ht : t.isOperand = true)
    (rest stack : List Token) :
    arrange (t :: rest) stack = (arrange rest stack).map (t :: ·) := by
  cases hkind : t.kind with
  | operator op | bracket side => simp [Token.isOperand, hkind] at ht
  | number literal | identifier id =>
      simp only [arrange, hkind]
      rfl

theorem arrange_operator
    {t : Token} {op : Operator}
    (ht : t.operator? = some op)
    (rest stack : List Token) :
    arrange (t :: rest) stack =
      (arrange rest (t :: stack.dropWhile (comesBefore op))).map
        (stack.takeWhile (comesBefore op) ++ ·) := by
  cases hkind : t.kind with
  | operator other =>
      obtain rfl : other = op := by simpa [Token.operator?, hkind] using ht
      simp only [arrange, hkind]
      rfl
  | bracket side | number literal | identifier id =>
      simp [Token.operator?, hkind] at ht

theorem arrange_opening
    {t : Token}
    (ht : t.bracket? = some .opening)
    (rest stack : List Token) :
    arrange (t :: rest) stack = arrange rest (t :: stack) := by
  cases hkind : t.kind with
  | bracket side =>
      obtain rfl : side = .opening := by
        simpa [Token.bracket?, hkind] using ht
      simp only [arrange, hkind]
  | operator op | number literal | identifier id =>
      simp [Token.bracket?, hkind] at ht

theorem arrange_closing
    {t : Token}
    (ht : t.bracket? = some .closing)
    (rest stack : List Token) :
    arrange (t :: rest) stack =
      match stack.dropWhile (·.bracket? != some .opening) with
      | [] => .error (.unmatchedClosing t)
      | _ :: below =>
        (arrange rest below).map
          (stack.takeWhile (·.bracket? != some .opening) ++ ·) := by
  cases hkind : t.kind with
  | bracket side =>
      obtain rfl : side = .closing := by
        simpa [Token.bracket?, hkind] using ht
      simp only [arrange, hkind]
      rfl
  | operator op | number literal | identifier id =>
      simp [Token.bracket?, hkind] at ht

/-- How a phrase is arranged: a part of its post-order is put out at once, and
the operators of the other part wait on the stack for what follows. -/
def ArrangedAs (phrase : Phrase) (ts : List Token) (tree : Tree) : Prop :=
  ∃ out pending, tree.postOrder = out ++ pending ∧ Waiting phrase pending ∧
    ∀ rest stack, Receives phrase stack →
      arrange (ts ++ rest) stack =
        (arrange rest (pending ++ stack)).map (out ++ ·)

theorem map_append_map_append
    {ε : Type} {x : Except ε (List Token)} (first second : List Token) :
    (x.map (second ++ ·)).map (first ++ ·) =
      x.map (first ++ second ++ ·) := by
  cases x <;> simp [Except.map]

theorem ArrangedAs.mono
    {phrase other : Phrase} {ts : List Token} {tree : Tree}
    (hle : other.level ≤ phrase.level)
    (h : ArrangedAs phrase ts tree) :
    ArrangedAs other ts tree := by
  obtain ⟨out, pending, hpost, hpending, harrange⟩ := h
  refine ⟨out, pending, hpost, hpending.mono hle, ?_⟩
  intro rest stack hstack
  exact harrange rest stack (hstack.mono hle)

theorem ArrangedAs.join
    {phrase inner : Phrase} {t : Token} {op : Operator} {ls rs : List Token}
    {l r : Tree}
    (htoken : t.operator? = some op)
    (hlevel : op.priority = phrase.level)
    (hinner : phrase.level < inner.level)
    (hleft : ArrangedAs phrase ls l)
    (hright : ArrangedAs inner rs r) :
    ArrangedAs phrase (ls ++ t :: rs) (.join t l r) := by
  obtain ⟨lout, lpending, hlpost, hlpending, hlarrange⟩ := hleft
  obtain ⟨rout, rpending, hrpost, hrpending, hrarrange⟩ := hright
  refine ⟨lout ++ lpending ++ rout, rpending ++ [t], ?_, ?_, ?_⟩
  · simp [Tree.join, Tree.postOrder, hlpost, hrpost]
  · intro w hw
    rcases List.mem_append.mp hw with hw | hw
    · exact hrpending.mono hinner.le w hw
    · obtain rfl : w = t := by simpa using hw
      exact ⟨op, htoken, hlevel.ge⟩
  · intro rest stack hstack
    -- The operator moves all that waits at the end of the first phrase, and
    -- then waits itself below the operators of the second.
    have hspan := span_comesBefore hlevel hlpending hstack
    have hreceives : Receives inner (t :: stack) :=
      receives_of_operator stack htoken (hlevel.trans_lt hinner)
    rw [List.append_assoc, List.cons_append, hlarrange _ _ hstack,
      arrange_operator htoken, hspan.1, hspan.2, hrarrange _ _ hreceives]
    rw [map_append_map_append, map_append_map_append]
    simp only [List.append_assoc, List.singleton_append]

theorem ArrangedAs.bracketed
    {phrase : Phrase} {opening closing : Token} {ts : List Token}
    {tree : Tree}
    (hopening : opening.bracket? = some .opening)
    (hclosing : closing.bracket? = some .closing)
    (h : ArrangedAs phrase ts tree) :
    ArrangedAs .factor (opening :: ts ++ [closing]) tree := by
  obtain ⟨out, pending, hpost, hpending, harrange⟩ := h
  refine ⟨out ++ pending, [], by simp [hpost], by simp [Waiting], ?_⟩
  intro rest stack _
  have hspan := span_toOpening hopening hpending stack
  have hreceives : Receives phrase (opening :: stack) :=
    receives_of_bracket stack hopening
  rw [List.cons_append, List.cons_append, List.append_assoc,
    arrange_opening hopening, harrange _ _ hreceives, List.singleton_append,
    arrange_closing hclosing, hspan.1, hspan.2]
  simp only [map_append_map_append, List.nil_append]

theorem Derives.arrangedAs
    {phrase : Phrase} {ts : List Token} {tree : Tree}
    (h : Derives phrase ts tree) :
    ArrangedAs phrase ts tree := by
  induction h with
  | @operand t hoperand =>
      refine ⟨[t], [], rfl, by simp [Waiting], ?_⟩
      intro rest stack _
      simp [arrange_operand hoperand]
  | bracketed hopening hclosing hinner ih =>
      exact .bracketed hopening hclosing ih
  | ofFactor hfactor ih => exact ih.mono (by decide)
  | product hleft htoken hop hright ihl ihr =>
      refine .join htoken ?_ (by decide) ihl ihr
      rcases hop with rfl | rfl <;> rfl
  | ofTerm hterm ih => exact ih.mono (by decide)
  | sum hleft htoken hop hright ihl ihr =>
      refine .join htoken ?_ (by decide) ihl ihr
      rcases hop with rfl | rfl <;> rfl

theorem find?_bracket_of_waiting
    {phrase : Phrase} {pending : List Token}
    (h : Waiting phrase pending) :
    pending.find? (·.bracket?.isSome) = none := by
  rw [List.find?_eq_none]
  intro w hw
  obtain ⟨op, hop, _⟩ := h w hw
  simp [Token.bracket?_of_operator? hop]

theorem Derives.arrange_eq
    {ts : List Token} {tree : Tree}
    (h : Derives .expression ts tree) :
    arrange ts [] = .ok tree.postOrder := by
  obtain ⟨out, pending, hpost, hpending, harrange⟩ := h.arrangedAs
  have hrun := harrange [] [] (by simp [Receives])
  rw [List.append_nil, List.append_nil] at hrun
  rw [hrun, arrange, find?_bracket_of_waiting hpending, hpost]
  rfl

/-- An expression is parsed as its tree. -/
theorem Derives.parse_eq
    {ts : List Token} {tree : Tree}
    (h : Derives .expression ts tree) :
    parse ts = .ok tree := by
  unfold parse
  rw [(checkOrder_eq_ok_iff ts).mpr h.inOrder, h.arrange_eq]
  simp only [Except.mapError, bind, Except.bind]
  rw [Tree.ofPostOrder_postOrder h.isExpression.isAssembled]

end ThreeAddress
