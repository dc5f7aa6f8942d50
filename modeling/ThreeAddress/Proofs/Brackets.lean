import ThreeAddress.Proofs.Acceptance
import Mathlib.Data.List.TakeWhile

/-!
# Brackets and their partners

While tokens are arranged, operators and opening brackets share a stack, and
an operator or a closing bracket moves any number of operators off it.  None
of that touches the order of the brackets that are open: they are the opening
brackets on the stack, the innermost on top, and what has been read behind
each of them is balanced.  So the first closing bracket that finds none is one
too many, and the bracket on top at the end is the last one without a partner.
-/

namespace ThreeAddress

def closings (tokens : List Token) : Nat :=
  tokens.countP fun w => w.bracket? = some .closing

/-- No beginning of the list has more closing brackets than opening ones. -/
def ClosesOnlyOpened (tokens : List Token) : Prop :=
  ∀ before, before <+: tokens → closings before ≤ openings before

/-- Every bracket has its partner in the list. -/
structure IsBalanced (tokens : List Token) : Prop where
  closesOnlyOpened : ClosesOnlyOpened tokens
  openings_eq : openings tokens = closings tokens

/-- The partner of an opening bracket is among the tokens that follow it: the
closing bracket in front of which all brackets are balanced. -/
def HasPartner (after : List Token) : Prop :=
  ∃ inner closing rest, after = inner ++ closing :: rest ∧
    closing.bracket? = some .closing ∧ IsBalanced inner

/-- The closing bracket is the first with which there are more of them than
opening ones. -/
def IsFirstUnopened (tokens : List Token) (t : Token) : Prop :=
  ∃ before after, tokens = before ++ t :: after ∧ t.bracket? = some .closing ∧
    openings (before ++ [t]) < closings (before ++ [t]) ∧
      ClosesOnlyOpened before

/-- The opening bracket has no partner, and all that follow it have one. -/
def IsLastUnclosed (tokens : List Token) (t : Token) : Prop :=
  ∃ before after, tokens = before ++ t :: after ∧ t.bracket? = some .opening ∧
    ¬HasPartner after ∧
      ∀ between u rest, after = between ++ u :: rest →
        u.bracket? = some .opening →
        HasPartner rest

/-! ## Counting brackets -/

theorem openings_append
    (tokens more : List Token) :
    openings (tokens ++ more) = openings tokens + openings more :=
  List.countP_append

theorem closings_append
    (tokens more : List Token) :
    closings (tokens ++ more) = closings tokens + closings more :=
  List.countP_append

theorem counts_opening
    {t : Token}
    (h : t.bracket? = some .opening) :
    openings [t] = 1 ∧ closings [t] = 0 := by
  simp [openings, closings, h]

theorem counts_closing
    {t : Token}
    (h : t.bracket? = some .closing) :
    openings [t] = 0 ∧ closings [t] = 1 := by
  simp [openings, closings, h]

theorem counts_of_bracket?_eq_none
    {t : Token}
    (h : t.bracket? = none) :
    openings [t] = 0 ∧ closings [t] = 0 := by
  simp [openings, closings, h]

theorem closesOnlyOpened_nil : ClosesOnlyOpened [] := by
  intro before hbefore
  rw [List.prefix_nil.mp hbefore]
  exact le_rfl

theorem ClosesOnlyOpened.closings_le
    {tokens : List Token}
    (h : ClosesOnlyOpened tokens) :
    closings tokens ≤ openings tokens :=
  h tokens List.prefix_rfl

theorem closesOnlyOpened_concat_iff
    {tokens : List Token} {t : Token} :
    ClosesOnlyOpened (tokens ++ [t]) ↔
      ClosesOnlyOpened tokens ∧
      closings (tokens ++ [t]) ≤ openings (tokens ++ [t]) := by
  constructor
  · intro h
    exact ⟨fun before hbefore =>
      h before (hbefore.trans (List.prefix_append _ _)), h.closings_le⟩
  · rintro ⟨htokens, hcount⟩ before hbefore
    rcases List.prefix_concat_iff.mp hbefore with rfl | hbefore
    · exact hcount
    · exact htokens before hbefore

theorem ClosesOnlyOpened.append
    {tokens more : List Token}
    (h : ClosesOnlyOpened tokens)
    (hmore : ClosesOnlyOpened more) :
    ClosesOnlyOpened (tokens ++ more) := by
  intro before hbefore
  rcases List.prefix_or_prefix_of_prefix hbefore
    (List.prefix_append tokens more) with
    hinside | ⟨rest, rfl⟩
  · exact h before hinside
  · rw [openings_append, closings_append]
    exact Nat.add_le_add h.closings_le
      (hmore rest ((List.prefix_append_right_inj _).mp hbefore))

/-- If there are too many closing brackets, the tokens in front of the first
of these are balanced. -/
theorem exists_closing_of_not_closesOnlyOpened
    {tokens : List Token}
    (h : ¬ClosesOnlyOpened tokens) :
    ∃ before closing after, tokens = before ++ closing :: after ∧
      closing.bracket? = some .closing ∧ IsBalanced before := by
  induction tokens using List.reverseRecOn with
  | nil => exact absurd closesOnlyOpened_nil h
  | append_singleton tokens t ih =>
      by_cases htokens : ClosesOnlyOpened tokens
      · have hle := htokens.closings_le
        have hlt : openings (tokens ++ [t]) < closings (tokens ++ [t]) := by
          by_contra hle
          exact h (closesOnlyOpened_concat_iff.mpr
            ⟨htokens, Nat.le_of_not_lt hle⟩)
        rw [openings_append, closings_append] at hlt
        match hbracket : t.bracket? with
        | none =>
            have hcounts := counts_of_bracket?_eq_none hbracket
            omega
        | some .opening =>
            have hcounts := counts_opening hbracket
            omega
        | some .closing =>
            have hcounts := counts_closing hbracket
            exact ⟨tokens, t, [], rfl, hbracket, htokens, by omega⟩
      · obtain ⟨before, closing, after, rfl, hclosing, hbalanced⟩ :=
          ih htokens
        exact ⟨before, closing, after ++ [t], by simp, hclosing, hbalanced⟩

/-! ## Balanced lists -/

theorem isBalanced_nil : IsBalanced [] := ⟨closesOnlyOpened_nil, rfl⟩

theorem IsBalanced.append
    {tokens more : List Token}
    (h : IsBalanced tokens)
    (hmore : IsBalanced more) :
    IsBalanced (tokens ++ more) where
  closesOnlyOpened := h.closesOnlyOpened.append hmore.closesOnlyOpened
  openings_eq := by
    rw [openings_append, closings_append, h.openings_eq, hmore.openings_eq]

theorem closesOnlyOpened_singleton
    {t : Token}
    (h : closings [t] ≤ openings [t]) :
    ClosesOnlyOpened [t] := by
  rw [← List.nil_append [t], closesOnlyOpened_concat_iff]
  exact ⟨closesOnlyOpened_nil, h⟩

theorem closesOnlyOpened_opening
    {t : Token}
    (h : t.bracket? = some .opening) :
    ClosesOnlyOpened [t] := by
  have hcounts := counts_opening h
  exact closesOnlyOpened_singleton (by omega)

theorem isBalanced_singleton
    {t : Token}
    (h : t.bracket? = none) :
    IsBalanced [t] := by
  have hcounts := counts_of_bracket?_eq_none h
  exact ⟨closesOnlyOpened_singleton (by omega), by omega⟩

theorem IsBalanced.enclosed
    {inner : List Token} {opening closing : Token}
    (h : IsBalanced inner)
    (hopening : opening.bracket? = some .opening)
    (hclosing : closing.bracket? = some .closing) :
    IsBalanced ([opening] ++ inner ++ [closing]) := by
  have hfirst := counts_opening hopening
  have hlast := counts_closing hclosing
  have hinner := h.openings_eq
  refine ⟨closesOnlyOpened_concat_iff.mpr
    ⟨(closesOnlyOpened_opening hopening).append h.closesOnlyOpened, ?_⟩, ?_⟩
  · simp only [openings_append, closings_append]
    omega
  · simp only [openings_append, closings_append]
    omega

theorem IsBalanced.isFirstUnopened
    {before after : List Token} {t : Token}
    (h : IsBalanced before)
    (ht : t.bracket? = some .closing) :
    IsFirstUnopened (before ++ t :: after) t := by
  refine ⟨before, after, rfl, ht, ?_, h.closesOnlyOpened⟩
  have hcounts := counts_closing ht
  have hbefore := h.openings_eq
  rw [openings_append, closings_append]
  omega

theorem IsFirstUnopened.not_closesOnlyOpened
    {tokens : List Token} {t : Token}
    (h : IsFirstUnopened tokens t) :
    ¬ClosesOnlyOpened tokens := by
  obtain ⟨before, after, rfl, _, hlt, _⟩ := h
  intro hopened
  rw [List.append_cons] at hopened
  exact Nat.not_le_of_lt hlt (hopened _ (List.prefix_append _ _))

/-- A bracket outside of a balanced list has no partner in it. -/
theorem IsBalanced.not_hasPartner
    {tokens : List Token}
    (h : IsBalanced tokens) :
    ¬HasPartner tokens := by
  rintro ⟨inner, closing, rest, rfl, hclosing, hinner⟩
  exact (hinner.isFirstUnopened hclosing).not_closesOnlyOpened
    h.closesOnlyOpened

/-- A bracket inside of a balanced list has its partner there: behind it there
are too many closing brackets. -/
theorem IsBalanced.hasPartner
    {before after : List Token} {t : Token}
    (h : IsBalanced (before ++ t :: after))
    (ht : t.bracket? = some .opening) :
    HasPartner after := by
  apply exists_closing_of_not_closesOnlyOpened
  intro hafter
  have hcount := h.openings_eq
  rw [List.append_cons, openings_append, closings_append, openings_append,
    closings_append] at hcount
  have hcounts := counts_opening ht
  have hbefore := h.closesOnlyOpened before (List.prefix_append _ _)
  have hle := hafter.closings_le
  omega

/-! ## Brackets that are open -/

/-- The brackets that are open at the end of the tokens, the innermost first.
What stands behind each of them, up to the next one, is balanced. -/
inductive Leaves : List Token → List Token → Prop
  | balanced {tokens : List Token} (isBalanced : IsBalanced tokens) :
      Leaves tokens []
  | opening {before inner pending : List Token} {t : Token}
      (outer : Leaves before pending)
      (isOpening : t.bracket? = some .opening)
      (isBalanced : IsBalanced inner) :
      Leaves (before ++ t :: inner) (t :: pending)

namespace Leaves

variable {seen pending : List Token} {t : Token}

theorem append
    (h : Leaves seen pending)
    {more : List Token}
    (hmore : IsBalanced more) :
    Leaves (seen ++ more) pending := by
  cases h with
  | balanced hseen => exact .balanced (hseen.append hmore)
  | opening houter ht hinner =>
      rw [List.append_assoc, List.cons_append]
      exact .opening houter ht (hinner.append hmore)

theorem push
    (h : Leaves seen pending)
    (ht : t.bracket? = some .opening) :
    Leaves (seen ++ [t]) (t :: pending) :=
  .opening h ht isBalanced_nil

theorem pop
    {opening : Token}
    (h : Leaves seen (opening :: pending))
    (ht : t.bracket? = some .closing) :
    Leaves (seen ++ [t]) pending := by
  cases h with
  | opening houter hopening hinner =>
      simpa using houter.append (hinner.enclosed hopening ht)

theorem closesOnlyOpened
    (h : Leaves seen pending) :
    ClosesOnlyOpened seen := by
  induction h with
  | balanced hseen => exact hseen.closesOnlyOpened
  | opening houter ht hinner ih =>
      rw [List.append_cons]
      exact (ih.append (closesOnlyOpened_opening ht)).append
        hinner.closesOnlyOpened

theorem openings_eq
    (h : Leaves seen pending) :
    openings seen = closings seen + pending.length := by
  induction h with
  | balanced hseen => exact hseen.openings_eq
  | opening houter ht hinner ih =>
      have hcounts := counts_opening ht
      have hcount := hinner.openings_eq
      rw [List.append_cons, openings_append, closings_append, openings_append,
        closings_append, List.length_cons]
      omega

theorem isLastUnclosed
    (h : Leaves seen (t :: pending)) :
    IsLastUnclosed seen t := by
  cases h with
  | @opening before inner _ _ houter ht hinner =>
      refine ⟨before, inner, rfl, ht, hinner.not_hasPartner, ?_⟩
      rintro between u rest rfl hu
      exact hinner.hasPartner hu

end Leaves

/-! ## Brackets on the stack -/

/-- The stack holds operators and opening brackets only. -/
def HoldsWaiting (stack : List Token) : Prop :=
  ∀ w ∈ stack, (∃ op, w.operator? = some op) ∨ w.bracket? = some .opening

def opened (stack : List Token) : List Token :=
  stack.filter fun w => w.bracket? = some .opening

def unbracketed (tokens : List Token) : List Token :=
  tokens.filter (·.bracket?.isNone)

theorem unbracketed_append
    (tokens more : List Token) :
    unbracketed (tokens ++ more) = unbracketed tokens ++ unbracketed more :=
  List.filter_append ..

theorem unbracketed_cons_of_eq_none
    {t : Token}
    (h : t.bracket? = none)
    (tokens : List Token) :
    unbracketed (t :: tokens) = t :: unbracketed tokens :=
  List.filter_cons_of_pos (by simp [h])

theorem unbracketed_cons_bracket
    {t : Token} {side : Bracket}
    (h : t.bracket? = some side)
    (tokens : List Token) :
    unbracketed (t :: tokens) = unbracketed tokens :=
  List.filter_cons_of_neg (by simp [h])

theorem opened_cons_opening
    {t : Token}
    (h : t.bracket? = some .opening)
    (stack : List Token) :
    opened (t :: stack) = t :: opened stack :=
  List.filter_cons_of_pos (by simpa using h)

theorem opened_cons_operator
    {t : Token} {op : Operator}
    (h : t.operator? = some op)
    (stack : List Token) :
    opened (t :: stack) = opened stack :=
  List.filter_cons_of_neg (by simp [Token.bracket?_of_operator? h])

theorem opened_dropWhile
    {moves : Token → Bool}
    (h : ∀ w, moves w = true → w.bracket? ≠ some .opening)
    (stack : List Token) :
    opened (stack.dropWhile moves) = opened stack := by
  induction stack with
  | nil => rfl
  | cons w stack ih =>
      rw [List.dropWhile_cons]
      split
      · next hmoves =>
          rw [ih]
          exact (List.filter_cons_of_neg (by simpa using h w hmoves)).symm
      · rfl

theorem bracket?_of_comesBefore
    {op : Operator} {w : Token}
    (h : comesBefore op w = true) :
    w.bracket? = none := by
  obtain ⟨top, htop, _⟩ := (Option.any_eq_true _ _).mp h
  exact Token.bracket?_of_operator? htop

namespace HoldsWaiting

variable {stack : List Token}

theorem cons
    {t : Token}
    (h : HoldsWaiting stack)
    (ht : (∃ op, t.operator? = some op) ∨ t.bracket? = some .opening) :
    HoldsWaiting (t :: stack) :=
  List.forall_mem_cons.mpr ⟨ht, h⟩

theorem dropWhile
    (h : HoldsWaiting stack)
    (moves : Token → Bool) :
    HoldsWaiting (stack.dropWhile moves) :=
  fun w hw => h w ((List.dropWhile_suffix moves).subset hw)

theorem isOperand_eq_false
    (h : HoldsWaiting stack)
    {w : Token}
    (hw : w ∈ stack) :
    w.isOperand = false := by
  rcases h w hw with ⟨op, hop⟩ | hopening
  · exact Token.isOperand_of_operator? hop
  · exact Token.isOperand_of_bracket? hopening

theorem bracket?_eq_none
    (h : HoldsWaiting stack)
    {w : Token}
    (hw : w ∈ stack)
    (hopening : w.bracket? ≠ some .opening) :
    w.bracket? = none := by
  rcases h w hw with ⟨op, hop⟩ | hbracket
  · exact Token.bracket?_of_operator? hop
  · exact absurd hbracket hopening

/-- The first bracket from the top is the innermost that is open. -/
theorem find?_bracket
    (h : HoldsWaiting stack) :
    stack.find? (·.bracket?.isSome) = (opened stack).head? := by
  rw [opened, List.head?_filter]
  refine List.find?_congr fun w hw => ?_
  rcases h w hw with ⟨op, hop⟩ | hopening
  · simp [Token.bracket?_of_operator? hop]
  · simp [hopening]

/-- What is moved off the stack comes first among its tokens, and no bracket
is. -/
theorem unbracketed_eq
    (h : HoldsWaiting stack)
    {moves : Token → Bool}
    (hmoves : ∀ w, moves w = true → w.bracket? ≠ some .opening) :
    unbracketed stack =
      stack.takeWhile moves ++ unbracketed (stack.dropWhile moves) := by
  have hmoved :
      unbracketed (stack.takeWhile moves) = stack.takeWhile moves := by
    refine List.filter_eq_self.mpr fun w hw => ?_
    have hmem := List.takeWhile_subset moves hw
    rw [h.bracket?_eq_none hmem (hmoves w (List.mem_takeWhile_imp hw))]
    rfl
  calc unbracketed stack
      = unbracketed (stack.takeWhile moves ++ stack.dropWhile moves) := by
        rw [List.takeWhile_append_dropWhile]
    _ = unbracketed (stack.takeWhile moves) ++
          unbracketed (stack.dropWhile moves) :=
        unbracketed_append ..
    _ = stack.takeWhile moves ++ unbracketed (stack.dropWhile moves) := by
        rw [hmoved]

theorem filter_isOperand_takeWhile
    (h : HoldsWaiting stack)
    (moves : Token → Bool) :
    (stack.takeWhile moves).filter Token.isOperand = [] := by
  refine List.filter_eq_nil_iff.mpr fun w hw => ?_
  have hmem := List.takeWhile_subset moves hw
  simp [h.isOperand_eq_false hmem]

end HoldsWaiting

theorem ne_opening_of_comesBefore
    (op : Operator) :
    ∀ w, comesBefore op w = true → w.bracket? ≠ some .opening := by
  intro w hw
  simp [bracket?_of_comesBefore hw]

theorem ne_opening_of_bne : ∀ w : Token,
    (w.bracket? != some .opening) = true → w.bracket? ≠ some .opening :=
  fun _ => bne_iff_ne.mp

/-! ## One token more -/

/-- What a token does: the tokens that it moves off the stack are put out,
before or with it, and those that wait then are the next stack. -/
structure Advances (t : Token) (stack moved next : List Token) : Prop where
  arrange_eq : ∀ rest,
    arrange (t :: rest) stack = (arrange rest next).map (moved ++ ·)
  holdsWaiting : HoldsWaiting next
  leaves : ∀ seen,
    Leaves seen (opened stack) → Leaves (seen ++ [t]) (opened next)
  perm : (moved ++ unbracketed next).Perm
    (unbracketed [t] ++ unbracketed stack)
  operands : moved.filter Token.isOperand = [t].filter Token.isOperand

section Step

variable {stack : List Token} {t : Token}

theorem advances_operand
    (hstack : HoldsWaiting stack)
    (ht : t.isOperand = true) :
    Advances t stack [t] stack where
  arrange_eq := fun rest => arrange_operand ht rest stack
  holdsWaiting := hstack
  leaves := fun _ hleaves =>
    hleaves.append (isBalanced_singleton (Token.bracket?_of_isOperand ht))
  perm := by
    rw [unbracketed_cons_of_eq_none (Token.bracket?_of_isOperand ht)]; rfl
  operands := rfl

theorem advances_operator
    (hstack : HoldsWaiting stack)
    {op : Operator}
    (ht : t.operator? = some op) :
    Advances t stack (stack.takeWhile (comesBefore op))
      (t :: stack.dropWhile (comesBefore op)) where
  arrange_eq := fun rest => arrange_operator ht rest stack
  holdsWaiting := (hstack.dropWhile _).cons (.inl ⟨op, ht⟩)
  leaves := by
    intro seen hleaves
    rw [opened_cons_operator ht,
      opened_dropWhile (ne_opening_of_comesBefore op)]
    exact hleaves.append
      (isBalanced_singleton (Token.bracket?_of_operator? ht))
  perm := by
    have hplain :=
      unbracketed_cons_of_eq_none (Token.bracket?_of_operator? ht)
    rw [hplain, hplain, hstack.unbracketed_eq (ne_opening_of_comesBefore op)]
    exact List.perm_middle
  operands := by
    rw [hstack.filter_isOperand_takeWhile]
    simp [Token.isOperand_of_operator? ht]

theorem advances_opening
    (hstack : HoldsWaiting stack)
    (ht : t.bracket? = some .opening) :
    Advances t stack [] (t :: stack) where
  arrange_eq := by
    intro rest
    rw [arrange_opening ht]
    cases arrange rest (t :: stack) <;> rfl
  holdsWaiting := hstack.cons (.inr ht)
  leaves := by
    intro seen hleaves
    rw [opened_cons_opening ht]
    exact hleaves.push ht
  perm := by
    rw [unbracketed_cons_bracket ht, unbracketed_cons_bracket ht]
    rfl
  operands := by simp [Token.isOperand_of_bracket? ht]

theorem advances_closing
    (hstack : HoldsWaiting stack)
    (ht : t.bracket? = some .closing)
    {opening : Token} {below : List Token}
    (hdrop : stack.dropWhile (·.bracket? != some .opening) =
      opening :: below) :
    Advances t stack
      (stack.takeWhile (·.bracket? != some .opening)) below := by
  -- Dropping stops at an opening bracket and nowhere else.
  have hopening : opening.bracket? = some .opening := by
    have hfirst :=
      List.head?_dropWhile_not (·.bracket? != some .opening) stack
    simpa [hdrop] using hfirst
  constructor
  · intro rest
    rw [arrange_closing ht, hdrop]
  · have hrest := hstack.dropWhile (·.bracket? != some .opening)
    rw [hdrop] at hrest
    exact (List.forall_mem_cons.mp hrest).2
  · intro seen hleaves
    rw [← opened_dropWhile ne_opening_of_bne, hdrop,
      opened_cons_opening hopening] at hleaves
    exact hleaves.pop ht
  · rw [hstack.unbracketed_eq ne_opening_of_bne, hdrop,
      unbracketed_cons_bracket hopening, unbracketed_cons_bracket ht]
    rfl
  · rw [hstack.filter_isOperand_takeWhile]
    simp [Token.isOperand_of_bracket? ht]

/-- A token advances, unless it is a closing bracket and none is open. -/
theorem advances_or_unmatched
    (hstack : HoldsWaiting stack)
    (t : Token) :
    (∃ moved next, Advances t stack moved next) ∨
      t.bracket? = some .closing ∧ opened stack = [] ∧
        ∀ rest, arrange (t :: rest) stack = .error (.unmatchedClosing t) := by
  match hbracket : t.bracket? with
  | none =>
      rcases Token.isOperand_or_operator? hbracket with hoperand | ⟨op, hop⟩
      · exact .inl ⟨_, _, advances_operand hstack hoperand⟩
      · exact .inl ⟨_, _, advances_operator hstack hop⟩
  | some .opening => exact .inl ⟨_, _, advances_opening hstack hbracket⟩
  | some .closing =>
      cases hdrop : stack.dropWhile (·.bracket? != some .opening) with
      | nil =>
          refine .inr ⟨rfl,
            ?_, fun rest => by rw [arrange_closing hbracket, hdrop]⟩
          rw [← opened_dropWhile ne_opening_of_bne, hdrop]
          rfl
      | cons opening below =>
          exact .inl ⟨_, _, advances_closing hstack hbracket hdrop⟩

end Step

/-! ## All tokens -/

/-- What arranging comes to, by the brackets of the list. -/
inductive Verdict (tokens : List Token) :
    Except GrammarFault (List Token) → Prop
  | unmatchedClosing {before after : List Token} {t : Token}
      (split : tokens = before ++ t :: after)
      (isClosing : t.bracket? = some .closing)
      (isBalanced : IsBalanced before) : Verdict tokens
        (.error (.unmatchedClosing t))
  | unmatchedOpening {t : Token} {pending : List Token}
      (leaves : Leaves tokens (t :: pending)) :
      Verdict tokens (.error (.unmatchedOpening t))
  | arranged {output : List Token} (isBalanced : IsBalanced tokens) :
      Verdict tokens (.ok output)

theorem Verdict.map
    {tokens : List Token} {outcome : Except GrammarFault (List Token)}
    (h : Verdict tokens outcome)
    (f : List Token → List Token) :
    Verdict tokens (outcome.map f) := by
  cases h with
  | unmatchedClosing hsplit hclosing hbalanced =>
      exact .unmatchedClosing hsplit hclosing hbalanced
  | unmatchedOpening hleaves => exact .unmatchedOpening hleaves
  | arranged hbalanced => exact .arranged hbalanced

theorem Leaves.isBalanced
    {seen : List Token}
    (h : Leaves seen []) :
    IsBalanced seen := by
  cases h with
  | balanced hbalanced => exact hbalanced

theorem arrange_nil
    {stack : List Token}
    (hstack : HoldsWaiting stack) :
    arrange [] stack = match opened stack with
      | [] => .ok stack
      | t :: _ => .error (.unmatchedOpening t) := by
  rw [arrange, hstack.find?_bracket]
  cases opened stack <;> rfl

/-- The opening brackets on the stack are those that are open after what has
been read, so the verdict on the rest is one on the whole list. -/
theorem verdict_arrange
    {seen rest stack : List Token}
    (hstack : HoldsWaiting stack)
    (hleaves : Leaves seen (opened stack)) :
    Verdict (seen ++ rest) (arrange rest stack) := by
  induction rest generalizing seen stack with
  | nil =>
      rw [List.append_nil, arrange_nil hstack]
      cases hopened : opened stack with
      | nil => exact .arranged (hopened ▸ hleaves).isBalanced
      | cons t pending => exact .unmatchedOpening (hopened ▸ hleaves)
  | cons t rest ih =>
      rcases advances_or_unmatched hstack t with
        ⟨moved, next, hadvances⟩ | ⟨hclosing, hopened, harrange⟩
      · rw [hadvances.arrange_eq, List.append_cons]
        exact (ih hadvances.holdsWaiting
          (hadvances.leaves seen hleaves)).map _
      · rw [harrange]
        exact .unmatchedClosing rfl hclosing (hopened ▸ hleaves).isBalanced

theorem output_of_arrange_nil
    {stack output : List Token}
    (hstack : HoldsWaiting stack)
    (h : arrange [] stack = .ok output) :
    output.Perm (unbracketed stack) ∧ output.filter Token.isOperand = [] := by
  rw [arrange_nil hstack] at h
  cases hopened : opened stack with
  | cons t pending => simp [hopened] at h
  | nil =>
      obtain rfl : stack = output := by simpa [hopened] using h
      have hplain : unbracketed stack = stack := by
        refine List.filter_eq_self.mpr fun w hw => ?_
        have hopening : w.bracket? ≠ some .opening := by
          simpa using List.filter_eq_nil_iff.mp hopened w hw
        simp [hstack.bracket?_eq_none hw hopening]
      refine ⟨by rw [hplain], List.filter_eq_nil_iff.mpr fun w hw => ?_⟩
      simp [hstack.isOperand_eq_false hw]

/-- The tokens that are no brackets are put out once each, and the operands
among them in their order. -/
theorem output_of_arrange
    {rest stack output : List Token}
    (hstack : HoldsWaiting stack)
    (h : arrange rest stack = .ok output) :
    output.Perm (unbracketed rest ++ unbracketed stack) ∧
      output.filter Token.isOperand = rest.filter Token.isOperand := by
  induction rest generalizing stack output with
  | nil => exact output_of_arrange_nil hstack h
  | cons t rest ih =>
      rcases advances_or_unmatched hstack t with
        ⟨moved, next, hadvances⟩ | ⟨_, _, harrange⟩
      · rw [hadvances.arrange_eq] at h
        obtain ⟨others, hothers, rfl⟩ := Success.map_eq_ok_iff.mp h
        obtain ⟨hperm, horder⟩ := ih hadvances.holdsWaiting hothers
        rw [← List.singleton_append, List.filter_append, List.filter_append,
          horder, hadvances.operands]
        refine ⟨?_, rfl⟩
        -- What has moved is put out before the rest, which is no matter to
        -- its number.
        calc
          (moved ++ others).Perm
              (moved ++ (unbracketed rest ++ unbracketed next)) :=
              hperm.append_left moved
          _ |>.Perm (unbracketed rest ++ (moved ++ unbracketed next)) :=
              List.perm_append_comm_assoc ..
          _ |>.Perm (unbracketed rest ++
              (unbracketed [t] ++ unbracketed stack)) :=
              hadvances.perm.append_left _
          _ |>.Perm (unbracketed [t] ++
              (unbracketed rest ++ unbracketed stack)) :=
              List.perm_append_comm_assoc ..
          _ = unbracketed ([t] ++ rest) ++ unbracketed stack := by
              rw [unbracketed_append, List.append_assoc]
      · rw [harrange] at h
        contradiction

theorem arrange_cases
    (tokens : List Token) :
    (∃ t, arrange tokens [] = .error (.unmatchedClosing t) ∧
      IsFirstUnopened tokens t) ∨
      (∃ t, arrange tokens [] = .error (.unmatchedOpening t) ∧
        IsLastUnclosed tokens t ∧ ClosesOnlyOpened tokens ∧
        closings tokens < openings tokens) ∨
      ∃ output, arrange tokens [] = .ok output ∧ IsBalanced tokens := by
  have hleaves : Leaves [] (opened []) := .balanced isBalanced_nil
  have hverdict : Verdict tokens (arrange tokens []) :=
    verdict_arrange (by simp [HoldsWaiting]) hleaves
  generalize arrange tokens [] = outcome at hverdict
  cases hverdict with
  | unmatchedClosing hsplit hclosing hbalanced =>
      exact .inl ⟨_, rfl, hsplit ▸ hbalanced.isFirstUnopened hclosing⟩
  | unmatchedOpening hleaves =>
      have hcount := hleaves.openings_eq
      rw [List.length_cons] at hcount
      exact .inr
        (.inl ⟨_, rfl, hleaves.isLastUnclosed,
          hleaves.closesOnlyOpened, by omega⟩)
  | arranged hbalanced => exact .inr (.inr ⟨_, rfl, hbalanced⟩)

/-- Arranging fails for a closing bracket exactly if some beginning of the
list has too many of them, and cites the first with which it has.  Otherwise
it fails for an opening bracket exactly if there are more of these, and cites
the last one without a partner.  In all other cases it succeeds, and the
output has every token but the brackets, each as often as the list has it, and
the operands in the same order. -/
theorem arrange_reports_brackets
    (tokens : List Token) :
    ((∃ t, arrange tokens [] = .error (.unmatchedClosing t)) ↔
      ∃ before, before <+: tokens ∧ openings before < closings before) ∧
    (∀ t, arrange tokens [] = .error (.unmatchedClosing t) →
      IsFirstUnopened tokens t) ∧
    ((∃ t, arrange tokens [] = .error (.unmatchedOpening t)) ↔
      ClosesOnlyOpened tokens ∧ closings tokens < openings tokens) ∧
    (∀ t, arrange tokens [] = .error (.unmatchedOpening t) →
      IsLastUnclosed tokens t) ∧
    ((∃ output, arrange tokens [] = .ok output) ↔
      ClosesOnlyOpened tokens ∧ closings tokens = openings tokens) ∧
    ∀ output, arrange tokens [] = .ok output →
      output.Perm (tokens.filter (·.bracket?.isNone)) ∧
        output.filter Token.isOperand = tokens.filter Token.isOperand := by
  have hexcess :
      (∃ before, before <+: tokens ∧ openings before < closings before) ↔
      ¬ClosesOnlyOpened tokens := by
    simp [ClosesOnlyOpened]
  rw [hexcess]
  rcases arrange_cases tokens with
    ⟨t, ht, hfirst⟩ | ⟨t, ht, hlast, hopened, hlt⟩ |
    ⟨output, houtput, hopened, hcount⟩
  · simpa [ht, hfirst.not_closesOnlyOpened] using hfirst
  · simpa [ht, hopened, hlt, hlt.ne] using hlast
  · have hperm := output_of_arrange (by simp [HoldsWaiting]) houtput
    simpa [houtput, hopened, hcount, unbracketed] using hperm

/-- Of three brackets that are opened the last is closed again, and the second
is the one that is cited. -/
theorem arrange_reports_second_opening :
    let a : Token := ⟨.identifier ⟨1, .integer, .user, by decide⟩, some 2⟩
    let operator (op : Operator) (place : Nat) : Token :=
      ⟨.operator op, some place⟩
    let bracket (side : Bracket) (place : Nat) : Token :=
      ⟨.bracket side, some place⟩
    let tokens :=
      [bracket .opening 1, a, operator .multiply 3, bracket .opening 4,
        bracket .opening 5, a, bracket .closing 7, operator .add 8, a]
    arrange tokens [] = .error (.unmatchedOpening (bracket .opening 4)) ∧
      closings tokens < openings tokens ∧
      IsLastUnclosed tokens (bracket .opening 4) := by
  intro a operator bracket tokens
  have harrange :
      arrange tokens [] = .error (.unmatchedOpening (bracket .opening 4)) :=
    rfl
  obtain ⟨_, _, hiff, hlast, _⟩ := arrange_reports_brackets tokens
  exact ⟨harrange, (hiff.mp ⟨_, harrange⟩).2, hlast _ harrange⟩

end ThreeAddress
