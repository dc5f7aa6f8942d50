import ThreeAddress.Proofs.Grammar
import Mathlib.Tactic

/-!
# The parser accepts the grammar and nothing else

Every list of tokens that passes the local checks and whose brackets match is
an expression.  While the tokens are read, each open bracket on the stack
stands for a beginning which some factor would complete; when the stack runs
out of brackets, all beginnings are complete.  With the other direction this
gives the exact behaviour of the parser, its refusals included.
-/

namespace ThreeAddress

/-! ## Beginnings of expressions -/

/-- A beginning that any factor completes to an expression. -/
def Awaits (before : List Token) : Prop :=
  ∀ fs f, Derives .factor fs f → ∃ tree,
    Derives .expression (before ++ fs) tree

/-- A beginning that ends with the opening bracket of a factor it awaits. -/
def Opens (before : List Token) : Prop :=
  ∃ outer opening, before = outer ++ [opening] ∧
    opening.bracket? = some .opening ∧ Awaits outer

/-- Tokens behind the beginnings that are still open, the innermost first. -/
def enclose : List (List Token) → List Token → List Token
  | [], ts => ts
  | before :: contexts, ts => enclose contexts (before ++ ts)

def openings (stack : List Token) : Nat :=
  stack.countP fun w => w.bracket? = some .opening

theorem awaits_nil : Awaits [] := by
  intro fs f hfactor
  exact ⟨f, .ofTerm (.ofFactor hfactor)⟩

theorem awaits_append_operator
    {done : List Token} {e : Tree} {t : Token} {op : Operator}
    (hdone : Derives .expression done e)
    (ht : t.operator? = some op)
    (hop : op ≠ .toFloat) :
    Awaits (done ++ [t]) := by
  intro fs f hfactor
  rw [List.append_assoc, List.singleton_append]
  exact hdone.extend ht hop hfactor

theorem openings_cons_opening
    {t : Token}
    (ht : t.bracket? = some .opening)
    (stack : List Token) :
    openings (t :: stack) = openings stack + 1 := by
  simp [openings, ht]

theorem openings_cons_operator
    {t : Token} {op : Operator}
    (ht : t.operator? = some op)
    (stack : List Token) :
    openings (t :: stack) = openings stack := by
  simp [openings, Token.bracket?_of_operator? ht]

theorem openings_dropWhile_comesBefore
    (op : Operator) (stack : List Token) :
    openings (stack.dropWhile (comesBefore op)) = openings stack := by
  induction stack with
  | nil => rfl
  | cons w stack ih =>
      cases hw : w.operator? with
      | none => simp [comesBefore, hw]
      | some top =>
          rw [openings_cons_operator hw, ← ih, List.dropWhile_cons]
          split
          · rfl
          · rw [openings_cons_operator hw, ih]

theorem openings_of_dropWhile_toOpening
    {stack below : List Token} {w : Token}
    (h : stack.dropWhile (·.bracket? != some .opening) = w :: below) :
    openings stack = openings below + 1 := by
  induction stack with
  | nil => simp at h
  | cons top stack ih =>
      by_cases htop : top.bracket? = some .opening
      · obtain ⟨rfl, rfl⟩ : top = w ∧ stack = below := by simpa [htop] using h
        exact openings_cons_opening htop stack
      · have hrest :
            stack.dropWhile (·.bracket? != some .opening) = w :: below := by
          simpa [List.dropWhile_cons, htop] using h
        rw [← ih hrest]
        simp [openings, htop]

theorem openings_eq_zero_of_arrange_nil
    {stack out : List Token}
    (h : arrange [] stack = .ok out) :
    openings stack = 0 := by
  rw [arrange] at h
  split at h
  · contradiction
  · next hnone =>
      rw [openings, List.countP_eq_zero]
      intro w hw
      have hbracket := List.find?_eq_none.mp hnone w hw
      cases hside : w.bracket? <;> simp_all

theorem startsOperand_head?_of_isChain
    {t : Token} {rest : List Token}
    (h : (t :: rest).IsChain Adjoining) :
    ∀ next ∈ rest.head?, next.startsOperand = !t.endsOperand := by
  intro next hnext
  have hadjoin := (List.isChain_cons.mp h).1 next hnext
  unfold Adjoining at hadjoin
  cases ht : t.endsOperand <;> cases hn : next.startsOperand <;> simp_all

theorem exists_head?_of_getLast?
    {t : Token} {rest : List Token}
    (hchain : (t :: rest).IsChain Adjoining)
    (hlast : ∀ last ∈ (t :: rest).getLast?, last.endsOperand = true)
    (ht : t.endsOperand = false) :
    ∃ first, rest.head? = some first ∧ first.startsOperand = true := by
  cases rest with
  | nil => simp [hlast t rfl] at ht
  | cons next rest =>
      have hnext := startsOperand_head?_of_isChain hchain next rfl
      exact ⟨next, rfl, by simpa [ht] using hnext⟩

/-- The rest of the tokens completes what stands before it to an expression,
whether an operand is awaited or has just ended. -/
structure Completes (contexts : List (List Token)) (rest : List Token) :
    Prop where
  afterBeginning : ∀ before, Awaits before →
    (∃ first, rest.head? = some first ∧ first.startsOperand = true) →
      ∃ tree, Derives .expression (enclose contexts (before ++ rest)) tree
  afterOperand : ∀ done e, Derives .expression done e →
    (∀ first ∈ rest.head?, first.startsOperand = false) →
      ∃ tree, Derives .expression (enclose contexts (done ++ rest)) tree

/-! ## One token more -/

theorem Completes.consOperand
    {contexts : List (List Token)} {rest before : List Token} {t : Token}
    (h : Completes contexts rest)
    (ht : t.isOperand = true)
    (hnext : ∀ next ∈ rest.head?, next.startsOperand = false)
    (hbefore : Awaits before) :
    ∃ tree,
      Derives .expression (enclose contexts (before ++ t :: rest)) tree := by
  obtain ⟨e, he⟩ := hbefore [t] _ (.operand ht)
  simpa using h.afterOperand (before ++ [t]) e he hnext

theorem Completes.consOpening
    {contexts : List (List Token)} {rest before : List Token} {t : Token}
    (h : Completes ((before ++ [t]) :: contexts) rest)
    (hnext : ∃ next, rest.head? = some next ∧ next.startsOperand = true) :
    ∃ tree,
      Derives .expression (enclose contexts (before ++ t :: rest)) tree := by
  simpa [enclose] using h.afterBeginning [] awaits_nil hnext

theorem Completes.consOperator
    {contexts : List (List Token)} {rest done : List Token} {e : Tree}
    {t : Token} {op : Operator}
    (h : Completes contexts rest)
    (ht : t.operator? = some op)
    (hop : op ≠ .toFloat)
    (hnext : ∃ next, rest.head? = some next ∧ next.startsOperand = true)
    (hdone : Derives .expression done e) :
    ∃ tree,
      Derives .expression (enclose contexts (done ++ t :: rest)) tree := by
  simpa using h.afterBeginning (done ++ [t])
    (awaits_append_operator hdone ht hop) hnext

theorem Completes.consClosing
    {context : List Token} {contexts : List (List Token)}
    {rest done : List Token} {e : Tree} {t : Token}
    (h : Completes contexts rest)
    (hcontext : Opens context)
    (ht : t.bracket? = some .closing)
    (hnext : ∀ next ∈ rest.head?, next.startsOperand = false)
    (hdone : Derives .expression done e) :
    ∃ tree, Derives .expression
      (enclose (context :: contexts) (done ++ t :: rest)) tree := by
  obtain ⟨outer, opening, rfl, hopening, houter⟩ := hcontext
  obtain ⟨e', he'⟩ := houter _ e (.bracketed hopening ht hdone)
  simpa [enclose] using h.afterOperand _ e' he' hnext

/-! ## All tokens -/

/-- What is known of the tokens that are still to be read: they are in order,
they can be arranged on the stack, and each opening bracket on the stack
belongs to a beginning. -/
structure Remaining (contexts : List (List Token)) (rest stack : List Token) :
    Prop where
  plain : ∀ t ∈ rest, t.operator? ≠ some .toFloat
  chain : rest.IsChain Adjoining
  last : ∀ last ∈ rest.getLast?, last.endsOperand = true
  arranges : ∃ out, arrange rest stack = .ok out
  opens : ∀ context ∈ contexts, Opens context
  count : openings stack = contexts.length

namespace Remaining

variable {contexts : List (List Token)} {rest stack : List Token} {t : Token}

theorem tail
    (h : Remaining contexts (t :: rest) stack)
    {contexts' : List (List Token)} {stack' : List Token}
    (harranges : ∃ out, arrange rest stack' = .ok out)
    (hopens : ∀ context ∈ contexts', Opens context)
    (hcount : openings stack' = contexts'.length) :
    Remaining contexts' rest stack' where
  plain := fun u hu => h.plain u (List.mem_cons_of_mem t hu)
  chain := (List.isChain_cons.mp h.chain).2
  last := by
    intro last hmem
    apply h.last
    rw [List.getLast?_cons, Option.mem_def] at *
    simp [hmem]
  arranges := harranges
  opens := hopens
  count := hcount

theorem tailOperand
    (h : Remaining contexts (t :: rest) stack)
    (ht : t.isOperand = true) :
    Remaining contexts rest stack := by
  obtain ⟨out, harrange⟩ := h.arranges
  rw [arrange_operand ht] at harrange
  obtain ⟨out', harrange', _⟩ := Success.map_eq_ok_iff.mp harrange
  exact h.tail ⟨out', harrange'⟩ h.opens h.count

theorem tailOpening
    (h : Remaining contexts (t :: rest) stack)
    (ht : t.bracket? = some .opening)
    {before : List Token}
    (hbefore : Awaits before) :
    Remaining ((before ++ [t]) :: contexts) rest (t :: stack) := by
  obtain ⟨out, harrange⟩ := h.arranges
  rw [arrange_opening ht] at harrange
  have hopens : Opens (before ++ [t]) := ⟨before, t, rfl, ht, hbefore⟩
  refine h.tail ⟨out, harrange⟩
    (List.forall_mem_cons.mpr ⟨hopens, h.opens⟩) ?_
  rw [openings_cons_opening ht, h.count, List.length_cons]

theorem tailOperator
    (h : Remaining contexts (t :: rest) stack)
    {op : Operator}
    (ht : t.operator? = some op) :
    Remaining contexts rest (t :: stack.dropWhile (comesBefore op)) := by
  obtain ⟨out, harrange⟩ := h.arranges
  rw [arrange_operator ht] at harrange
  obtain ⟨out', harrange', _⟩ := Success.map_eq_ok_iff.mp harrange
  refine h.tail ⟨out', harrange'⟩ h.opens ?_
  rw [openings_cons_operator ht, openings_dropWhile_comesBefore, h.count]

/-- A closing bracket completes the innermost beginning; there is one, since
arranging finds an opening bracket on the stack. -/
theorem tailClosing
    (h : Remaining contexts (t :: rest) stack)
    (ht : t.bracket? = some .closing) :
    ∃ context outer below, contexts = context :: outer ∧ Opens context ∧
      Remaining outer rest below := by
  obtain ⟨out, harrange⟩ := h.arranges
  rw [arrange_closing ht] at harrange
  split at harrange
  · contradiction
  · next w below hbelow =>
      obtain ⟨out', harrange', _⟩ := Success.map_eq_ok_iff.mp harrange
      have hcount := h.count
      rw [openings_of_dropWhile_toOpening hbelow] at hcount
      cases contexts with
      | nil => simp at hcount
      | cons context outer =>
          obtain ⟨hcontext, hopens⟩ := List.forall_mem_cons.mp h.opens
          exact ⟨context, outer, below, rfl, hcontext,
            h.tail ⟨out', harrange'⟩ hopens (by simpa using hcount)⟩

end Remaining

theorem Remaining.completes
    {contexts : List (List Token)} {rest stack : List Token}
    (h : Remaining contexts rest stack) :
    Completes contexts rest := by
  -- Each token moves the border between what is derived and what remains; the
  -- beginnings stay in step with the brackets on the stack.
  induction rest generalizing stack contexts with
  | nil =>
      obtain ⟨out, harrange⟩ := h.arranges
      have hclosed := openings_eq_zero_of_arrange_nil harrange
      obtain rfl : contexts = [] :=
        List.eq_nil_of_length_eq_zero (h.count.symm.trans hclosed)
      constructor
      · intro before _ hfirst
        simp at hfirst
      · intro done e hdone _
        exact ⟨e, by simpa [enclose] using hdone⟩
  | cons t rest ih =>
      have hnext := startsOperand_head?_of_isChain h.chain
      constructor
      · intro before hbefore hfirst
        obtain ⟨first, hfirst, hstarts⟩ := hfirst
        obtain rfl : t = first := by simpa using hfirst
        rcases Token.startsOperand_cases hstarts with hoperand | hopening
        · have hends : t.endsOperand = true := by
            simp [Token.endsOperand, hoperand]
          exact (ih (h.tailOperand hoperand)).consOperand hoperand
            (by simpa [hends] using hnext) hbefore
        · exact (ih (h.tailOpening hopening hbefore)).consOpening
            (exists_head?_of_getLast? h.chain h.last
              (Token.startsOperand_of_opening hopening).2)
      · intro done e hdone hfirst
        rcases Token.not_startsOperand_cases (hfirst t rfl) with
          ⟨op, hop⟩ | hclosing
        · have hne : op ≠ .toFloat := by
            rintro rfl
            exact h.plain t List.mem_cons_self hop
          exact (ih (h.tailOperator hop)).consOperator hop hne
            (exists_head?_of_getLast? h.chain h.last
              (Token.endsOperand_of_operator? hop)) hdone
        · obtain ⟨context, outer, below, rfl, hcontext, hremaining⟩ :=
            h.tailClosing hclosing
          have hends := (Token.endsOperand_of_closing hclosing).1
          exact (ih hremaining).consClosing hcontext hclosing
            (by simpa [hends] using hnext) hdone

theorem exists_derives_of_checked
    {tokens out : List Token}
    (hplain : ∀ t ∈ tokens, t.operator? ≠ some .toFloat)
    (horder : InOrder tokens)
    (harrange : arrange tokens [] = .ok out) :
    ∃ tree, Derives .expression tokens tree := by
  obtain ⟨last, hlast, hends⟩ := horder.ends
  have hremaining : Remaining [] tokens [] := by
    refine ⟨hplain, horder.chain, ?_, ⟨out, harrange⟩, by simp, rfl⟩
    intro other hother
    obtain rfl : last = other := by simpa [hlast] using hother
    exact hends
  simpa [enclose] using
    hremaining.completes.afterBeginning [] awaits_nil horder.starts

/-- Parsing gives an expression its tree, and refuses anything else for a
fault of the grammar. -/
theorem parse_cases
    {tokens : List Token}
    (hplain : ∀ t ∈ tokens, t.operator? ≠ some .toFloat) :
    (∃ tree, Derives .expression tokens tree ∧ parse tokens = .ok tree) ∨
      ∃ fault, parse tokens = .error (.grammar fault) := by
  cases horder : checkOrder tokens with
  | error fault =>
      exact .inr ⟨fault,
        by simp [parse, horder, Except.mapError, bind, Except.bind]⟩
  | ok u =>
      cases harrange : arrange tokens [] with
      | error fault =>
          exact .inr ⟨fault, by
            simp [parse, horder, harrange, Except.mapError, bind,
              Except.bind]⟩
      | ok out =>
          obtain ⟨tree, htree⟩ := exists_derives_of_checked hplain
            ((checkOrder_eq_ok_iff tokens).mp horder) harrange
          exact .inl ⟨tree, htree, htree.parse_eq⟩

/-- Parsing accepts exactly the expressions of the grammar and gives each its
tree; what it refuses, it refuses for a fault of the grammar. -/
theorem parse_eq_ok_iff_derives
    (tokens : List Token)
    (hplain : ∀ t ∈ tokens, t.operator? ≠ some .toFloat) :
    (∀ tree, parse tokens = .ok tree ↔ Derives .expression tokens tree) ∧
      ((¬∃ tree, Derives .expression tokens tree) →
        ∃ fault, parse tokens = .error (.grammar fault)) := by
  constructor
  · intro tree
    constructor
    · intro hparse
      rcases parse_cases hplain with
        ⟨other, hderives, hother⟩ | ⟨fault, hfault⟩
      · obtain rfl : other = tree := by simpa [hother] using hparse
        exact hderives
      · simp [hfault] at hparse
    · intro hderives
      exact hderives.parse_eq
  · intro hnone
    rcases parse_cases hplain with ⟨tree, hderives, _⟩ | hfault
    · exact (hnone ⟨tree, hderives⟩).elim
    · exact hfault

/-- Differences associate to the left, and brackets leave no trace. -/
theorem parse_difference_of_differences :
    let a : Token := ⟨.identifier ⟨1, .integer, .user, by decide⟩, some 1⟩
    let minus (place : Nat) : Token := ⟨.operator .subtract, some place⟩
    let bracket (side : Bracket) (place : Nat) : Token :=
      ⟨.bracket side, some place⟩
    let tokens := [a, minus 2, a, minus 4, bracket .opening 5, a, minus 7, a,
      bracket .closing 9]
    (∀ t ∈ tokens, t.operator? ≠ some .toFloat) ∧
      parse tokens =
        .ok (.join (minus 4) (.join (minus 2) (.ofToken a) (.ofToken a))
          (.join (minus 7) (.ofToken a) (.ofToken a))) := by
  intro a minus bracket tokens
  have hplain : ∀ t ∈ tokens, t.operator? ≠ some .toFloat := by decide
  have ha : Derives .factor [a] (.ofToken a) := .operand rfl
  have hdifference (place : Nat) : Derives .expression [a, minus place, a]
      (.join (minus place) (.ofToken a) (.ofToken a)) :=
    .sum (.ofTerm (.ofFactor ha)) rfl (.inr rfl) (.ofFactor ha)
  have hbracketed : Derives .factor
      [bracket .opening 5, a, minus 7, a, bracket .closing 9]
      (.join (minus 7) (.ofToken a) (.ofToken a)) :=
    .bracketed rfl rfl (hdifference 7)
  exact ⟨hplain, ((parse_eq_ok_iff_derives tokens hplain).1 _).mpr
    (.sum (hdifference 2) rfl (.inr rfl) (.ofFactor hbracketed))⟩

end ThreeAddress
