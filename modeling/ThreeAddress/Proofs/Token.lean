import ThreeAddress.Tree.Parse
import Mathlib.Tactic

/-!
# What a token can be

A token is an operand, an operator or a bracket, and never two of these.  The
parser asks for one of the three at a time; this module relates its questions
to each other.
-/

namespace ThreeAddress

namespace Token

/-- An operator on two operands. -/
def IsArithmetic (t : Token) : Prop :=
  ∃ op, t.operator? = some op ∧ op ≠ .toFloat

theorem operator?_of_isOperand
    {t : Token}
    (h : t.isOperand = true) :
    t.operator? = none := by
  cases hkind : t.kind <;> simp_all [isOperand, operator?]

theorem isOperand_of_number?
    {t : Token} {literal : Literal}
    (h : t.number? = some literal) :
    t.isOperand = true := by
  cases hkind : t.kind <;> simp_all [isOperand, number?]

theorem isOperand_of_identifier?
    {t : Token} {id : Identifier}
    (h : t.identifier? = some id) :
    t.isOperand = true := by
  cases hkind : t.kind <;> simp_all [isOperand, identifier?]

theorem kind_of_identifier?
    {t : Token} {id : Identifier}
    (h : t.identifier? = some id) :
    t.kind = .identifier id := by
  cases hkind : t.kind <;> simp_all [identifier?]

theorem kind_of_number?
    {t : Token} {n : Literal}
    (h : t.number? = some n) :
    t.kind = .number n := by
  cases hkind : t.kind <;> simp_all [number?]

theorem number?_of_identifier?
    {t : Token} {id : Identifier}
    (h : t.identifier? = some id) :
    t.number? = none := by
  rw [number?, kind_of_identifier? h]

theorem bracket?_of_operator?
    {t : Token} {op : Operator}
    (h : t.operator? = some op) :
    t.bracket? = none := by
  cases hkind : t.kind <;> simp_all [bracket?, operator?]

theorem isOperand_of_operator?
    {t : Token} {op : Operator}
    (h : t.operator? = some op) :
    t.isOperand = false := by
  cases hkind : t.kind <;> simp_all [isOperand, operator?]

theorem identifier?_of_operator?
    {t : Token} {op : Operator}
    (h : t.operator? = some op) :
    t.identifier? = none := by
  cases hkind : t.kind <;> simp_all [identifier?, operator?]

theorem startsOperand_of_operator?
    {t : Token} {op : Operator}
    (h : t.operator? = some op) :
    t.startsOperand = false := by
  simp [startsOperand, isOperand_of_operator? h, bracket?_of_operator? h]

theorem endsOperand_of_operator?
    {t : Token} {op : Operator}
    (h : t.operator? = some op) :
    t.endsOperand = false := by
  simp [endsOperand, isOperand_of_operator? h, bracket?_of_operator? h]

theorem isOperand_of_bracket?
    {t : Token} {side : Bracket}
    (h : t.bracket? = some side) :
    t.isOperand = false := by
  cases hkind : t.kind <;> simp_all [isOperand, bracket?]

theorem bracket?_of_isOperand
    {t : Token}
    (h : t.isOperand = true) :
    t.bracket? = none := by
  cases hkind : t.kind <;> simp_all [isOperand, bracket?]

theorem isOperand_or_operator?
    {t : Token}
    (h : t.bracket? = none) :
    t.isOperand = true ∨ ∃ op, t.operator? = some op := by
  cases hkind : t.kind with
  | operator op => exact .inr ⟨op, by rw [operator?, hkind]⟩
  | bracket side => simp [bracket?, hkind] at h
  | number literal | identifier id => exact .inl (by rw [isOperand, hkind])

theorem startsOperand_of_opening
    {t : Token}
    (h : t.bracket? = some .opening) :
    t.startsOperand = true ∧ t.endsOperand = false := by
  simp [startsOperand, endsOperand, isOperand_of_bracket? h, h]

theorem endsOperand_of_closing
    {t : Token}
    (h : t.bracket? = some .closing) :
    t.endsOperand = true ∧ t.startsOperand = false := by
  simp [startsOperand, endsOperand, isOperand_of_bracket? h, h]

theorem startsOperand_cases
    {t : Token}
    (h : t.startsOperand = true) :
    t.isOperand = true ∨ t.bracket? = some .opening := by
  simpa [startsOperand] using h

theorem not_startsOperand_cases
    {t : Token}
    (h : t.startsOperand = false) :
    (∃ op, t.operator? = some op) ∨ t.bracket? = some .closing := by
  cases hkind : t.kind with
  | operator op => exact .inl ⟨op, by simp [operator?, hkind]⟩
  | bracket side =>
      cases side with
      | opening => simp [startsOperand, bracket?, hkind] at h
      | closing => exact .inr (by simp [bracket?, hkind])
  | number literal | identifier id =>
      simp [startsOperand, isOperand, hkind] at h

end Token

end ThreeAddress
