import ThreeAddress.Proofs.Meaning

/-!
# Cells that are worth the same

Operators work on the single-precision values of cells, so that two cells of
one type whose values are worth the same lead to the same results.  They need
not be equal: a large integer is worth as much as the one that is left of it
after a rounded operation.  Results of operators, however, are equal once
their values are, up to the sign of zero.
-/

namespace ThreeAddress

namespace Cell

/-- An integer of 32 bits, or a finite number. -/
def IsProper : Cell → Prop
  | .integer n => inWordRange n = true
  | .float x => x.isFinite = true

/-- The cells have the same type, and operators make the same of them. -/
structure Alike (x y : Cell) : Prop where
  type_eq : x.type = y.type
  exists_worth : ∃ a, x.value.quanta? = some a ∧ y.value.quanta? = some a

/-- The cells hold the same integer, or finite numbers that differ in the sign
of zero at most. -/
def Equals : Cell → Cell → Prop
  | .integer m, .integer n => m = n
  | .float x, .float y => ∃ a, x.quanta? = some a ∧ y.quanta? = some a
  | _, _ => False

theorem IsProper.exists_worth
    {x : Cell}
    (h : x.IsProper) :
    ∃ a, x.value.quanta? = some a := by
  cases x with
  | integer n =>
      obtain ⟨k, hk, _⟩ := Single.exists_quanta?_ofInt h
      exact ⟨_, hk⟩
  | float x => exact Single.isFinite_iff.mp h

theorem IsProper.alike_self
    {x : Cell}
    (h : x.IsProper) :
    x.Alike x := by
  obtain ⟨a, ha⟩ := h.exists_worth
  exact ⟨rfl, a, ha, ha⟩

theorem Alike.trans
    {x y z : Cell}
    (hxy : x.Alike y)
    (hyz : y.Alike z) :
    x.Alike z := by
  obtain ⟨a, hx, hy⟩ := hxy.exists_worth
  obtain ⟨b, hy', hz⟩ := hyz.exists_worth
  obtain rfl : a = b := Option.some.inj (hy.symm.trans hy')
  exact ⟨hxy.type_eq.trans hyz.type_eq, a, hx, hz⟩

theorem Equals.trans
    {x y z : Cell}
    (hxy : x.Equals y)
    (hyz : y.Equals z) :
    x.Equals z := by
  cases x with
  | integer m =>
      cases y with
      | integer n =>
          obtain rfl : m = n := hxy
          exact hyz
      | float y => exact hxy.elim
  | float x =>
      cases y with
      | integer n => exact hxy.elim
      | float y =>
          cases z with
          | integer k => exact hyz.elim
          | float z =>
              obtain ⟨a, hx, hy⟩ := hxy
              obtain ⟨b, hy', hz⟩ := hyz
              obtain rfl : a = b := Option.some.inj (hy.symm.trans hy')
              exact ⟨a, hx, hz⟩

theorem Equals.alike
    {x y : Cell}
    (h : x.Equals y)
    (hx : x.IsProper) :
    x.Alike y := by
  cases x with
  | integer m =>
      cases y with
      | integer n =>
          obtain rfl : m = n := h
          exact hx.alike_self
      | float y => exact h.elim
  | float x =>
      cases y with
      | integer n => exact h.elim
      | float y => exact ⟨rfl, h⟩

/-! ## Results of operators -/

theorem isProper_narrow
    (type : ValueType) {x : Single}
    (hx : x.isFinite = true) :
    (narrow type x).IsProper := by
  cases type with
  | integer => exact Single.inWordRange_truncate x
  | float => exact hx

theorem equals_narrow
    (type : ValueType) {x y : Single} {a : Int}
    (hx : x.quanta? = some a)
    (hy : y.quanta? = some a) :
    (narrow type x).Equals (narrow type y) := by
  cases type with
  | integer =>
      change x.truncate = y.truncate
      rw [Single.truncate_eq hx, Single.truncate_eq hy]
  | float => exact ⟨a, hx, hy⟩

/-- A result that is worth as much as a cell is like the cell when it is
stored, even if the cell is an integer that has lost its last digits on the
way. -/
theorem alike_narrow
    {x : Cell}
    (hx : x.IsProper)
    {y : Single}
    (hy : y.quanta? = x.value.quanta?) :
    (narrow x.type y).Alike x := by
  obtain ⟨a, ha⟩ := hx.exists_worth
  cases x with
  | float x => exact ⟨rfl, a, hy.trans ha, ha⟩
  | integer n =>
      -- Truncation may not give back `n`, but it gives an integer of its
      -- worth.
      obtain ⟨k, hk, hle⟩ := Single.exists_quanta?_ofInt hx
      refine ⟨rfl, a, ?_, ha⟩
      change (Single.ofInt y.truncate).quanta? = some a
      rw [Single.quanta?_ofInt_truncate (hy.trans hk) hle, hy, ha]

end Cell

/-! ## Operands -/

namespace Literal

theorem isProper_cell
    (literal : Literal) :
    literal.cell.IsProper := by
  have hreads := literal.reads
  cases htype : literal.type with
  | integer =>
      rw [htype] at hreads
      obtain ⟨hrange, hcell⟩ := read_integer_eq_ok hreads
      rw [hcell, Cell.IsProper, inWordRange, Bool.and_eq_true,
        decide_eq_true_iff, decide_eq_true_iff]
      omega
  | float =>
      rw [htype] at hreads
      obtain ⟨x, _, hfinite, hcell⟩ := read_float_eq_ok hreads
      rw [hcell]
      exact hfinite

theorem cell_ofSingle_value
    {literal converted : Literal}
    (htype : literal.type = .integer)
    (h : ofSingle literal.value = .ok converted) :
    converted.cell = .float literal.value := by
  have hreads := literal.reads
  rw [htype] at hreads
  obtain ⟨hrange, hcell⟩ := read_integer_eq_ok hreads
  have hproper := literal.isProper_cell
  rw [value, hcell] at h ⊢
  rw [hcell] at hproper
  obtain ⟨n, hn, hvalue⟩ := Single.exists_ofInt_natCast_eq hproper
  rw [Cell.value, hvalue] at h ⊢
  exact cell_ofSingle h

theorem quanta?_of_isZero
    {literal : Literal}
    (h : literal.isZero = true) :
    literal.value.quanta? = some 0 := by
  unfold isZero at h
  unfold value
  split at h
  · next n hcell =>
      rw [hcell, beq_iff_eq.mp h, Cell.value, Single.quanta?_ofInt,
        Int.zero_mul]
      exact Single.nearest?_zero 1
  · next x hcell =>
      rw [hcell, Cell.value]
      cases x with
      | nan | infinite s => simp [Single.isZero] at h
      | finite s n hn =>
          obtain rfl : n = 0 := by simpa [Single.isZero] using h
          simp [Single.quanta?]

theorem quanta?_of_isOne
    {literal : Literal}
    (h : literal.isOne = true) :
    literal.value.quanta? = some Single.unit := by
  have hone : Single.one.quanta? = some Single.unit := by decide +kernel
  unfold isOne at h
  unfold value
  split at h
  · next n hcell =>
      rw [hcell, beq_iff_eq.mp h]
      exact hone
  · next x hcell =>
      rw [hcell, beq_iff_eq.mp h]
      exact hone

theorem quanta?_zero
    (type : ValueType) :
    (Literal.zero type).value.quanta? = some 0 := by
  cases type <;> decide +kernel

end Literal

namespace Token

theorem resolution_of_identifier?
    {t : Token} {id : Identifier}
    (h : t.identifier? = some id) :
    Resolution.ofToken t = .ofType id.type := by
  cases hkind : t.kind <;> simp_all [identifier?, Resolution.ofToken, type?]

theorem resolution_of_number?
    {t : Token} {literal : Literal}
    (h : t.number? = some literal) :
    Resolution.ofToken t = .ofType literal.type := by
  cases hkind : t.kind <;> simp_all [number?, Resolution.ofToken, type?]

def HasCell (cellOf : Nat → Cell) (t : Token) : Prop :=
  ∀ id, t.identifier? = some id →
    (cellOf id.attr).type = id.type ∧ (cellOf id.attr).IsProper

theorem cell_of_identifier?
    {cellOf : Nat → Cell} {t : Token} {id : Identifier}
    (h : t.identifier? = some id) :
    t.cell cellOf = cellOf id.attr := by
  cases hkind : t.kind <;> simp_all [identifier?, cell]

theorem cell_of_number?
    {cellOf : Nat → Cell} {t : Token} {literal : Literal}
    (h : t.number? = some literal) :
    t.cell cellOf = literal.cell := by
  cases hkind : t.kind <;> simp_all [number?, cell]

theorem quanta?_of_isZero
    {cellOf : Nat → Cell} {t : Token} {literal : Literal}
    (ht : t.number? = some literal)
    (h : literal.isZero = true) :
    (t.cell cellOf).value.quanta? = some 0 := by
  rw [cell_of_number? ht]
  exact Literal.quanta?_of_isZero h

theorem quanta?_of_isOne
    {cellOf : Nat → Cell} {t : Token} {literal : Literal}
    (ht : t.number? = some literal)
    (h : literal.isOne = true) :
    (t.cell cellOf).value.quanta? = some Single.unit := by
  rw [cell_of_number? ht]
  exact Literal.quanta?_of_isOne h

theorem isProper_cell
    {cellOf : Nat → Cell} {t : Token}
    (ht : t.isOperand = true)
    (hcell : t.HasCell cellOf) :
    (t.cell cellOf).IsProper := by
  cases hkind : t.kind with
  | operator op | bracket side => simp [isOperand, hkind] at ht
  | number literal =>
      rw [cell_of_number?
        (show t.number? = some literal by simp [number?, hkind])]
      exact literal.isProper_cell
  | identifier id =>
      have hid : t.identifier? = some id := by simp [identifier?, hkind]
      rw [cell_of_identifier? hid]
      exact (hcell id hid).2

end Token

/-! ## Outcomes that match -/

theorem Machine.computed_of_isFinite
    (type : ValueType) {op : Operator} {x y : Cell}
    (h : (op.apply x.value y.value).isFinite = true) :
    (computed type op x y).map Prod.fst =
      .ok (.narrow type (op.apply x.value y.value)) := by
  rw [computed, if_pos h]
  rfl

/-- Two outcomes match if both are values alike, or if both lack a finite
result.  Values are equal unless the second stands for a single operand. -/
inductive Matches (isOperand : Bool) :
    Except RuntimeFault Cell → Except RuntimeFault Cell → Prop where
  | value {x y : Cell} (halike : x.Alike y)
      (hequals : isOperand = false → x.Equals y) :
      Matches isOperand (.ok x) (.ok y)
  | nonFinite (l : Cell) (op : Operator) (r : Cell) (l' : Cell)
      (op' : Operator)
      (r' : Cell) :
      Matches isOperand (.error (.nonFinite l op r))
        (.error (.nonFinite l' op' r'))

namespace Matches

theorem of_equals
    {x y : Cell}
    (h : x.Equals y)
    (hx : x.IsProper) :
    Matches false (.ok x) (.ok y) :=
  .value (h.alike hx) fun _ => h

theorem weaken
    {isOperand : Bool} {first second : Except RuntimeFault Cell}
    (h : Matches false first second) :
    Matches isOperand first second := by
  cases h with
  | value halike hequals => exact .value halike fun _ => hequals rfl
  | nonFinite => exact .nonFinite _ _ _ _ _ _

theorem trans
    {isOperand : Bool} {first second third : Except RuntimeFault Cell}
    (h : Matches false first second)
    (h' : Matches isOperand second third) :
    Matches isOperand first third := by
  cases h with
  | value halike hequals =>
      cases h' with
      | value halike' hequals' =>
          exact .value (halike.trans halike') fun hoperand =>
            (hequals rfl).trans (hequals' hoperand)
  | nonFinite l op r l' op' r' =>
      cases h' with
      | nonFinite => exact .nonFinite _ _ _ _ _ _

theorem cast
    {isOperand : Bool} {first second : Except RuntimeFault Cell}
    (h : Matches isOperand first second) :
    Matches false (first.map fun x => .float x.value)
      (second.map fun x => .float x.value) := by
  cases h with
  | value halike _ =>
      exact .value ⟨rfl, halike.exists_worth⟩ fun _ => halike.exists_worth
  | nonFinite => exact .nonFinite _ _ _ _ _ _

theorem computed
    (type : ValueType) (op : Operator) {x y x' y' : Cell}
    (hx : x.Alike x')
    (hy : y.Alike y') :
    Matches false ((Machine.computed type op x y).map Prod.fst)
      ((Machine.computed type op x' y').map Prod.fst) := by
  obtain ⟨a, ha, ha'⟩ := hx.exists_worth
  obtain ⟨b, hb, hb'⟩ := hy.exists_worth
  have hworth := op.quanta?_apply ha hb
  have hworth' := op.quanta?_apply ha' hb'
  have hfinite := Single.isFinite_eq_of_quanta?_eq (hworth.trans hworth'.symm)
  unfold Machine.computed
  rw [← hfinite]
  split
  · next h =>
      obtain ⟨c, hc⟩ := Single.isFinite_iff.mp h
      have hc' := hworth'.trans (hworth.symm.trans hc)
      exact of_equals (Cell.equals_narrow type hc hc')
        (Cell.isProper_narrow type h)
  · exact .nonFinite _ _ _ _ _ _

/-- An operator takes matching operands to matching results, which are
equal. -/
theorem operation
    {isLeft isRight : Bool} {l r l' r' : Except RuntimeFault Cell}
    (hl : Matches isLeft l l')
    (hr : Matches isRight r r')
    (type : ValueType) (op : Operator) :
    Matches false
      (l.bind fun x => r.bind fun y =>
        (Machine.computed type op x y).map Prod.fst)
      (l'.bind fun x => r'.bind fun y => (Machine.computed type op x y).map
        Prod.fst) := by
  cases hl with
  | nonFinite => exact .nonFinite _ _ _ _ _ _
  | value hx _ =>
      cases hr with
      | nonFinite => exact .nonFinite _ _ _ _ _ _
      | value hy _ => exact computed type op hx hy

end Matches

end ThreeAddress
