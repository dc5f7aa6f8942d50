/-!
# Single-precision numbers

A binary floating point number of 24 significant bits.  Every finite one is a
whole multiple of 2⁻¹⁴⁹, the *quantum*, so that a magnitude is a natural
number of quanta, and the numbers of 24 significant bits are those that are a
multiple of their own *spacing*.  Each operation takes the exact result, as a
quotient of natural numbers of quanta, and rounds it once: to the nearest
magnitude that fits, a tie to the one with an even last bit.
-/

namespace ThreeAddress

-- Powers are those of the core library, also where another instance is in
-- scope.
attribute [local instance(2000)] instPowNat

namespace Single

/-- The number of quanta in one. -/
def unit : Nat := 2 ^ (149 : Nat)

/-- The least number of quanta that is too large for a finite number, 2¹²⁸. -/
def limit : Nat := 2 ^ (128 : Nat) * unit

/-- The distance of a magnitude of `n` quanta to the next one of 24
significant bits. -/
def spacing (n : Nat) : Nat := 2 ^ (n.log2 - 23)

/-- A magnitude is that of a finite number. -/
def Fits (n : Nat) : Prop := n < limit ∧ spacing n ∣ n

instance (n : Nat) : Decidable (Fits n) := inferInstanceAs (Decidable (_ ∧ _))

/-- The whole number nearest to a quotient, a tie to the even one. -/
def roundHalfEven (num den : Nat) : Nat :=
  let q := num / den
  let r := num % den
  if 2 * r < den then q
  else if den < 2 * r then q + 1
  else if q % 2 = 0 then q else q + 1

/-- The number of 24 significant bits that is nearest to a quotient, a tie to
the one whose last bit is zero. -/
def round (num den : Nat) : Nat :=
  let s := spacing (num / den)
  roundHalfEven num (den * s) * s

theorem roundHalfEven_le
    (num den : Nat) :
    roundHalfEven num den ≤ num / den + 1 := by
  unfold roundHalfEven
  dsimp only
  split
  · omega
  · split
    · omega
    · split <;> omega

theorem div_spacing_lt
    (n : Nat) :
    n / spacing n < 2 ^ (24 : Nat) := by
  unfold spacing
  rw [Nat.div_lt_iff_lt_mul (Nat.two_pow_pos _), ← Nat.pow_add]
  exact Nat.lt_of_lt_of_le Nat.lt_log2_self
    (Nat.pow_le_pow_right (by decide) (by omega))

theorem roundHalfEven_le_precision
    (num den : Nat) :
    roundHalfEven num (den * spacing (num / den)) ≤ 2 ^ (24 : Nat) := by
  have hbound := roundHalfEven_le num (den * spacing (num / den))
  have hfloor := div_spacing_lt (num / den)
  rw [Nat.div_div_eq_div_mul] at hfloor
  omega

/-- A multiple of a power of two whose factor has at most 24 bits is a
multiple of its spacing. -/
theorem spacing_dvd_of_le
    {m g : Nat}
    (hm : m ≤ 2 ^ (24 : Nat)) :
    spacing (m * 2 ^ g) ∣ m * 2 ^ g := by
  rcases Nat.eq_zero_or_pos m with rfl | hpos
  · simp
  rcases Nat.lt_or_eq_of_le hm with hlt | rfl
  · refine Nat.dvd_trans (Nat.pow_dvd_pow 2 ?_) (Nat.dvd_mul_left _ m)
    have hne : m * 2 ^ g ≠ 0 :=
      Nat.ne_of_gt (Nat.mul_pos hpos (Nat.two_pow_pos g))
    have hlog : (m * 2 ^ g).log2 < 24 + g := by
      rw [Nat.log2_lt hne, Nat.pow_add]
      exact Nat.mul_lt_mul_of_pos_right hlt (Nat.two_pow_pos g)
    omega
  · rw [← Nat.pow_add, spacing, Nat.log2_two_pow]
    exact Nat.pow_dvd_pow 2 (by omega)

theorem spacing_dvd_round
    (num den : Nat) :
    spacing (round num den) ∣ round num den :=
  spacing_dvd_of_le (roundHalfEven_le_precision num den)

end Single

/-- A single-precision number: not a number, an infinity, or a sign and a
magnitude in quanta. -/
inductive Single where
  | nan
  | infinite (negative : Bool)
  | finite (negative : Bool) (quanta : Nat) (fits : Single.Fits quanta)
  deriving DecidableEq

namespace Single

/-- The number nearest to a signed quotient of quanta, infinite from `limit`
on. -/
def ofRatio (negative : Bool) (num den : Nat) : Single :=
  if h : round num den < limit then
    .finite negative (round num den) ⟨h, spacing_dvd_round num den⟩
  else .infinite negative

/-- The number nearest to an integer. -/
def ofInt (n : Int) : Single := ofRatio (n < 0) (n.natAbs * unit) 1

def zero : Single := ofInt 0

def one : Single := ofInt 1

instance : Inhabited Single := ⟨zero⟩

def isFinite : Single → Bool
  | .finite _ _ _ => true
  | _ => false

/-- Zero of either sign. -/
def isZero : Single → Bool
  | .finite _ n _ => n == 0
  | _ => false

def neg : Single → Single
  | .nan => .nan
  | .infinite s => .infinite !s
  | .finite s n h => .finite (!s) n h

/-- The number without its sign. -/
def abs : Single → Single
  | .nan => .nan
  | .infinite _ => .infinite false
  | .finite _ n h => .finite false n h

/-- A finite number as a signed count of quanta. -/
def signedQuanta (negative : Bool) (n : Nat) : Int :=
  if negative then -(n : Int) else n

/-- The exact sum, rounded once.  A sum of zero is negative only if both terms
are. -/
def add : Single → Single → Single
  | .nan, _ => .nan
  | _, .nan => .nan
  | .infinite s, .infinite t => if s = t then .infinite s else .nan
  | .infinite s, .finite _ _ _ => .infinite s
  | .finite _ _ _, .infinite t => .infinite t
  | .finite s m _, .finite t n _ =>
    let sum := signedQuanta s m + signedQuanta t n
    ofRatio (if sum = 0 then s && t else sum < 0) sum.natAbs 1

def sub (x y : Single) : Single := add x (neg y)

/-- The exact product, rounded once. -/
def mul : Single → Single → Single
  | .nan, _ => .nan
  | _, .nan => .nan
  | .infinite s, .infinite t => .infinite (s ^^ t)
  | .infinite s, .finite t n _ => if n = 0 then .nan else .infinite (s ^^ t)
  | .finite s m _, .infinite t => if m = 0 then .nan else .infinite (s ^^ t)
  | .finite s m _, .finite t n _ => ofRatio (s ^^ t) (m * n) unit

/-- The exact quotient, rounded once; a quotient by zero is infinite, of zero
by zero none. -/
def div : Single → Single → Single
  | .nan, _ => .nan
  | _, .nan => .nan
  | .infinite _, .infinite _ => .nan
  | .infinite s, .finite t _ _ => .infinite (s ^^ t)
  | .finite s _ _, .infinite t => ofRatio (s ^^ t) 0 1
  | .finite s m _, .finite t n _ =>
    if n = 0 then if m = 0 then .nan else .infinite (s ^^ t)
    else ofRatio (s ^^ t) (m * unit) n

instance : Neg Single := ⟨neg⟩
instance : Add Single := ⟨add⟩
instance : Sub Single := ⟨sub⟩
instance : Mul Single := ⟨mul⟩
instance : Div Single := ⟨div⟩

/-- Zero or above, zero of either sign included. -/
def isNonneg : Single → Bool
  | .nan => false
  | .infinite s => !s
  | .finite s n _ => !s || n == 0

end Single

/-- The integers of 32 bits. -/
def inWordRange (n : Int) : Bool := -2 ^ (31 : Nat) ≤ n && n < 2 ^ (31 : Nat)

/-- The nearest integer of 32 bits. -/
def clampToWord (n : Int) : Int :=
  max (-2 ^ (31 : Nat)) (min n (2 ^ (31 : Nat) - 1))

namespace Single

/-- The integer of 32 bits that is left when the fraction is dropped.  What
lies outside of the range goes to its nearer end, and what is not a number
goes to zero. -/
def truncate : Single → Int
  | .nan => 0
  | .infinite s => if s then -2 ^ (31 : Nat) else 2 ^ (31 : Nat) - 1
  | .finite s n _ => clampToWord (signedQuanta s (n / unit))

/-- Below 2³¹ in magnitude. -/
def belowWordLimit : Single → Bool
  | .finite _ n _ => n < 2 ^ (31 : Nat) * unit
  | _ => false

/-- The interchange encoding of 32 bits: sign, eight bits of exponent, 23 bits
of fraction. -/
def toBits : Single → Nat
  | .nan => 0x7fc00000
  | .infinite s => (if s then 2 ^ (31 : Nat) else 0) + 255 * 2 ^ (23 : Nat)
  | .finite s n _ =>
    (if s then 2 ^ (31 : Nat) else 0) + (n.log2 - 23) * 2 ^ (23 : Nat) +
      n / spacing n

/-- The number with a given interchange encoding. -/
def ofBits (bits : Nat) : Single :=
  let negative := bits / 2 ^ (31 : Nat) % 2 == 1
  let exponent := bits / 2 ^ (23 : Nat) % 256
  let fraction := bits % 2 ^ (23 : Nat)
  if exponent = 255 then if fraction = 0 then .infinite negative else .nan
  else if exponent = 0 then ofRatio negative fraction 1
  else ofRatio negative ((2 ^ (23 : Nat) + fraction) * 2 ^ (exponent - 1)) 1

end Single

end ThreeAddress
