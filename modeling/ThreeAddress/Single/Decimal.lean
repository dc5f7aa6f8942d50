import ThreeAddress.Single.Basic
import ThreeAddress.Text

/-!
# Single-precision numbers in decimal

Reading rounds a decimal once, to the nearest single-precision number.
Printing takes the fewest digits that read back as the number, of these the
decimal nearest to it, and never uses an exponent.  Both work on exact
quotients of quanta.
-/

namespace ThreeAddress

-- Powers are those of the core library, also where another instance is in
-- scope.
attribute [local instance(2000)] instPowNat

/-- The decimal `coefficient · 10 ^ exponent`. -/
structure Decimal where
  coefficient : Nat
  exponent : Int
  deriving DecidableEq

namespace Decimal

/-- Ten to the given power as a quotient, numerator first. -/
def power : Int → Nat × Nat
  | .ofNat e => (10 ^ e, 1)
  | .negSucc e => (1, 10 ^ (e + 1))

/-- The single-precision number nearest to a signed decimal. -/
def toSingle (negative : Bool) (d : Decimal) : Single :=
  let (num, den) := power d.exponent
  Single.ofRatio negative (d.coefficient * num * Single.unit) den

/-! ## Reading -/

/-- The part of a decimal after its digits: nothing, or an exponent with an
optional sign. -/
def readExponent : List Char → Option Int
  | [] => some 0
  | mark :: rest =>
    if mark = 'e' ∨ mark = 'E' then
      match rest with
      | '-' :: row =>
        if Numeral.isNumeral row then some (-(Numeral.value row : Int))
        else none
      | '+' :: row =>
        if Numeral.isNumeral row then some (Numeral.value row) else none
      | row =>
        if Numeral.isNumeral row then some (Numeral.value row) else none
    else none

/-- The digits in front of the point, those behind it, and what follows. -/
def splitAtPoint (text : List Char) : List Char × List Char × List Char :=
  let whole := text.takeWhile Char.isDigit
  match text.dropWhile Char.isDigit with
  | '.' :: rest =>
    (whole, rest.takeWhile Char.isDigit, rest.dropWhile Char.isDigit)
  | rest => (whole, [], rest)

/-- Digits with an optional point among or beside them, and an optional
exponent.  An exponent so large or small that only infinity or zero can come
of it is cut to one of which the same comes. -/
def read? (text : List Char) : Option Decimal :=
  let (whole, fraction, rest) := splitAtPoint text
  let row := whole ++ fraction
  if row.isEmpty then none
  else
    (readExponent rest).map fun e =>
      { coefficient := Numeral.value row
        exponent := max (-(row.length + 60 : Int))
          (min 60 (e - fraction.length)) }

/-! ## Printing -/

/-- The reals that round to a magnitude of `n` quanta, measured in quarters of
a quantum.  Both ends belong to the interval if the last bit of the magnitude
is zero.  Below a power of two the neighbour is only half as far as above
it. -/
structure Interval where
  low : Nat
  high : Nat
  closed : Bool

def Interval.around (n : Nat) : Interval :=
  let s := Single.spacing n
  { low := 4 * n - (if s ≠ 1 ∧ n = 2 ^ (23 : Nat) * s then s else 2 * s)
    high := 4 * n + 2 * s
    closed := n / s % 2 == 0 }

/-- The interval contains the quotient of quanta. -/
def Interval.contains (i : Interval) (num den : Nat) : Bool :=
  if i.closed then i.low * den ≤ 4 * num && 4 * num ≤ i.high * den
  else i.low * den < 4 * num && 4 * num < i.high * den

/-- The multiple of `10 ^ e` that reads back as a magnitude of `n` quanta and
is nearest to it, if there is one; of two equally near the greater. -/
def onGrid? (n : Nat) (e : Int) : Option Decimal :=
  let (num, den) := power e
  let step := num * Single.unit
  let below := n * den / step
  let past := n * den % step
  let fits (c : Nat) : Bool := (Interval.around n).contains (c * step) den
  if fits below && (2 * past < step || !fits (below + 1)) then some ⟨below, e⟩
  else if fits (below + 1) then some ⟨below + 1, e⟩
  else none

/-- The powers of ten to look at, the coarsest first.  On the last grid every
magnitude lies exactly. -/
def grids : List Int := (List.range 188).map fun (i : Nat) => (38 : Int) - i

/-- The decimal of fewest digits that reads back as a magnitude of `n` quanta,
of these the nearest to it. -/
def shortest (n : Nat) : Decimal :=
  (grids.findSome? (onGrid? n)).getD ⟨n * 5 ^ (149 : Nat), -149⟩

/-- The decimal in positional notation, with a point only if there is a
fraction. -/
def toText (d : Decimal) : List Char :=
  match d.exponent with
  | .ofNat e => Numeral.digits d.coefficient ++ List.replicate e '0'
  | .negSucc e =>
    Numeral.digits (d.coefficient / 10 ^ (e + 1)) ++ '.' ::
      Numeral.padded (e + 1) (d.coefficient % 10 ^ (e + 1))

end Decimal

namespace Single

/-- The number that a decimal with an optional sign is nearest to. -/
def read? (text : String) : Option Single :=
  match text.toList with
  | '-' :: row => (Decimal.read? row).map (Decimal.toSingle true)
  | '+' :: row => (Decimal.read? row).map (Decimal.toSingle false)
  | row => (Decimal.read? row).map (Decimal.toSingle false)

/-- The shortest text of a magnitude of `n` quanta. -/
def magnitudeText (n : Nat) : List Char :=
  if n = 0 then ['0'] else (Decimal.shortest n).toText

/-- The shortest text that reads back as the number, without an exponent. -/
def toText : Single → String
  | .nan => "NaN"
  | .infinite s => if s then "-inf" else "inf"
  | .finite s n _ =>
    (if s then "-" else "") ++ String.ofList (magnitudeText n)

/-- The shortest text, with `.0` behind it if it has no point. -/
def toPointText (x : Single) : String :=
  if x.toText.toList.contains '.' then x.toText else x.toText ++ ".0"

end Single

end ThreeAddress
