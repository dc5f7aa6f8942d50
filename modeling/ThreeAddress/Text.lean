/-!
# Texts

Blank characters, lines and decimal numerals: what has to be known of texts
before anything is read from them.
-/

namespace ThreeAddress.Text

/-! ## Blank characters

The white space of the Unicode standard, one character per line of its
`White_Space` property.  It separates lexemes, it is trimmed from answers at
the prompt, and a source of nothing else is an empty source. -/

/-- The white space characters of Unicode.  The zero width space U+200B is not
among them. -/
def isBlank (c : Char) : Bool :=
  let n := c.toNat
  (0x09 ≤ n && n ≤ 0x0D) || n == 0x20 || n == 0x85 || n == 0xA0 ||
    n == 0x1680 || (0x2000 ≤ n && n ≤ 0x200A) || n == 0x2028 ||
    n == 0x2029 || n == 0x202F || n == 0x205F || n == 0x3000

/-- The text without the blanks at either end. -/
def trim (text : String) : String :=
  String.ofList
    ((text.toList.dropWhile isBlank).reverse.dropWhile isBlank).reverse

/-- A text of blanks only, or of nothing. -/
def isAllBlank (text : String) : Bool := text.toList.all isBlank

/-! ## Lines

A sequence of characters or bytes is cut behind every line end.  A last line
that has no line end counts as a line if there is anything in it. -/

/-- The lines of a sequence, without their ends. -/
def splitLines {α : Type} [BEq α] (lineEnd : α) : List α → List (List α)
  | [] => []
  | c :: rest =>
    if c == lineEnd then [] :: splitLines lineEnd rest
    else
      match splitLines lineEnd rest with
      | [] => [[c]]
      | line :: lines => (c :: line) :: lines

end ThreeAddress.Text

namespace ThreeAddress.Numeral

/-! ## Decimal numerals

Natural numbers and integers as decimal digits: `digits` writes a number
without leading zeros, `value` reads any row of digits, leading zeros
included. -/

/-- The decimal digits of a number, most significant first and without leading
zeros. -/
def digits (n : Nat) : List Char :=
  if n < 10 then [Nat.digitChar n]
  else digits (n / 10) ++ [Nat.digitChar (n % 10)]
termination_by n
decreasing_by omega

/-- The number that a row of decimal digits stands for; an empty row stands
for zero. -/
def value (row : List Char) : Nat :=
  row.foldl (fun n c => 10 * n + (c.toNat - '0'.toNat)) 0

/-- A row of at least one decimal digit. -/
def isNumeral (row : List Char) : Bool := !row.isEmpty && row.all Char.isDigit

/-- A number in decimal. -/
def text (n : Nat) : String := String.ofList (digits n)

/-- An integer in decimal, with a sign if it is negative. -/
def intText (n : Int) : String :=
  if n < 0 then "-" ++ text n.natAbs else text n.natAbs

/-- The digits of a number, filled up to `width` places with zeros in
front. -/
def padded (width n : Nat) : List Char :=
  List.replicate (width - (digits n).length) '0' ++ digits n

end ThreeAddress.Numeral
