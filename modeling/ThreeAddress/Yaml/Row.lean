/-!
# Rows

A document is written and read row by row.
-/

namespace ThreeAddress.Yaml

/-! ## Written fields

A mapping is written as fields `key: value`, one to a row, where nesting is
shown by indentation and a list item by a dash in front of its first field. -/

/-- What is written behind a key, apart from a tag. -/
inductive Content where
  | nothing
  | plain (text : String)
  | quoted (text : String)
  | emptyList
  deriving DecidableEq

namespace Content

def text : Content → String
  | .nothing => ""
  | .plain text => " " ++ text
  | .quoted text => " '" ++ text ++ "'"
  | .emptyList => " []"

end Content

/-- A field on a row of its own, the first one of a list item if it is
dashed. -/
structure Field where
  indent : Nat
  dashed : Bool
  key : String
  tag : Option String
  content : Content
  deriving DecidableEq

namespace Field

def tagText : Option String → String
  | some name => " !" ++ name
  | none => ""

def text (f : Field) : String :=
  String.ofList (List.replicate f.indent ' ') ++
    (if f.dashed then "- " else "") ++ f.key ++ ":" ++
    tagText f.tag ++ f.content.text

end Field

/-! ## Rows of a document

Programs are kept in the block layout of YAML, which is read line by line.  A
line ends at a line feed, a carriage return, both in a row, or one of three
further characters of Unicode; the last two of them stay part of a scalar that
goes on behind them.

Control characters are not allowed.  A text is looked at in pieces of whole
characters, each as long as fits into 16384 bytes, and a character that is not
allowed spoils its piece and all that follows. -/

/-- The characters that a document may hold. -/
def isAllowed (c : Char) : Bool :=
  let n := c.toNat
  n == 0x09 || n == 0x0A || n == 0x0D || (0x20 ≤ n && n ≤ 0x7E) ||
    n == 0x85 || (0xA0 ≤ n && n ≤ 0xFFFD) || 0x10000 ≤ n

/-- The number of bytes of a row of characters. -/
def byteSize (text : List Char) : Nat :=
  text.foldr (fun c size => c.utf8Size + size) 0

def pieceSize : Nat := 16384

/-- Where the first piece with a character that is not allowed starts.  The
arguments are the start of the present piece, the number of characters before
the text, and the bytes left in the piece. -/
def spoiledFrom (start count room : Nat) : List Char → Option Nat
  | [] => none
  | c :: rest =>
    let fits := c.utf8Size ≤ room
    let start := if fits then start else count
    let room := if fits then room else pieceSize
    if isAllowed c then spoiledFrom start (count + 1) (room - c.utf8Size) rest
    else some start

/-- How a row ends. -/
inductive Ending where
  /-- A line end, and the character that it is read as. -/
  | lineEnd (c : Char)
  /-- The end of the text. -/
  | textEnd
  /-- The rest of the text is spoiled. -/
  | spoiled
  deriving DecidableEq

/-- The line end that a character is on its own. -/
def Ending.ofChar? (c : Char) : Option Ending :=
  if c = '\n' || c = '\r' || c = '\u0085' then some (.lineEnd '\n')
  else if c = '\u2028' || c = '\u2029' then some (.lineEnd c)
  else none

structure Row where
  text : List Char
  ending : Ending
  deriving DecidableEq

/-- Cuts a text into rows, the last of which has the given ending. -/
def cutRows (last : Ending) : List Char → List Row
  | [] => [⟨[], last⟩]
  | '\r' :: '\n' :: rest => ⟨[], .lineEnd '\n'⟩ :: cutRows last rest
  | c :: rest =>
    match Ending.ofChar? c, cutRows last rest with
    | some ending, rows => ⟨[], ending⟩ :: rows
    | none, row :: rows => ⟨c :: row.text, row.ending⟩ :: rows
    | none, [] => [⟨[c], last⟩]

/-- A byte order mark in front of a text counts as a space. -/
def unmarked : List Char → List Char
  | '\ufeff' :: rest => ' ' :: rest
  | text => text

/-- The rows of a text, up to where it is spoiled. -/
def rowsOf (text : List Char) : List Row :=
  match spoiledFrom 0 0 pieceSize text with
  | none => cutRows .textEnd (unmarked text)
  | some n => cutRows .spoiled (unmarked (text.take n))

end ThreeAddress.Yaml
