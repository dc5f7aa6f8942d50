import ThreeAddress.Yaml.Token

/-!
# Between two tokens

A block starts with a dash or a key that stands further to the right than the
blocks around it, and a row that starts further to the left ends it.

Whether a scalar is a key is only known at the colon behind it, in the same
row and within 1024 bytes.  Until then its tokens are held back.  A scalar at
the start of a row in the column of a mapping must be a key.
-/

namespace ThreeAddress.Yaml

/-- A place in a row, in characters and in bytes. -/
structure Place where
  column : Nat
  offset : Nat
  deriving DecidableEq

namespace Place

def start : Place := ⟨0, 0⟩

/-- The place behind some characters. -/
def past (place : Place) (text : List Char) : Place :=
  ⟨place.column + text.length, place.offset + byteSize text⟩

/-- The place at the given rest of the text that starts here. -/
def upTo (place : Place) (text rest : List Char) : Place :=
  place.past (text.take (text.length - rest.length))

end Place

/-- What may be a key: where it starts, whether it must be one, and its
tokens. -/
structure Key where
  place : Place
  required : Bool
  held : List Token
  deriving DecidableEq

/-- The number of bytes from the start of a key to its colon. -/
def keyLimit : Nat := 1024

/-- A scalar that goes on in the next row, the line ends behind what was read
of it, and the ends of blocks in front of it. -/
structure Unfinished where
  style : Style
  text : List Char
  lineEnds : List Char
  ends : List Token
  deriving DecidableEq

/-- What is known between two tokens. -/
structure State where
  /-- The columns of the blocks, the innermost first. -/
  columns : List Nat
  /-- A key may start here. -/
  keyAllowed : Bool
  key : Option Key
  /-- The tokens of what turned out to be no key, to come in front of the next
  token. -/
  waiting : List Token
  unfinished : Option Unfinished
  deriving DecidableEq

namespace State

def initial : State := ⟨[], true, none, [], none⟩

/-- Ends the blocks further to the right than a column. -/
def leave (s : State) (column : Nat) : List Token × State :=
  (List.replicate (s.columns.takeWhile (column < ·)).length .blockEnd,
    { s with columns := s.columns.dropWhile (column < ·) })

/-- Ends all blocks. -/
def leaveAll (s : State) : List Token × State :=
  (List.replicate s.columns.length .blockEnd, { s with columns := [] })

/-- Starts a block in a column, unless the innermost one stands there. -/
def enter (s : State) (column : Nat) (token : Token) : List Token × State :=
  if s.columns.head?.all (· < column) then
    ([token], { s with columns := column :: s.columns })
  else ([], s)

/-- The first column in which a plain scalar can go on. -/
def scalarColumn (s : State) : Nat :=
  match s.columns with
  | [] => 0
  | column :: _ => column + 1

/-- The blanks in front of the next token.  A tab is one unless a key may
start here. -/
def isSkipped (s : State) (c : Char) : Bool :=
  c == ' ' || (c == '\t' && !s.keyAllowed)

/-- What starts here may be a key, if one may start here. -/
def startKey (s : State) (place : Place) : State :=
  if s.keyAllowed then
    { s with
      keyAllowed := false
      key := some ⟨place, s.columns.head? = some place.column, []⟩ }
  else s

/-- What may be a key is none, unless it must be one. -/
def dropKey (s : State) : Scan State :=
  match s.key with
  | none => return s
  | some key =>
    if key.required then Scan.stop
    else return { s with key := none, waiting := s.waiting ++ key.held }

/-- Gives up a key that has become too long. -/
def review (s : State) (place : Place) : Scan State :=
  match s.key with
  | some key =>
    if place.offset ≤ key.place.offset + keyLimit then return s else s.dropKey
  | none => return s

/-- Adds a token that cannot belong to a key, behind some others. -/
def put (s : State) (ends : List Token) (token : Token) : Scan State := do
  let s ← s.dropKey
  Scan.emit (ends ++ s.waiting ++ [token])
  return { s with waiting := [] }

/-- Adds a token of what may be a key, behind some others.  The place is the
one behind the token, in the row that it starts in. -/
def add (s : State) (ends : List Token) (token : Token) (place : Place) :
    Scan State :=
  match s.key with
  | some key =>
    if place.offset ≤ key.place.offset + keyLimit then do
      Scan.emit ends
      return { s with key := some { key with held := key.held ++ [token] } }
    else s.put ends token
  | none => s.put ends token

/-- Ends a row between two tokens. -/
def endRow (s : State) : Scan State := do
  return { ← s.dropKey with keyAllowed := true }

/-- Leaves a scalar unfinished at the end of a row.  A plain one is finished
by the end of the text. -/
def suspend (s : State) (style : Style) (text : List Char)
    (ends : List Token) (place : Place) (late : Bool) : Ending → Scan State
  | .lineEnd c =>
    return { s with unfinished := some ⟨style, stripEnd text, [c], ends⟩ }
  | .textEnd =>
    if style = .plain then do
      let token := Token.scalar true (String.ofList (stripEnd text))
      let s ← if late then s.put ends token else s.add ends token place
      s.endRow
    else Scan.stop
  | .spoiled => Scan.stop

end State

end ThreeAddress.Yaml
