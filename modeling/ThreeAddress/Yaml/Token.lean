import ThreeAddress.Yaml.Row

/-!
# Scalars and tokens

What a row of a document can hold.
-/

namespace ThreeAddress.Yaml

/-! ## Scalars

A scalar is plain, in single quotes (a quote inside is doubled) or in double
quotes (without escapes).  It may go on in further rows: the blanks around a
line end are dropped, a single line end counts as a space, and the first of
several is dropped. -/

/-- The blanks within a row. -/
def isBlank (c : Char) : Bool := c == ' ' || c == '\t'

/-- A blank or the end of the row comes next. -/
def atGap : List Char → Bool
  | [] => true
  | c :: _ => isBlank c

/-- The text without the blanks behind it. -/
def stripEnd (text : List Char) : List Char :=
  (text.reverse.dropWhile isBlank).reverse

/-- What the line ends between two rows of a scalar are read as. -/
def joinEnds : List Char → List Char
  | ['\n'] => [' ']
  | '\n' :: more => more
  | ends => ends

inductive Style where
  | plain
  | single
  | double
  deriving DecidableEq

/-! ### Plain scalars -/

/-- Splits off what a plain scalar takes of a row: up to a colon before a gap,
or up to a `#` behind a blank. -/
def splitPlain (behindBlank : Bool) : List Char → List Char × List Char
  | [] => ([], [])
  | c :: rest =>
    if (c = ':' && atGap rest) || (c = '#' && behindBlank) then
      ([], c :: rest)
    else
      let (taken, left) := splitPlain (isBlank c) rest
      (c :: taken, left)

/-- The characters that a plain scalar cannot start with. -/
def indicators : List Char :=
  [',', '[', ']', '\x7b', '\x7d', '#', '&', '*', '!', '|', '>', '\'', '"',
    '%', '@', '\x60']

/-- A plain scalar can start here.  A dash, a question mark and a colon must
have something right behind them. -/
def startsPlain : List Char → Bool
  | [] => false
  | c :: rest =>
    if c = '-' || c = '?' || c = ':' then !atGap rest
    else !isBlank c && !indicators.contains c

/-! ### Quoted scalars -/

/-- Reads up to a closing single quote; two quotes stand for one.  Gives what
follows the closing quote if it stands in the row. -/
def readSingle : List Char → List Char × Option (List Char)
  | [] => ([], none)
  | '\'' :: '\'' :: rest =>
    let (text, left) := readSingle rest
    ('\'' :: text, left)
  | '\'' :: rest => ([], some rest)
  | c :: rest =>
    let (text, left) := readSingle rest
    (c :: text, left)

/-- Reads up to a closing double quote. -/
def readDouble : List Char → Option (List Char × Option (List Char))
  | [] => some ([], none)
  | '"' :: rest => some ([], some rest)
  | '\\' :: _ => none
  | c :: rest => (readDouble rest).map fun (text, left) => (c :: text, left)

/-- Reads the part of a quoted scalar in a row. -/
def readQuoted : Style → List Char → Option (List Char × Option (List Char))
  | .double, text => readDouble text
  | _, text => some (readSingle text)

/-! ## Tokens of a document

The tokens of a document say where lists and mappings start and end.  They are
read as far as the text makes sense, and those before the place where it does
not are kept. -/

inductive Token where
  | sequenceStart
  | mappingStart
  | blockEnd
  /-- The dash in front of a list item. -/
  | entry
  | key
  | value
  | tag (name : String)
  | scalar (plain : Bool) (text : String)
  | emptySequence
  | emptyMapping
  | documentStart
  | documentEnd
  | textEnd
  /-- A mark of a flow collection, which fits nowhere. -/
  | stray
  deriving DecidableEq

/-! ### Reading that may stop -/

/-- Tokens and a result, or tokens behind which the text makes no sense. -/
structure Scan (α : Type) where
  tokens : List Token
  result? : Option α

namespace Scan

/-- Some tokens. -/
def emit (tokens : List Token) : Scan Unit := ⟨tokens, some ()⟩

/-- From here on the text makes no sense. -/
def stop {α : Type} : Scan α := ⟨[], none⟩

def andThen {α β : Type} (x : Scan α) (f : α → Scan β) : Scan β :=
  match x.result? with
  | some a => ⟨x.tokens ++ (f a).tokens, (f a).result?⟩
  | none => ⟨x.tokens, none⟩

instance : Monad Scan where
  pure a := ⟨[], some a⟩
  bind := andThen

end Scan

end ThreeAddress.Yaml
