import ThreeAddress.Yaml.Scan

/-!
# Documents

A document is a scalar, a list or a mapping.  Reading does not fail as a
whole: where the tokens end or make no sense, the node says so, so that what
stands before that place can be looked at first.
-/

namespace ThreeAddress.Yaml

inductive Node where
  | scalar (tag : Option String) (plain : Bool) (text : String)
  | sequence (tag : Option String) (items : List Node)
  | mapping (tag : Option String) (entries : List (Node × Node))
  /-- From here on the text makes no sense. -/
  | broken

namespace Node

/-- A value that is not there. -/
def empty : Node := .scalar none true ""

def tag? : Node → Option String
  | .scalar tag _ _ | .sequence tag _ | .mapping tag _ => tag
  | .broken => none

/-! ## Reading -/

/-- The node of a tag with no value behind it. -/
def absent (tag : Option String) (tokens : List Token) : Node × List Token :=
  if tag.isSome && !tokens.isEmpty then (.scalar tag true "", tokens)
  else (.broken, [])

/-- No key and no value can start here. -/
def endsEntry : List Token → Bool
  | .key :: _ | .value :: _ | .blockEnd :: _ => true
  | _ => false

/-- No list item can start here. -/
def endsItem : List Token → Bool
  | .entry :: _ => true
  | tokens => endsEntry tokens

mutual

/-- Reads a node with the tag in front of it, and gives the tokens behind it.
A list whose dashes stand in the column of a mapping has neither start nor end
of its own.  At most as many nested steps are made as the first argument
says. -/
def read : Nat → (dashes : Bool) → Option String → List Token →
    Node × List Token
  | 0, _, _, _ => (.broken, [])
  | fuel + 1, dashes, tag, tokens =>
    match tokens with
    | .tag name :: rest =>
      if tag.isNone then read fuel dashes (some name) rest
      else absent tag tokens
    | .scalar plain text :: rest => (.scalar tag plain text, rest)
    | .emptySequence :: rest => (.sequence tag [], rest)
    | .emptyMapping :: rest => (.mapping tag [], rest)
    | .sequenceStart :: rest =>
      let (items, rest) := readItems fuel true rest
      (.sequence tag items, rest)
    | .mappingStart :: rest =>
      let (entries, rest) := readEntries fuel rest
      (.mapping tag entries, rest)
    | .entry :: _ =>
      if dashes then
        let (items, rest) := readItems fuel false tokens
        (.sequence tag items, rest)
      else absent tag tokens
    | _ => absent tag tokens

/-- Reads the items of a list that has an end of its own or not. -/
def readItems : Nat → (closed : Bool) → List Token → List Node × List Token
  | 0, _, _ => ([.broken], [])
  | fuel + 1, closed, tokens =>
    match tokens with
    | .entry :: rest =>
      let (item, rest) :=
        if endsItem rest then (.empty, rest) else read fuel false none rest
      let (items, rest) := readItems fuel closed rest
      (item :: items, rest)
    | .blockEnd :: rest => ([], if closed then rest else tokens)
    | _ => if closed || tokens.isEmpty then ([.broken], []) else ([], tokens)

/-- Reads the entries of a mapping up to its end. -/
def readEntries : Nat → List Token → List (Node × Node) × List Token
  | 0, _ => ([(.broken, .broken)], [])
  | fuel + 1, tokens =>
    match tokens with
    | .key :: rest =>
      let (key, rest) :=
        if endsEntry rest then (.empty, rest) else read fuel true none rest
      let (value, rest) :=
        match rest with
        | .value :: rest =>
          if endsEntry rest then (.empty, rest) else read fuel true none rest
        | [] => (.broken, [])
        | _ => (.empty, rest)
      let (entries, rest) := readEntries fuel rest
      ((key, value) :: entries, rest)
    | .blockEnd :: rest => ([], rest)
    | _ => ([(.broken, .broken)], [])

end

/-! ## Looking at nodes -/

mutual

/-- The text makes sense all through the node. -/
def isWhole : Node → Bool
  | .scalar _ _ _ => true
  | .sequence _ items => areWhole items
  | .mapping _ entries => entriesAreWhole entries
  | .broken => false

/-- The text makes sense all through the items. -/
def areWhole : List Node → Bool
  | [] => true
  | item :: rest => item.isWhole && areWhole rest

/-- The text makes sense all through the entries. -/
def entriesAreWhole : List (Node × Node) → Bool
  | [] => true
  | (key, value) :: rest =>
    key.isWhole && value.isWhole && entriesAreWhole rest

end

end Node

/-- A document, and whether it is all there is. -/
structure Document where
  root : Node
  ended : Bool

namespace Document

/-- Reads the root of a document, behind a mark of its start or not. -/
def readRoot (marked : Bool) (tokens : List Token) : Node × List Token :=
  match tokens with
  | .textEnd :: _ => (.empty, tokens)
  | .documentStart :: _ | .documentEnd :: _ =>
    if marked then (.empty, tokens) else (.broken, [])
  | _ => Node.read (2 * tokens.length + 2) false none tokens

/-- The document of some tokens.  Marks of its start and its end may stand
around it. -/
def ofTokens (tokens : List Token) : Document :=
  let (root, rest) :=
    match tokens with
    | .documentStart :: rest => readRoot true rest
    | _ => readRoot false tokens
  ⟨root, rest.dropWhile (· = Token.documentEnd) = [.textEnd]⟩

def ofText (text : String) : Document := ofTokens (tokensOf text)

end Document

end ThreeAddress.Yaml
