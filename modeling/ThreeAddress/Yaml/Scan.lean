import ThreeAddress.Yaml.State

/-!
# Reading tokens

The rows of a document are read one after the other.  Where the text makes no
sense, reading stops.  The tokens of the step that failed are not kept then:
neither the ends of blocks in front of it, nor a scalar that turned out to be
no key only then.  Flow collections are read if they are empty; anchors, block
scalars, escapes and directives are not read.
-/

namespace ThreeAddress.Yaml

/-! ## The next token -/

/-- What the text at a token can be the start of. -/
inductive Opening where
  | mark (token : Token)
  | entry
  | key
  | value
  | collection (token : Token) (rest : List Char)
  | flowStart
  | flowMark
  | tag
  | quote (style : Style)
  | plain
  | nothing

/-- The mark of the start or the end of a document, in the first column. -/
def documentMark? : List Char → Option Token
  | '-' :: '-' :: '-' :: rest =>
    if atGap rest then some .documentStart else none
  | '.' :: '.' :: '.' :: rest =>
    if atGap rest then some .documentEnd else none
  | _ => none

/-- An empty list or mapping, and what follows it. -/
def emptyCollection? : List Char → Option (Token × List Char)
  | '[' :: rest =>
    match rest.dropWhile isBlank with
    | ']' :: rest => some (.emptySequence, rest)
    | _ => none
  | '\x7b' :: rest =>
    match rest.dropWhile isBlank with
    | '\x7d' :: rest => some (.emptyMapping, rest)
    | _ => none
  | _ => none

/-- What starts in the given column. -/
def Opening.ofText (column : Nat) (text : List Char) : Opening :=
  match if column = 0 then documentMark? text else none with
  | some token => .mark token
  | none =>
    match emptyCollection? text, text with
    | some (token, rest), _ => .collection token rest
    | none, '-' :: rest => if atGap rest then .entry else .plain
    | none, '?' :: rest => if atGap rest then .key else .plain
    | none, ':' :: rest => if atGap rest then .value else .plain
    | none, '[' :: _ | none, '\x7b' :: _ => .flowStart
    | none, ']' :: _ | none, '\x7d' :: _ | none, ',' :: _ => .flowMark
    | none, '!' :: _ => .tag
    | none, '\'' :: _ => .quote .single
    | none, '"' :: _ => .quote .double
    | none, text => if startsPlain text then .plain else .nothing

/-- The characters of a tag. -/
def isTagChar (c : Char) : Bool :=
  c.isAlphanum ||
    ['-', '_', ';', '/', '?', ':', '@', '&', '=', '+', '$', '.', '~', '*',
      '\'', '(', ')'].contains c

/-- Reads a tag behind its exclamation mark, up to a gap. -/
def readTag (text : List Char) : Option (String × List Char) :=
  let rest := text.dropWhile isTagChar
  if atGap rest then some (String.ofList (text.takeWhile isTagChar), rest)
  else none

/-- Reads the tokens of the rest of a row, at most as many as the first
argument says. -/
def scanFrom : Nat → State → Ending → Place → List Char → Scan State
  | 0, _, _, _, _ => Scan.stop
  | fuel + 1, s, ending, place, text => do
    let place := place.past (text.takeWhile s.isSkipped)
    let text := text.dropWhile s.isSkipped
    if text.isEmpty || text.head? = some '#' then s.endRow
    else
      let s ← s.review place
      let (ends, s) := s.leave place.column
      let (ends, s) := (s.waiting ++ ends, { s with waiting := [] })
      match Opening.ofText place.column text with
      | .mark token =>
        let (more, s) := s.leaveAll
        Scan.emit (ends ++ more ++ [token])
        scanFrom fuel { s with keyAllowed := false } ending
          (place.past (text.take 3)) (text.drop 3)
      | .entry =>
        if !s.keyAllowed then Scan.stop
        else
          let (start, s) := s.enter place.column .sequenceStart
          Scan.emit (ends ++ start ++ [.entry])
          scanFrom fuel s ending (place.past (text.take 1)) (text.drop 1)
      | .key =>
        if !s.keyAllowed then Scan.stop
        else
          let (start, s) := s.enter place.column .mappingStart
          Scan.emit (ends ++ start ++ [.key])
          scanFrom fuel s ending (place.past (text.take 1)) (text.drop 1)
      | .value =>
        match s.key with
        | some key =>
          let (start, s) := s.enter key.place.column .mappingStart
          Scan.emit (start ++ .key :: key.held ++ [.value])
          scanFrom fuel { s with key := none, keyAllowed := false } ending
            (place.past (text.take 1)) (text.drop 1)
        | none =>
          if !s.keyAllowed then Scan.stop
          else
            let (start, s) := s.enter place.column .mappingStart
            Scan.emit (ends ++ start ++ [.value])
            scanFrom fuel s ending (place.past (text.take 1)) (text.drop 1)
      | .collection token rest =>
        let s ← (s.startKey place).add ends token (place.upTo text rest)
        scanFrom fuel s ending (place.upTo text rest) rest
      | .flowStart => do
        discard ((s.startKey place).add ends .stray place)
        Scan.stop
      | .flowMark => do
        discard (s.put ends .stray)
        Scan.stop
      | .tag =>
        match readTag (text.drop 1) with
        | some (name, rest) =>
          let s ← (s.startKey place).add ends (.tag name)
              (place.upTo text rest)
          scanFrom fuel s ending (place.upTo text rest) rest
        | none => Scan.stop
      | .quote style =>
        match readQuoted style (text.drop 1) with
        | some (scalar, some rest) =>
          let token := Token.scalar false (String.ofList scalar)
          let s ← (s.startKey place).add ends token (place.upTo text rest)
          scanFrom fuel s ending (place.upTo text rest) rest
        | some (scalar, none) =>
          (s.startKey place).suspend style scalar ends place false ending
        | none => Scan.stop
      | .plain =>
        let (scalar, rest) := splitPlain false text
        if rest.isEmpty then
          (s.startKey place).suspend .plain scalar ends (place.past text)
            false ending
        else
          let token := Token.scalar true (String.ofList (stripEnd scalar))
          let s ← (s.startKey place).add ends token (place.past scalar)
          scanFrom fuel s ending (place.past scalar) rest
      | .nothing => Scan.stop

/-! ## Rows -/

/-- A plain scalar from the rows before goes on in a row, or ends in front of
it. -/
def resumePlain (s : State) (u : Unfinished) (row : Row) : Scan State :=
  let blanks := row.text.takeWhile isBlank
  let text := row.text.dropWhile isBlank
  let place := Place.start.past blanks
  if (blanks.take s.scalarColumn).contains '\t' then Scan.stop
  else if text.isEmpty then
    match row.ending with
    | .lineEnd c =>
      return { s with
        unfinished := some { u with lineEnds := u.lineEnds ++ [c] } }
    | ending => s.suspend .plain u.text u.ends place true ending
  else if place.column < s.scalarColumn || text.head? = some '#' ||
      (place.column = 0 && (documentMark? text).isSome) ||
        (splitPlain false text).1.isEmpty then do
    let s ← s.put u.ends (.scalar true (String.ofList u.text))
    scanFrom (text.length + 1) { s with keyAllowed := true }
      row.ending place text
  else
    let (more, rest) := splitPlain false text
    let scalar := u.text ++ joinEnds u.lineEnds ++ more
    if rest.isEmpty then s.suspend .plain scalar u.ends place true row.ending
    else do
      let s ← s.put u.ends (.scalar true (String.ofList (stripEnd scalar)))
      scanFrom (text.length + 1) s row.ending (place.past more) rest

/-- A quoted scalar from the rows before goes on in a row. -/
def resumeQuoted (s : State) (u : Unfinished) (row : Row) : Scan State :=
  let text := row.text.dropWhile isBlank
  let place := Place.start.past (row.text.takeWhile isBlank)
  if text.isEmpty then
    match row.ending with
    | .lineEnd c =>
      return { s with
        unfinished := some { u with lineEnds := u.lineEnds ++ [c] } }
    | _ => Scan.stop
  else if place.column = 0 && (documentMark? text).isSome then Scan.stop
  else
    match readQuoted u.style text with
    | some (more, rest?) =>
      let scalar := u.text ++ joinEnds u.lineEnds ++ more
      match rest? with
      | some rest => do
        let s ← s.put u.ends (.scalar false (String.ofList scalar))
        scanFrom (text.length + 1) s row.ending (place.upTo text rest) rest
      | none => s.suspend u.style scalar u.ends place true row.ending
    | none => Scan.stop

/-- Reads the tokens of a row. -/
def scanRow (s : State) (row : Row) : Scan State :=
  if row.ending = .spoiled then Scan.stop
  else
    match s.unfinished with
    | none => scanFrom (row.text.length + 1) s row.ending .start row.text
    | some u =>
      let s := { s with unfinished := none }
      if u.style = .plain then resumePlain s u row else resumeQuoted s u row

/-- Reads the tokens of the rows of a text. -/
def scanRows : State → List Row → Scan Unit
  | s, [] => Scan.emit (s.waiting ++ s.leaveAll.1 ++ [.textEnd])
  | s, row :: rows => do scanRows (← scanRow s row) rows

/-- The tokens of a text, up to where it makes no sense. -/
def tokensOf (text : String) : List Token :=
  (scanRows .initial (rowsOf text.toList)).tokens

end ThreeAddress.Yaml
