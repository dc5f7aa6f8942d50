import ThreeAddress.Compile
import ThreeAddress.Error
import ThreeAddress.Text

/-!
# Files

Names of files, folders in which they lead somewhere, and the work on files.
-/

namespace ThreeAddress

/-! ## File names

A file name is a text with segments between slashes.  Two names count as the
same if they start in the same place and agree apart from doubled slashes, a
slash at the end, and segments `.` that are not the first one.  A name starts
at the root if a slash comes first, and else in the folder it is anchored in,
if there is one.  Without an anchor a first segment `.` counts. -/

structure Path where
  text : String
  /-- The name is taken below a known folder. -/
  anchored : Bool
  deriving DecidableEq

namespace Path

/-- A name as it is given. -/
def ofText (text : String) : Path := ⟨text, false⟩

/-- A name below a known folder. -/
def below (text : String) : Path := ⟨text, true⟩

/-- Cuts a text at every slash. -/
def cut : List Char → List (List Char)
  | [] => [[]]
  | c :: rest =>
    if c = '/' then [] :: cut rest
    else
      match cut rest with
      | [] => [[c]]
      | segment :: segments => (c :: segment) :: segments

/-- The segments of a name, in order; between two slashes there is an empty
one. -/
def segments (p : Path) : List String := (cut p.text.toList).map String.ofList

/-- A segment that leads nowhere. -/
def isIdle (segment : String) : Bool := segment == "" || segment == "."

/-- Where a name starts. -/
inductive Start where
  | root
  | anchor
  | dot
  | bare
  deriving DecidableEq

def isAbsolute (p : Path) : Bool := p.text.toList.head? == some '/'

def start (p : Path) : Start :=
  if p.isAbsolute then .root
  else if p.anchored then .anchor
  else if p.segments.head? = some "." then .dot
  else .bare

/-- What two names that count as the same agree on: where they start, and the
segments that lead somewhere. -/
def form (p : Path) : Start × List String :=
  (p.start, p.segments.filter (!isIdle ·))

/-- The two names count as the same. -/
def sameAs (p q : Path) : Bool := p.form = q.form

end Path

/-! ## Folders

A folder holds files and further folders, each under the list of segments that
leads to it.  Names are followed segment by segment, as an operating system
does: every segment but the last must lead to a folder.  A name may lead out
of the folder through `..`; of what is there, only files that were written are
known, under places that start with `..`.

One folder is all that is known: there are no links, and the place of the
folder itself below the root is not known.  So a name that starts at the root
leads to no file, and what is said of the files that names lead to is said of
names in or below the folder, not of one of these beside a name that starts at
the root. -/

/-- What a file holds: a text, or bytes that are none. -/
inductive Contents where
  | text (text : String)
  | bytes (bytes : List UInt8)
  deriving DecidableEq

structure Folder where
  files : List (List String × Contents)
  folders : List (List String)
  deriving DecidableEq

namespace Folder

def empty : Folder := ⟨[], []⟩

/-- The place is the folder itself, one around it, or one in it: a given one,
or one on the way to a file. -/
def isFolder (folder : Folder) (place : List String) : Bool :=
  place.all (· = "..") || folder.folders.any place.isPrefixOf ||
    folder.files.any fun (name, _) =>
      place.isPrefixOf name && place.length < name.length

/-- The number of bytes that a segment can have. -/
def segmentLimit : Nat := 255

/-- The number of bytes that a whole name can have. -/
def nameLimit : Nat := 4095

/-- The place one folder up. -/
def up (place : List String) : List String :=
  if place.all (· = "..") then place ++ [".."] else place.dropLast

/-- What a name leads to. -/
inductive Target where
  | folder
  | file (place : List String) (contents : Contents)
  | nothing (place : List String)
  deriving DecidableEq

/-- What the last segment of a name leads to. -/
def look (folder : Folder) (place : List String) (segment : String) :
    Except FileFault Target :=
  if Path.isIdle segment || segment = ".." then .ok .folder
  else if segmentLimit < segment.utf8ByteSize then .error .nameTooLong
  else
    let next := place ++ [segment]
    if folder.isFolder next then .ok .folder
    else
      match folder.files.lookup next with
      | some contents => .ok (.file next contents)
      | none => .ok (.nothing next)

/-- Follows segments through folders. -/
def walk (folder : Folder) :
    List String → List String → Except FileFault (List String)
  | place, [] => .ok place
  | place, segment :: rest => do
    match ← folder.look place segment with
    | .folder =>
      let next :=
        if Path.isIdle segment then place
        else if segment = ".." then up place
        else place ++ [segment]
      folder.walk next rest
    | .file _ _ => throw .notDirectory
    | .nothing _ => throw .notFound

/-- A name that can lead somewhere: one without a zero character that is
neither empty nor too long, and that does not start at the root of all
folders, of which nothing is known. -/
def checkName (path : Path) : Except FileFault Unit := do
  if path.text.toList.contains '\x00' then throw .zeroInName
  if nameLimit < path.text.utf8ByteSize then throw .nameTooLong
  if path.text.isEmpty && !path.anchored then throw .notFound
  if path.isAbsolute &&
    !path.segments.all (fun s => Path.isIdle s || s = "..") then
    throw .notFound

/-- What a path leads to from the folder. -/
def find (folder : Folder) (path : Path) : Except FileFault Target := do
  checkName path
  folder.look (← folder.walk [] path.segments.dropLast)
    (path.segments.getLast?.getD "")

/-- The text of a file. -/
def read (folder : Folder) (path : Path) : Except FileFault String := do
  match ← folder.find path with
  | .folder => throw .isDirectory
  | .nothing _ => throw .notFound
  | .file _ (.text text) => return text
  | .file _ (.bytes _) => throw .notText

/-- The folder with other contents at a place. -/
def put (folder : Folder) (place : List String) (contents : Contents) :
    Folder :=
  { folder with
    files := (place, contents) :: folder.files.filter (·.1 ≠ place) }

/-- The folder after a text was written to a file, which is made if it is not
there.  A name with a slash at its end is that of a folder. -/
def write (folder : Folder) (path : Path) (text : String) :
    Except FileFault Folder := do
  checkName path
  let segments := path.segments.reverse.dropWhile (· = "")
  if segments.length < path.segments.length then
    discard (folder.walk [] (segments.drop 1).reverse)
    throw .isDirectory
  match ← folder.find path with
  | .folder => throw .isDirectory
  | .nothing place | .file place _ => return folder.put place (.text text)

/-- The files in the folder, with their names. -/
def listing (folder : Folder) : List (String × Contents) :=
  (folder.files.filter (·.1.head? ≠ some "..")).map fun (place, contents) =>
    (String.intercalate "/" place, contents)

end Folder

/-! ## Translating and running files

What is done with files is written over any monad that can read and write
them, so that it runs on the folders of this library as well as on those of
the system. -/

/-- Reading and writing files. -/
class Files (m : Type → Type) where
  readFile : Path → m (Except FileFault String)
  writeFile : Path → String → m (Except FileFault Unit)

/-- Files in a folder that is carried along. -/
instance : Files (StateM Folder) where
  readFile path := fun folder => (folder.read path, folder)
  writeFile path text := fun folder =>
    match folder.write path text with
    | .ok next => (.ok (), next)
    | .error fault => (.error fault, folder)

variable {m : Type → Type} [Monad m] [Files m]

/-- The outputs suit the stage: it accepts the mode, there are as many as it
writes, and no two have the same name. -/
def checkOutputs (stage : Stage) (optimal : Bool) (outputs : List Path) :
    Except InternalFault Unit := do
  if optimal && !stage.acceptsMode then throw .modeNotAccepted
  if outputs.length ≠ stage.outputs then
    throw (.outputCount stage outputs.length)
  match outputs with
  | [first, second] => if first.sameAs second then throw .sameOutputs
  | _ => return ()

/-- The source text in a file. -/
def readSource (path : Path) : m (Except InternalFault String) := do
  match ← Files.readFile path with
  | .error fault => return .error (.sourceFile path.text fault)
  | .ok source =>
    return if Text.isAllBlank source then .error (.emptySource path.text)
      else .ok source

/-- Writes texts to files in order, up to the first that cannot be written. -/
def writeTexts (refuse : String → FileFault → InternalFault) :
    List (Path × String) → m (Except InternalFault Unit)
  | [] => return .ok ()
  | (path, text) :: rest => do
    match ← Files.writeFile path text with
    | .error fault => return .error (refuse path.text fault)
    | .ok _ => writeTexts refuse rest

/-- Writes an output to its files. -/
def Output.write (output : Output) (paths : List Path) :
    m (Except InternalFault Unit) :=
  match output with
  | .program _ => writeTexts .programOutput (paths.zip output.texts)
  | _ => writeTexts .outputFile (paths.zip output.texts)

/-- Takes the expression in a file to a stage and writes what it leaves
behind. -/
def translateFile (input : Path) (stage : Stage) (optimal : Bool)
    (outputs : List Path) :
    m (Except Error Unit) := do
  match checkOutputs stage optimal outputs with
  | .error fault => return .error (.internal fault)
  | .ok _ =>
    match ← readSource input with
    | .error fault => return .error (.internal fault)
    | .ok source =>
      match translate source stage (if optimal then .optimal else .plain) with
      | .error e => return .error e
      | .ok output => return (← output.write outputs).mapError .internal

/-- The program in a file. -/
def readProgram (path : Path) : m (Except InternalFault Program) := do
  match ← Files.readFile path with
  | .error fault => return .error (.programFile path.text fault)
  | .ok text =>
    return (Program.ofText text).mapError (.programDocument path.text)

/-- Runs the program in a file. -/
def interpretFile (ask : String → ValueType → m (Except ValueFault Cell))
    (path : Path) :
    m (Outcome (Option Cell)) := do
  match ← readProgram path with
  | .error fault => return ⟨.error (.internal fault), []⟩
  | .ok p => p.interpret ask none

end ThreeAddress
