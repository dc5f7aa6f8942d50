import ThreeAddress.Files
import ThreeAddress.Machine
import ThreeAddress.Value

/-!
# The command line

Arguments become a request, and a request is performed.
-/

namespace ThreeAddress.Cli

/-! ## Arguments of the command line

`translate INPUT STAGE OUTPUT…`, `interpret PROGRAM` and `run EXPRESSION`; the
first and the last take the option `--opt`, once and anywhere behind the
subcommand.  Two dashes end the options, and a dash alone is no option.
Arguments are looked at one by one: a request for help is granted if all is
well up to it, whatever follows. -/

/-- What the arguments ask for. -/
inductive Request where
  | translate (input : String) (stage : Stage) (optimal : Bool)
      (outputs : List String)
  | interpret (program : String)
  | run (expression : String) (optimal : Bool)
  | version
  | help
  | misuse
  deriving DecidableEq

/-- The arguments of a subcommand, sorted: whether the option was given, and
the others. -/
inductive Sorted where
  | plain (optimal : Bool) (others : List String)
  | help
  | misuse

/-- Adds an argument that is no option. -/
def Sorted.push (argument : String) : Sorted → Sorted
  | .plain optimal others => .plain optimal (argument :: others)
  | other => other

/-- A subcommand: whether it takes the option, and which argument it takes in
which place. -/
structure Form where
  takesOption : Bool
  accepts : Nat → String → Bool

namespace Form

/-- Takes the arguments behind two dashes, none of which is an option. -/
def sortOperands (form : Form) (optimal : Bool) : Nat → List String → Sorted
  | _, [] => .plain optimal []
  | place, argument :: rest =>
    if form.accepts place argument then
      (form.sortOperands optimal (place + 1) rest).push argument
    else .misuse

/-- Sorts arguments, given whether the option was met before them and the
place of the next one that is no option. -/
def sort (form : Form) : Bool → Nat → List String → Sorted
  | optimal, _, [] => .plain optimal []
  | optimal, place, argument :: rest =>
    if argument = "--" then form.sortOperands optimal place rest
    else if argument = "--help" || argument.startsWith "-h" then .help
    else if argument = "--opt" && form.takesOption && !optimal then
      form.sort true place rest
    else if argument.startsWith "-" && argument ≠ "-" then .misuse
    else if form.accepts place argument then
      (form.sort optimal (place + 1) rest).push argument
    else .misuse

/-- File names are not empty. -/
def translate : Form where
  takesOption := true
  accepts place argument :=
    if place = 1 then (Stage.ofName? argument).isSome else !argument.isEmpty

def interpret : Form where
  takesOption := false
  accepts place argument := place = 0 && !argument.isEmpty

def run : Form where
  takesOption := true
  accepts place _ := place = 0

/-- What a subcommand asks for with the given arguments. -/
def read (form : Form) (request? : Bool → List String → Option Request)
    (arguments : List String) :
    Request :=
  match form.sort false 0 arguments with
  | .plain optimal others => (request? optimal others).getD .misuse
  | .help => .help
  | .misuse => .misuse

end Form

def translate? (optimal : Bool) : List String → Option Request
  | input :: stage :: output :: outputs => do
    return .translate input (← Stage.ofName? stage) optimal
      (output :: outputs)
  | _ => none

def interpret? (_ : Bool) : List String → Option Request
  | [program] => some (.interpret program)
  | _ => none

def run? (optimal : Bool) : List String → Option Request
  | [expression] => some (.run expression optimal)
  | _ => none

/-- The words that help can be asked about. -/
def topics : List String := ["translate", "interpret", "run", "help"]

/-- What a list of arguments asks for. -/
def parseArguments : List String → Request
  | [] => .misuse
  | first :: rest =>
    if first = "translate" then Form.translate.read translate? rest
    else if first = "interpret" then Form.interpret.read interpret? rest
    else if first = "run" then Form.run.read run? rest
    else if first = "help" then
      match rest with
      | [] => .help
      | [topic] => if topics.contains topic then .help else .misuse
      | _ => .misuse
    else if first = "--version" || first.startsWith "-V" then .version
    else if first = "--help" || first.startsWith "-h" then .help
    else .misuse

/-! ## Performing a request

A request is performed over any monad that can work with files and talk to a
user, and comes to an exit code: zero, one for a failure, two for arguments
that ask for nothing. -/

open Dialogue (say)

/-- Talking to a user who also has failures reported to them. -/
class Terminal (m : Type → Type) extends Dialogue m where
  complain : String → m Unit

open Terminal (complain)

def version : String := "tacer 0.1.0\n"

def usage : String :=
  "Translate arithmetic expressions to three-address code and run them\n\n" ++
  "Usage: tacer translate INPUT STAGE [--opt] OUTPUT...\n" ++
  "       tacer interpret PROGRAM\n" ++
  "       tacer run EXPRESSION [--opt]\n\n" ++
  "Stages: lex, syn, sem, gen1, gen2, gen3\n" ++
  "Identifiers are typed with a suffix: " ++
  "a[i] is an integer, b[f] is a float.\n"

variable {m : Type → Type} [Monad m] [Terminal m]

/-- Reports a failure. -/
def fail (activity : String) (e : Error) : m Nat := do
  complain ("Failed " ++ activity ++ ": " ++ e.message ++ "\n")
  return 1

/-- Shows the trace of a run, then what it came to. -/
def report {α : Type} (activity : String) (conclusion : α → String)
    (outcome : Outcome α) :
    m Nat := do
  say outcome.traceText
  match outcome.result with
  | .error e => fail activity e
  | .ok a =>
    say (conclusion a ++ "\n")
    return 0

/-- Performs a request. -/
def perform [Files m] : Request → m Nat
  | .translate input stage optimal outputs => do
    match ← translateFile (.ofText input) stage optimal
      (outputs.map .ofText) with
    | .error e => fail "translate" e
    | .ok _ =>
      say "Translation finished.\n"
      return 0
  | .interpret program => do
    let outcome ← interpretFile Dialogue.ask (.ofText program)
    report "interpret"
      (fun
        | some (cell : Cell) => "Result: " ++ cell.text
        | none => "Program has no commands")
      outcome
  | .run expression optimal => do
    let outcome ← evaluate Dialogue.ask none expression
        (if optimal then .optimal else .plain)
    report "run" (fun cell => "Result: " ++ cell.text) outcome
  | .version => do
    say version
    return 0
  | .help => do
    say usage
    return 0
  | .misuse => do
    complain usage
    return 2

/-- A folder with a user in front of it: the lines that they type, what is
shown to them, and what is reported to them. -/
structure Session where
  folder : Folder
  prompt : Prompt
  reported : String

namespace Session

/-- A session with a folder and the text that the user types. -/
def start (folder : Folder) (input : String) : Session :=
  ⟨folder, .ofText input, ""⟩

/-- Everything that was shown to the user. -/
def shown (s : Session) : String := s.prompt.written

instance : Files (StateM Session) where
  readFile path := fun s => (s.folder.read path, s)
  writeFile path text := fun s =>
    match s.folder.write path text with
    | .ok folder => (.ok (), { s with folder := folder })
    | .error fault => (.error fault, s)

/-- What is done at the prompt of a session. -/
def atPrompt {α : Type} (action : StateM Prompt α) : StateM Session α :=
  fun s =>
  let (a, prompt) := action s.prompt
  (a, { s with prompt := prompt })

instance : Terminal (StateM Session) where
  readLine := atPrompt Dialogue.readLine
  say text := atPrompt (say text)
  complain text := fun s => ((), { s with reported := s.reported ++ text })

end Session

/-- Performs what a list of arguments asks for in a session. -/
def runIn (arguments : List String) (session : Session) : Nat × Session :=
  (perform (parseArguments arguments) : StateM Session Nat).run session

end ThreeAddress.Cli
