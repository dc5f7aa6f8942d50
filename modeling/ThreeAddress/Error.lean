import ThreeAddress.Command.Basic
import ThreeAddress.Value

/-!
# Errors

One inductive type of causes for each part of the work, and `Error` over all
of them.  A cause holds what its message needs, and the position it cites is
read off it.
-/

namespace ThreeAddress

/-- The end of a message about a place in the source text. -/
def positionSuffix : Option Nat → String
  | some n => " at position " ++ Numeral.text n
  | none => ""

/-- What is wrong with a run of characters. -/
inductive LexicalFault where
  | unexpectedCharacter (c : Char)
  | leadingDigit (lexeme : String)
  | malformedTypeSuffix (lexeme : String)
  | malformedConstant (lexeme : String)
  | constantOutOfRange (lexeme : String)
  | unrecognizedLexeme (lexeme : String)
  deriving DecidableEq

def LexicalFault.message : LexicalFault → String
  | .unexpectedCharacter c => "Unexpected character '" ++ c.toString ++ "'"
  | .leadingDigit lexeme =>
    "Identifier \"" ++ lexeme ++ "\" cannot start with a digit"
  | .malformedTypeSuffix lexeme =>
    "Typed identifier \"" ++ lexeme ++
      "\" must look like name[i], name[I], name[f] or name[F]"
  | .malformedConstant lexeme =>
    "Malformed numeric constant \"" ++ lexeme ++ "\""
  | .constantOutOfRange lexeme =>
    "Numeric constant \"" ++ lexeme ++ "\" is out of range"
  | .unrecognizedLexeme lexeme => "Unrecognized lexeme \"" ++ lexeme ++ "\""

/-- Why tokens form no expression; the token is the one at fault. -/
inductive GrammarFault where
  | empty
  | leadingOperator (token : Token)
  | leadingClosing (token : Token)
  | trailingOperator (token : Token)
  | trailingOpening (token : Token)
  | expectedOperator (after : Token)
  | expectedOperand (after : Token)
  | unmatchedClosing (token : Token)
  | unmatchedOpening (token : Token)
  deriving DecidableEq

namespace GrammarFault

def token? : GrammarFault → Option Token
  | .empty => none
  | .leadingOperator t | .leadingClosing t
  | .trailingOperator t | .trailingOpening t
  | .expectedOperator t | .expectedOperand t
  | .unmatchedClosing t | .unmatchedOpening t => some t

def position (fault : GrammarFault) : Option Nat :=
  fault.token?.bind Token.position

def message : GrammarFault → String
  | .empty => "Expression is empty"
  | .leadingOperator t => "Expression cannot start with operator " ++ t.shown
  | .leadingClosing _ => "Expression cannot start with a closing bracket"
  | .trailingOperator t => "Expression cannot end with operator " ++ t.shown
  | .trailingOpening _ => "Expression cannot end with an opening bracket"
  | .expectedOperator t =>
    "Expected an operator or closing bracket after " ++ t.shown
  | .expectedOperand t =>
    "Expected a number, an identifier or an opening bracket after " ++ t.shown
  | .unmatchedClosing _ => "Closing bracket has no matching opening bracket"
  | .unmatchedOpening _ => "Opening bracket has no matching closing bracket"

end GrammarFault

/-- Uses of names and constants that make no sense together. -/
inductive SemanticFault where
  | typeMismatch (lexeme : String)
  | divisionByZero
  deriving DecidableEq

def SemanticFault.message : SemanticFault → String
  | .typeMismatch lexeme =>
    "Identifier \"" ++ lexeme ++
      "\" does not match the type of its first declaration"
  | .divisionByZero => "Division by zero"

/-- What simplification cannot go on with. -/
inductive SimplifyFault where
  /-- A divisor became zero; the position is that of the division. -/
  | divisionByZero (position : Option Nat)
  /-- A folded operation leaves the range of its type. -/
  | overflow (position : Option Nat) (operation : String)
  /-- Nothing but one operand is left. -/
  | degenerate (token : Token)
  deriving DecidableEq

namespace SimplifyFault

def position : SimplifyFault → Option Nat
  | .divisionByZero p | .overflow p _ => p
  | .degenerate _ => none

def message : SimplifyFault → String
  | .divisionByZero _ => "Optimization produced a division by zero"
  | .overflow _ operation => "Folding " ++ operation ++ " overflows"
  | .degenerate t =>
    "Expression degenerated into the single value " ++ t.shown ++
      " after optimization"

end SimplifyFault

/-- Why the value of a symbol could not be had. -/
inductive ValueFault where
  | notGiven (name : String)
  | inputEnded
  | notText
  deriving DecidableEq, Inhabited

namespace ValueFault

/-- The message without what lies beneath. -/
def headline : ValueFault → String
  | .notGiven name => "no value given for " ++ name
  | .inputEnded => "input ended before a value was given"
  | .notText => "Failed read value"

def message : ValueFault → String
  | .notText => "Failed read value: stream did not contain valid UTF-8"
  | fault => fault.headline

end ValueFault

/-- Why code could not be run. -/
inductive RuntimeFault where
  | nonFinite (left : Cell) (operator : Operator) (right : Cell)
  | undefinedSymbol (attr : Nat)
  | missingOperand (command : Command)
  | noValue (name : String) (fault : ValueFault)
  deriving DecidableEq

def RuntimeFault.message : RuntimeFault → String
  | .nonFinite l op r =>
    "Failed to execute " ++ l.text ++ " " ++ op.lexeme ++ " " ++ r.text ++
      ": result is not a finite number"
  | .undefinedSymbol attr =>
    "Symbol <id," ++ Numeral.text attr ++ "> is not defined"
  | .missingOperand command =>
    "Command " ++ command.text ++ " is missing an operand"
  | .noValue name fault =>
    "Failed to read value of " ++ name ++ ": " ++ fault.headline

/-- Why a file could not be read or written. -/
inductive FileFault where
  | notFound
  | notDirectory
  | isDirectory
  | nameTooLong
  | zeroInName
  | notText
  | other (text : String)
  deriving DecidableEq

def FileFault.message : FileFault → String
  | .notFound => "No such file or directory (os error 2)"
  | .notDirectory => "Not a directory (os error 20)"
  | .isDirectory => "Is a directory (os error 21)"
  | .nameTooLong => "File name too long (os error 36)"
  | .zeroInName => "file name contained an unexpected NUL byte"
  | .notText => "stream did not contain valid UTF-8"
  | .other text => text

/-- Why a text is no program: an object in it was refused, or it cannot be
read at all. -/
inductive DocumentFault where
  | refused (cause : ObjectError)
  | unreadable
  deriving DecidableEq

def DocumentFault.message : DocumentFault → String
  | .refused cause => "Failed parse program: " ++ cause.message
  | .unreadable => "Failed parse program"

/-- Failures around the work itself: bad invocations, files, and trees that no
source text has. -/
inductive InternalFault where
  | notBuildable (token : Token)
  | sequenceEnded
  | leftOver (count : Nat)
  | unresolved (token : Token)
  | noCommands (token : Token)
  | traceFull
  | modeNotAccepted
  | outputCount (stage : Stage) (given : Nat)
  | sameOutputs
  | sourceFile (path : String) (fault : FileFault)
  | emptySource (path : String)
  | outputFile (path : String) (fault : FileFault)
  | programFile (path : String) (fault : FileFault)
  | programOutput (path : String) (fault : FileFault)
  | document (fault : DocumentFault)
  | programDocument (path : String) (fault : DocumentFault)
  deriving DecidableEq

def InternalFault.message : InternalFault → String
  | .notBuildable token => "Cannot build a tree node from " ++ token.shown
  | .sequenceEnded => "Postfix sequence ended before the tree was complete"
  | .leftOver count =>
    Numeral.text count ++ " tokens left over after building the tree"
  | .unresolved token =>
    "Operation " ++ token.shown ++ " has no resolved type"
  | .noCommands token =>
    "Expression " ++ token.shown ++ " produced no commands"
  | .traceFull => "Failed write trace: trace is full"
  | .modeNotAccepted => "Optimal generation only applies to gen1 and gen2"
  | .outputCount stage given =>
    "Stage " ++ stage.name ++ " writes " ++ Numeral.text stage.outputs ++
      " output files, " ++
      Numeral.text given ++ " given"
  | .sameOutputs => "Output files must have different names"
  | .sourceFile path fault =>
    "Failed open source file " ++ path ++ ": " ++ fault.message
  | .emptySource path => "Source file " ++ path ++ " is empty"
  | .outputFile path fault =>
    "Failed write output file " ++ path ++ ": " ++ fault.message
  | .programFile path fault =>
    "Failed open program file " ++ path ++ ": " ++ fault.message
  | .programOutput path fault =>
    "Failed write program file " ++ path ++ ": " ++ fault.message
  | .document fault => fault.message
  | .programDocument path fault =>
    "Invalid program file " ++ path ++ ": " ++ fault.message

/-- Every way in which translating or running an expression can fail. -/
inductive Error where
  | lexical (position : Nat) (fault : LexicalFault)
  | grammar (fault : GrammarFault)
  | semantic (position : Nat) (fault : SemanticFault)
  | simplify (fault : SimplifyFault)
  | runtime (fault : RuntimeFault)
  | object (fault : ObjectError)
  | internal (fault : InternalFault)
  deriving DecidableEq

namespace Error

/-- The part of the work that failed. -/
def label : Error → String
  | .lexical _ _ => "Lexical error"
  | .grammar _ => "Syntax error"
  | .semantic _ _ => "Semantic error"
  | .simplify _ => "Optimization error"
  | .runtime _ => "Runtime error"
  | .object _ => "Object construction error"
  | .internal _ => "Internal error"

/-- The place in the source text that the error is about. -/
def position : Error → Option Nat
  | .lexical p _ | .semantic p _ => some p
  | .grammar fault => fault.position
  | .simplify fault => fault.position
  | _ => none

/-- What is wrong, without the label. -/
def reason : Error → String
  | .lexical _ fault => fault.message
  | .grammar fault => fault.message
  | .semantic _ fault => fault.message
  | .simplify fault => fault.message
  | .runtime fault => fault.message
  | .object fault => fault.message
  | .internal fault => fault.message

/-- The whole message: the label, the reason, and the place if there is one.
Internal failures carry no label. -/
def message : Error → String
  | .internal fault => fault.message
  | e => e.label ++ "! " ++ e.reason ++ positionSuffix e.position

end Error

end ThreeAddress
