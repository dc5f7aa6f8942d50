import ThreeAddress.Main
import ThreeAddress.Proofs.ReceiverReuse
import ThreeAddress.Proofs.Simplification
import ThreeAddress.Proofs.NormalForm
import ThreeAddress.Proofs.NodeTypes
import ThreeAddress.Proofs.Runs
import ThreeAddress.Proofs.Range
import ThreeAddress.Proofs.LexicalGrammar
import ThreeAddress.Proofs.Scanning
import ThreeAddress.Proofs.Layout
import ThreeAddress.Proofs.FieldTokens
import ThreeAddress.Proofs.Nesting
import ThreeAddress.Proofs.BlockLayout
import ThreeAddress.Proofs.Names
import ThreeAddress.Proofs.ProgramNodes
import ThreeAddress.Proofs.RoundTrip
import ThreeAddress.Proofs.Rebuilding
import ThreeAddress.Proofs.GeneratedCode
import ThreeAddress.Proofs.Failures
import ThreeAddress.Proofs.CellTypes
import ThreeAddress.Proofs.TableSize
import ThreeAddress.Proofs.SavedPrograms
import ThreeAddress.Proofs.Histories
import ThreeAddress.Proofs.LoadedPrograms
import ThreeAddress.Proofs.Temporaries
import ThreeAddress.Proofs.Places
import ThreeAddress.Proofs.RenamedTexts
import ThreeAddress.Proofs.Renaming
import ThreeAddress.Proofs.Batches
import ThreeAddress.Proofs.WellFormedCode
import ThreeAddress.Proofs.ReducedTrees
import ThreeAddress.Proofs.Rejection
import ThreeAddress.Proofs.ProperCells
import ThreeAddress.Proofs.ExactIntegers
import ThreeAddress.Proofs.Coverage
import ThreeAddress.Proofs.Occurrences
import ThreeAddress.Proofs.Brackets
import ThreeAddress.Proofs.StackEvaluation
import ThreeAddress.Proofs.ZeroDivisors
import ThreeAddress.Proofs.Rendering
import ThreeAddress.Proofs.Dialogues
import ThreeAddress.Proofs.Deliveries
import ThreeAddress.Proofs.Drawings
import ThreeAddress.Proofs.TypeChanges
import ThreeAddress.Proofs.PrintedNumbers
