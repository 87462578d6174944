import Michelson.CallInterface
import Michelson.CodeAsData
import Michelson.Main
import Michelson.Nesting
import Michelson.Source.Layout
import Michelson.Source.Printer
import Michelson.Proofs.Congruence
import Michelson.Proofs.Lexeme
import Michelson.Proofs.Simulation
import Michelson.Proofs.Lexical
import Michelson.Proofs.Literals
import Michelson.Proofs.Placement
import Michelson.Proofs.Lockstep
import Michelson.Proofs.Calls
import Michelson.Proofs.Letters
import Michelson.Proofs.Names
import Michelson.Proofs.Keeping
import Michelson.Proofs.Track
import Michelson.Proofs.Relayout
import Michelson.Proofs.Outcome
import Michelson.Proofs.Repetition
import Michelson.Proofs.Nodes
import Michelson.Proofs.BlockValue
import Michelson.Proofs.Whole
import Michelson.Proofs.NoteGroups
import Michelson.Proofs.Sections
import Michelson.Proofs.WellFormed
import Michelson.Proofs.Scans
import Michelson.Proofs.Hereditary
import Michelson.Proofs.Limits
import Michelson.Proofs.Termination
import Michelson.Proofs.Positions
import Michelson.Proofs.Documents
import Michelson.Proofs.Fragments
import Michelson.Proofs.RoundTrip
import Michelson.Proofs.History
import Michelson.Proofs.Messages
import Michelson.Proofs.Answers
import Michelson.Proofs.NestingBound
import Michelson.Proofs.Fitting
import Michelson.Proofs.Fitting.Names
import Michelson.Proofs.Fitting.Grammar
import Michelson.Proofs.LowestLimit
import Michelson.Proofs.CodeAsData
import Michelson.Proofs.NoteOrder
import Michelson.Proofs.FrontEnds
import Michelson.Proofs.NameLanguage
import Michelson.Proofs.PairNames
import Michelson.Proofs.LeafNotes
import Michelson.Proofs.Escapes
import Michelson.Proofs.StringEscapes
import Michelson.Proofs.Integers
import Michelson.Proofs.Frames
import Michelson.Proofs.Advancing
import Michelson.Proofs.Backtracking
import Michelson.Proofs.BytesLiterals
import Michelson.Proofs.MissingDigits
import Michelson.Proofs.ErrorLines
import Michelson.Proofs.Output
