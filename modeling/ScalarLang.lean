import ScalarLang.Main
import ScalarLang.Proofs.Simulation
import ScalarLang.Proofs.Source
import ScalarLang.Proofs.Recovery
import ScalarLang.Text.Reader
import ScalarLang.Tree.Printer
import ScalarLang.Proofs.Lexing
import ScalarLang.Proofs.Parsed
import ScalarLang.Proofs.Generation
import ScalarLang.Proofs.Consumption
import ScalarLang.Proofs.Grammar
import ScalarLang.Proofs.Completeness
import ScalarLang.Proofs.Soundness
import ScalarLang.Proofs.Rounding
import ScalarLang.Proofs.ShortestDecimal
import ScalarLang.Proofs.NumberText
import ScalarLang.Proofs.Spelling
import ScalarLang.Proofs.RoundTrip
import ScalarLang.Proofs.StreamErrors
import ScalarLang.Proofs.Steps
import ScalarLang.Proofs.Typing
import ScalarLang.Proofs.TypedModules
import ScalarLang.Proofs.FailedItems
import ScalarLang.Proofs.Interruption
import ScalarLang.Proofs.Registration
import ScalarLang.Proofs.Validity
import ScalarLang.Proofs.LocalNames
import ScalarLang.Proofs.InternalErrors
import ScalarLang.Proofs.FinalFunctions
import ScalarLang.Proofs.AcceptedItems
import ScalarLang.Proofs.Places
import ScalarLang.Proofs.Layout
import ScalarLang.Proofs.Newlines
import ScalarLang.Proofs.Fragments
import ScalarLang.Proofs.Tiling
import ScalarLang.Proofs.Relexing
import ScalarLang.Proofs.ErrorPlaces
import ScalarLang.Proofs.Unfinished
import ScalarLang.Proofs.Grouping
import ScalarLang.Proofs.Folding
import ScalarLang.Proofs.Renaming
import ScalarLang.Proofs.Progress
import ScalarLang.Proofs.FirstError
import ScalarLang.Proofs.CharacterReading
import ScalarLang.Proofs.PushBack
import ScalarLang.Proofs.Nesting
