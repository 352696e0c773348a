import FormulaSheet.Main
import FormulaSheet.Proofs.Command.Arguments
import FormulaSheet.Proofs.Command.Concatenation
import FormulaSheet.Proofs.Command.FreeStanding
import FormulaSheet.Proofs.Command.Names
import FormulaSheet.Proofs.Command.Phases
import FormulaSheet.Proofs.Command.Run
import FormulaSheet.Proofs.Document.Accepted
import FormulaSheet.Proofs.Document.Errors
import FormulaSheet.Proofs.Document.Evaluations
import FormulaSheet.Proofs.Document.Input
import FormulaSheet.Proofs.Document.Listing
import FormulaSheet.Proofs.Document.Loading
import FormulaSheet.Proofs.Document.Meaning
import FormulaSheet.Proofs.Document.Mirror
import FormulaSheet.Proofs.Document.Modified
import FormulaSheet.Proofs.Document.Reads
import FormulaSheet.Proofs.Document.Reentry
import FormulaSheet.Proofs.Document.Refused
import FormulaSheet.Proofs.Document.Reload
import FormulaSheet.Proofs.Document.Run
import FormulaSheet.Proofs.Document.Settled
import FormulaSheet.Proofs.Formula.Acceptance
import FormulaSheet.Proofs.Formula.Canonical
import FormulaSheet.Proofs.Formula.Cutting
import FormulaSheet.Proofs.Formula.Defects
import FormulaSheet.Proofs.Formula.Equality
import FormulaSheet.Proofs.Formula.Evaluation
import FormulaSheet.Proofs.Formula.Grammar
import FormulaSheet.Proofs.Formula.Literals
import FormulaSheet.Proofs.Formula.Respelling
import FormulaSheet.Proofs.Formula.Spacing
import FormulaSheet.Proofs.Formula.Spelling
import FormulaSheet.Proofs.Formula.Tokenizer
import FormulaSheet.Proofs.Formula.Trees
import FormulaSheet.Proofs.Mention.Pairs
import FormulaSheet.Proofs.Mention.Recalculation
import FormulaSheet.Proofs.Mention.Updates
import FormulaSheet.Proofs.Mention.Walk
import FormulaSheet.Proofs.Name.Order
import FormulaSheet.Proofs.Name.Reference
import FormulaSheet.Proofs.Number.Bits
import FormulaSheet.Proofs.Number.Canonical
import FormulaSheet.Proofs.Number.Nearest
import FormulaSheet.Proofs.Number.Numeral
import FormulaSheet.Proofs.Number.Rounding
import FormulaSheet.Proofs.Number.Shortest
import FormulaSheet.Proofs.Pattern.Enclosing
import FormulaSheet.Proofs.Pattern.Matching
import FormulaSheet.Proofs.Pattern.Preference
import FormulaSheet.Proofs.Settings.NamePattern
import FormulaSheet.Proofs.SheetFile.Format
import FormulaSheet.Proofs.SheetFile.Layout
import FormulaSheet.Proofs.SheetFile.Quoted
import FormulaSheet.Proofs.SheetFile.ReadBack
import FormulaSheet.Proofs.SheetFile.Version
import FormulaSheet.Proofs.Text.Cut
