import PhpDoc.Main
import PhpDoc.Proofs.AbsoluteNames
import PhpDoc.Proofs.Changesets
import PhpDoc.Proofs.ClosureNames
import PhpDoc.Proofs.CommentOwners
import PhpDoc.Proofs.Compositions
import PhpDoc.Proofs.Constants
import PhpDoc.Proofs.Descent
import PhpDoc.Proofs.Filtering
import PhpDoc.Proofs.FixOutcomes
import PhpDoc.Proofs.ForeignNames
import PhpDoc.Proofs.FunctionNames
import PhpDoc.Proofs.Intersections
import PhpDoc.Proofs.LexemeSpans
import PhpDoc.Proofs.Nesting
import PhpDoc.Proofs.NormalForms
import PhpDoc.Proofs.OneLine
import PhpDoc.Proofs.ParameterLists
import PhpDoc.Proofs.Passes
import PhpDoc.Proofs.Reading
import PhpDoc.Proofs.Recovery
import PhpDoc.Proofs.Remarks
import PhpDoc.Proofs.RestyledTags
import PhpDoc.Proofs.Sessions
import PhpDoc.Proofs.SettledFixes
import PhpDoc.Proofs.ShownLines
import PhpDoc.Proofs.SpelledTypes
import PhpDoc.Proofs.TagTexts
import PhpDoc.Proofs.Unions
import PhpDoc.Proofs.WrittenFiles
