import Fixity.Grammar.FileText
import Fixity.Main
import Fixity.Proofs.Checker.Refusal
import Fixity.Proofs.Diagnostic.Colors
import Fixity.Proofs.Engine.Congruence
import Fixity.Proofs.Engine.Reuse
import Fixity.Proofs.Engine.Waiting
import Fixity.Proofs.File.Quotation
import Fixity.Proofs.File.RoundTrip
import Fixity.Proofs.Grammar.Construction
import Fixity.Proofs.Parse.Agreement
import Fixity.Proofs.Parse.Blanks
import Fixity.Proofs.Parse.Brackets
import Fixity.Proofs.Parse.Completeness
import Fixity.Proofs.Parse.Conservation
import Fixity.Proofs.Parse.Failures
import Fixity.Proofs.Parse.Pointing
import Fixity.Proofs.Parse.Printed
import Fixity.Proofs.Parse.Repair
import Fixity.Proofs.Parse.Substitution
import Fixity.Proofs.Pieces.Scan
import Fixity.Proofs.Pieces.Split
import Fixity.Proofs.Pieces.Tiling
import Fixity.Proofs.Reporter.Sources
import Fixity.Proofs.Session.Transcript
import Fixity.Proofs.Tree.Folding
import Fixity.Proofs.Tree.Graft
import Fixity.Proofs.Tree.Operands
import Fixity.Proofs.Tree.TopDown
import Fixity.Proofs.Tree.Unbracketed
import Fixity.Span
import Fixity.Text.Quoted
import Fixity.Tree.Bracketed
