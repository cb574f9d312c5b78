import Formula.Assembly
import Formula.Evaluation.Session
import Formula.Term.Agreement
import Formula.Term.Complexity
import Formula.Term.Infix
import Formula.Term.Transcript
import Formula.Token.Document
import Formula.Valuation.Document
import Formula.Proofs.Construction
import Formula.Proofs.Decoded
import Formula.Proofs.Means
import Formula.Proofs.Visits
import Formula.Proofs.Checks
import Formula.Proofs.Reuse
import Formula.Proofs.Report
import Formula.Proofs.NotANumber
import Formula.Proofs.Headroom
import Formula.Proofs.Provenance
import Formula.Proofs.Closing
import Formula.Proofs.Limit
import Formula.Proofs.Door
import Formula.Proofs.Canonical
import Formula.Proofs.Score
import Formula.Proofs.Stripping
import Formula.Proofs.Dispatch
import Formula.Proofs.IntegerToken
import Formula.Proofs.Placement
import Formula.Proofs.DefinitionOrder
import Formula.Proofs.ValuationText
import Formula.Proofs.InfixReading
import Formula.Proofs.OperatorToken
import Formula.Proofs.Blame
import Formula.Proofs.Congruence
