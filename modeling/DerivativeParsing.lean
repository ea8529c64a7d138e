import DerivativeParsing.Inspection
import DerivativeParsing.Rendering.Diagram
import DerivativeParsing.Language
import DerivativeParsing.Proofs.Complements
import DerivativeParsing.Proofs.Bisimilarity
import DerivativeParsing.Proofs.Matching
import DerivativeParsing.Proofs.Construction
import DerivativeParsing.Proofs.RecordedText
import DerivativeParsing.Proofs.SimplifiedTrees
import DerivativeParsing.Proofs.RewriteRules
import DerivativeParsing.Proofs.DeclaredComplements
import DerivativeParsing.Proofs.PlainPaths
import DerivativeParsing.Proofs.CountedRepetition
import DerivativeParsing.Proofs.LeastForests
import DerivativeParsing.Proofs.UnboundedRepetition
import DerivativeParsing.Proofs.Normalisation
import DerivativeParsing.Proofs.WrittenExpressions
import DerivativeParsing.Proofs.SharedDerivatives
import DerivativeParsing.Proofs.LeastSolutions
import DerivativeParsing.Proofs.Diagrams
import DerivativeParsing.Proofs.DerivationTrees
