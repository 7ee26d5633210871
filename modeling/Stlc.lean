import Stlc.Main
import Stlc.Proofs.Normalization
import Stlc.Proofs.Soundness
import Stlc.Proofs.Naming
import Stlc.Proofs.RoundTrip
import Stlc.Proofs.Resolution
import Stlc.Proofs.NamedReduction
import Stlc.Proofs.WordCounts
import Stlc.Proofs.EvaluationContexts
import Stlc.Proofs.Scoping
import Stlc.Proofs.Stability
import Stlc.Proofs.BindingGrammar
import Stlc.Proofs.Derivation
import Stlc.Proofs.NamedTyping
import Stlc.Proofs.BigStep
import Stlc.Proofs.AlphaEquivalence
import Stlc.Proofs.Commands
import Stlc.Proofs.Diagnostics
import Stlc.Proofs.Synthesis
import Stlc.Proofs.Weakening
import Stlc.Proofs.StructuralRules
import Stlc.Proofs.SpanFidelity
import Stlc.Proofs.SyntaxErrors
import Stlc.Proofs.ShiftLaws
import Stlc.Proofs.Spacing
import Stlc.Proofs.Consistency
import Stlc.Proofs.Indifference
import Stlc.Proofs.Agreement
import Stlc.Proofs.Division
import Stlc.Proofs.NamesInForce
import Stlc.Proofs.LookUps
import Stlc.Proofs.NodeEquality
