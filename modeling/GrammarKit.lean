import GrammarKit.Grammar.Printer
import GrammarKit.Lisp.Session
import GrammarKit.Recognizer.Numbers
import GrammarKit.Recognizer.Session
import GrammarKit.Reduction.Tagged
import GrammarKit.Proofs.Failure.Aggregation
import GrammarKit.Proofs.Flattening
import GrammarKit.Proofs.Grammar.Exactness
import GrammarKit.Proofs.Grammar.RoundTrip
import GrammarKit.Proofs.Language.Escaping
import GrammarKit.Proofs.Language.Order
import GrammarKit.Proofs.Language.Meaning
import GrammarKit.Proofs.Lisp.Results
import GrammarKit.Proofs.Lisp.Substitution
import GrammarKit.Proofs.Lisp.Unbounded
import GrammarKit.Proofs.Parser.Failures
import GrammarKit.Proofs.Parser.Kinds
import GrammarKit.Proofs.Parser.Uniqueness
import GrammarKit.Proofs.Rearrangement
import GrammarKit.Proofs.Reduction.Order
import GrammarKit.Proofs.Run.Limit
import GrammarKit.Proofs.Termination
