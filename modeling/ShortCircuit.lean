import ShortCircuit.Configuration
import ShortCircuit.Forest.Diagram
import ShortCircuit.Graph.Dot
import ShortCircuit.Session
import ShortCircuit.Verbosity
import ShortCircuit.Proofs.Tree.Subtrees
import ShortCircuit.Proofs.Tree.Surgery
import ShortCircuit.Proofs.Forest.Table
import ShortCircuit.Proofs.Forest.Edits
import ShortCircuit.Proofs.Failing
import ShortCircuit.Proofs.Forest.Replacement
import ShortCircuit.Proofs.Forest.Carried
import ShortCircuit.Proofs.Forest.Query
import ShortCircuit.Proofs.Arena
import ShortCircuit.Proofs.Tree.Printing
import ShortCircuit.Proofs.Tree.Rules
import ShortCircuit.Proofs.Forest.Contraction
import ShortCircuit.Proofs.Applicability
import ShortCircuit.Proofs.Forest.Answers
import ShortCircuit.Proofs.Tree.Meaning
import ShortCircuit.Proofs.Run
import ShortCircuit.Proofs.MeaningPreserved
import ShortCircuit.Proofs.Tree.NormalForm
import ShortCircuit.Proofs.Forest.Renaming
import ShortCircuit.Proofs.Confluence
import ShortCircuit.Proofs.Kind.Slots
import ShortCircuit.Proofs.Tree.Spans
import ShortCircuit.Proofs.Forest.Texts
import ShortCircuit.Proofs.Spans
import ShortCircuit.Proofs.Tree.Splicing
import ShortCircuit.Proofs.LocalEdits
import ShortCircuit.Proofs.Pass
import ShortCircuit.Proofs.Atomicity
import ShortCircuit.Proofs.Transplants
import ShortCircuit.Proofs.Reductions
import ShortCircuit.Proofs.Tree.Evaluation
import ShortCircuit.Proofs.Tree.Discarding
import ShortCircuit.Proofs.Verdicts
import ShortCircuit.Proofs.Regions
import ShortCircuit.Proofs.Tree.Carets
import ShortCircuit.Proofs.Forest.Carets
import ShortCircuit.Proofs.Carets
import ShortCircuit.Proofs.OldTexts
import ShortCircuit.Proofs.Knowledge
import ShortCircuit.Proofs.Limits
import ShortCircuit.Proofs.Literal.Escapes
import ShortCircuit.Proofs.Literal.Spelling
import ShortCircuit.Proofs.Constants
import ShortCircuit.Proofs.Tree.Walks
import ShortCircuit.Proofs.Forest.Walks
import ShortCircuit.Proofs.Traversals
import ShortCircuit.Proofs.Forest.Likeness
import ShortCircuit.Proofs.Forest.Loosened
import ShortCircuit.Proofs.Likeness
import ShortCircuit.Proofs.Decimal.Digits
import ShortCircuit.Proofs.Decimal.Magnitude
import ShortCircuit.Proofs.Decimal.Rounding
import ShortCircuit.Proofs.Decimal.Shortest
import ShortCircuit.Proofs.Decimal.Layout
import ShortCircuit.Proofs.Literal.Numbers
import ShortCircuit.Proofs.Numbers
import ShortCircuit.Proofs.Graph.Quoting
import ShortCircuit.Proofs.Diagrams
import ShortCircuit.Proofs.Json.Failing
import ShortCircuit.Proofs.UserSettings
import ShortCircuit.Proofs.Navigation
import ShortCircuit.Proofs.Tree.Inquiries
import ShortCircuit.Proofs.Forest.Visits
import ShortCircuit.Proofs.Termination
