import TreePattern.Automaton.Builder
import TreePattern.Automaton.Tally
import TreePattern.Automaton.Construction
import TreePattern.Tree.Matching
import TreePattern.Tree.Walk
import TreePattern.Tree.Stack
import TreePattern.Proofs.Traversal
import TreePattern.Proofs.Numbering
import TreePattern.Proofs.Enumeration.NestedLoops
import TreePattern.Proofs.Tree.Depth
import TreePattern.Proofs.Signature.Symbols
import TreePattern.Proofs.Signature.Registration
import TreePattern.Proofs.Forest.Members
import TreePattern.Proofs.Forest.Parents
import TreePattern.Proofs.Forest.Sharing
import TreePattern.Proofs.MatchRule
import TreePattern.Proofs.Relevance
import TreePattern.Proofs.BuiltFrom
import TreePattern.Proofs.Matching
import TreePattern.Proofs.MatchSets.Passes
import TreePattern.Proofs.MatchSets.Layers
import TreePattern.Proofs.Transitions.SlotClasses
import TreePattern.Proofs.Transitions.OperatorTable
import TreePattern.Proofs.Transitions.Agreement
import TreePattern.Proofs.Transitions.Totals
import TreePattern.Proofs.Automaton.Calls
import TreePattern.Proofs.Automaton.History
import TreePattern.Proofs.Automaton.Recognition
import TreePattern.Proofs.MatchSets.Convergence
import TreePattern.Proofs.MatchSets.Resumption
import TreePattern.Proofs.Transitions.Totality
import TreePattern.Proofs.Transitions.MissingSets
import TreePattern.Proofs.Automaton.Failures
import TreePattern.Proofs.Automaton.Safety
import TreePattern.Proofs.Automaton.Compaction
import TreePattern.Proofs.Signature.Vocabulary
import TreePattern.Proofs.Renumbering.Members
import TreePattern.Proofs.Renumbering.Discovery
import TreePattern.Proofs.Renumbering.Tables
import TreePattern.Proofs.Automaton.RegistrationOrder
import TreePattern.Proofs.Automaton.Counters
import TreePattern.Proofs.Automaton.Construction
import TreePattern.Proofs.Automaton.Freshness
import TreePattern.Proofs.Tree.Generalisation
import TreePattern.Proofs.Tree.Text
import TreePattern.Proofs.Tree.Stack
import TreePattern.Proofs.MatchSets.Coherence
import TreePattern.Proofs.Automaton.Levels
import TreePattern.Proofs.Automaton.Rediscovery
import TreePattern.Forest.Forward
import TreePattern.Proofs.FirstAppearance
import TreePattern.Proofs.Forest.Order
import TreePattern.Proofs.Forest.Forward
import TreePattern.Forest.Arena
import TreePattern.Proofs.Automaton.LiveMembers
import TreePattern.Proofs.Forest.Arena
import TreePattern.Proofs.Forest.Subpatterns
import TreePattern.Proofs.Relevance.Collect
import TreePattern.Proofs.Relevance.WholeSets
import TreePattern.Relevance.Collect
import TreePattern.MatchSets.Ledger.Closing
import TreePattern.Transitions.Grid
import TreePattern.Proofs.MatchSets.Termination
import TreePattern.Proofs.MatchSets.Ledger
import TreePattern.Proofs.MatchSets.Soundness
import TreePattern.Proofs.MixedRadix
import TreePattern.Proofs.Transitions.TraceClasses
import TreePattern.Proofs.Transitions.Grid
import TreePattern.Proofs.Transitions.Grids
import TreePattern.Enumeration.Wheels
import TreePattern.Proofs.Enumeration.Wheels
import TreePattern.Enumeration.Picker
import TreePattern.Proofs.Enumeration.Picker
import TreePattern.MatchSets.Ledger.Search
import TreePattern.Proofs.MatchSets.Accounting
import TreePattern.Signature.Lexicon
import TreePattern.Signature.Roster
import TreePattern.Proofs.Signature.Acceptance
import TreePattern.Proofs.Signature.ByteOrder
import TreePattern.Proofs.Signature.Lexicon
import TreePattern.Proofs.Signature.AnyCalls
import TreePattern.Proofs.Signature.Roster
import TreePattern.Proofs.Automaton.DocumentedFailures
