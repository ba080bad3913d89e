import TreePattern.Index
import TreePattern.Tree

/-!
# Events

What an automaton under construction reports about its progress. An event says what happened;
its level, text and fields are read off it.
-/

namespace TreePattern

inductive Level where
  | trace
  | debug
  | warn
deriving DecidableEq

def Level.render : Level → String
  | .trace => "TRACE"
  | .debug => "DEBUG"
  | .warn => "WARN"

inductive Event where
  /-- The signature took in a pattern. -/
  | registeredPattern (pattern : Tree)
  | builtForest (members patterns : Nat) (wildcard : MemberId)
  | computedProjection (operators entries : Nat)
  /-- Discovery has used up its passes, with `matchSets` sets found so far. -/
  | passLimitHit (limit matchSets : Nat)
  /-- The pass numbered `pass` (from 1) found `added` sets, which makes `matchSets` in all. -/
  | closurePass (pass added matchSets : Nat)
  | discoveredMatchSets (matchSets passes candidates : Nat)
  | builtOperatorTables (operator : String) (classes entries : Nat)
  | builtTransitionTables (operators totalClasses totalEntries : Nat)
  | automatonTables (dump : String)
deriving DecidableEq

namespace Event

def level : Event → Level
  | registeredPattern .. | closurePass .. | builtOperatorTables .. => .trace
  | passLimitHit .. => .warn
  | builtForest .. | computedProjection .. | discoveredMatchSets .. | builtTransitionTables ..
  | automatonTables .. => .debug

def message : Event → String
  | registeredPattern .. => "registered pattern"
  | builtForest .. => "built pattern forest"
  | computedProjection .. => "computed relevance projection"
  | passLimitHit .. => "match-set discovery hit its pass limit"
  | closurePass .. => "closure pass"
  | discoveredMatchSets .. => "discovered match sets"
  | builtOperatorTables .. => "built operator tables"
  | builtTransitionTables .. => "built transition tables"
  | automatonTables .. => "automaton tables"

/-- The fields with their values as text, in the order in which they are reported. -/
def fields : Event → List (String × String)
  | registeredPattern pattern => [("pattern", pattern.render)]
  | builtForest members patterns wildcard =>
    [("members", toString members), ("patterns", toString patterns), ("wildcard", wildcard.render)]
  | computedProjection operators entries =>
    [("operators", toString operators), ("entries", toString entries)]
  | passLimitHit limit matchSets =>
    [("limit", toString limit), ("match_sets", toString matchSets)]
  | closurePass pass added matchSets =>
    [("pass", toString pass), ("added", toString added), ("match_sets", toString matchSets)]
  | discoveredMatchSets matchSets passes candidates =>
    [("match_sets", toString matchSets), ("passes", toString passes),
      ("candidates", toString candidates)]
  | builtOperatorTables operator classes entries =>
    [("op", operator), ("classes", toString classes), ("entries", toString entries)]
  | builtTransitionTables operators totalClasses totalEntries =>
    [("operators", toString operators), ("mu_classes", toString totalClasses),
      ("theta_entries", toString totalEntries)]
  | automatonTables dump => [("dump", dump)]

end Event

end TreePattern
