import TreePattern.MatchSets.Closure
import TreePattern.Transitions

/-!
# Tree-matching automata

An automaton under construction: the patterns registered so far with their signature, and the
outputs of the phases that have run since. Each phase needs the outputs of all before it, so
`Progress` has one constructor for each point that construction can have reached, and a
later output is never there without an earlier one.

Once the tables are built, a tree is run bottom-up: a leaf has the state of its symbol, and a
node with children has the state that its operator's table gives for the children's states.
-/

namespace TreePattern

structure Config where
  /-- The largest number of passes that discovery may take; 0 stands for no limit. -/
  maxPasses : Nat := 0
  /-- Whether to report the text of all tables once they are built. -/
  dumpTables : Bool := false
deriving DecidableEq

/-- The phase outputs that exist. -/
inductive Progress where
  | registered
  | forestBuilt (forest : Forest)
  | projected (forest : Forest) (relevance : Relevance)
  | discovered (forest : Forest) (relevance : Relevance) (table : MatchSets)
      (stats : ClosureStats)
  | complete (forest : Forest) (relevance : Relevance) (table : MatchSets)
      (stats : ClosureStats) (tables : Transitions)

namespace Progress

def forest? : Progress → Option Forest
  | registered => none
  | forestBuilt f | projected f _ | discovered f _ _ _ | complete f _ _ _ _ => some f

def relevance? : Progress → Option Relevance
  | registered | forestBuilt _ => none
  | projected _ r | discovered _ r _ _ | complete _ r _ _ _ => some r

def matchSets? : Progress → Option MatchSets
  | registered | forestBuilt _ | projected _ _ => none
  | discovered _ _ table _ | complete _ _ table _ _ => some table

/-- The counters of the discovery that last ran to its end. -/
def discovery? : Progress → Option ClosureStats
  | registered | forestBuilt _ | projected _ _ => none
  | discovered _ _ _ stats | complete _ _ _ stats _ => some stats

def tables? : Progress → Option Transitions
  | registered | forestBuilt _ | projected _ _ | discovered _ _ _ _ => none
  | complete _ _ _ _ tables => some tables

end Progress

structure Automaton where
  config : Config
  signature : Signature
  /-- The registered patterns, in order. -/
  patterns : List Tree
  progress : Progress

/-- Counters on the outputs that exist; those of a missing output are zero. -/
structure Stats where
  patterns : Nat
  forestSize : Nat
  projectionEntries : Nat
  passes : Nat
  candidatesExamined : Nat
  matchSets : Nat
  totalClasses : Nat
  totalEntries : Nat
deriving DecidableEq

namespace Stats

/-- The counters of an automaton without patterns. -/
def zero : Stats := ⟨0, 0, 0, 0, 0, 0, 0, 0⟩

/-- Sets the counters of a phase and of every later one to zero. -/
def clearFrom (s : Stats) (phase : Phase) : Stats where
  patterns := s.patterns
  forestSize := if phase ≤ .forest then 0 else s.forestSize
  projectionEntries := if phase ≤ .projection then 0 else s.projectionEntries
  passes := if phase ≤ .matchSets then 0 else s.passes
  candidatesExamined := if phase ≤ .matchSets then 0 else s.candidatesExamined
  matchSets := if phase ≤ .matchSets then 0 else s.matchSets
  totalClasses := 0
  totalEntries := 0

end Stats

namespace Automaton

/-- The automaton without patterns. -/
def ofConfig (config : Config) : Automaton where
  config := config
  signature := .empty
  patterns := []
  progress := .registered

def empty : Automaton := ofConfig {}

def forest? (a : Automaton) : Option Forest := a.progress.forest?

def relevance? (a : Automaton) : Option Relevance := a.progress.relevance?

def matchSets? (a : Automaton) : Option MatchSets := a.progress.matchSets?

def tables? (a : Automaton) : Option Transitions := a.progress.tables?

def stats (a : Automaton) : Stats where
  patterns := a.patterns.length
  forestSize := (a.forest?.map Forest.size).getD 0
  projectionEntries := (a.relevance?.map Relevance.entries).getD 0
  passes := (a.progress.discovery?.map ClosureStats.passes).getD 0
  candidatesExamined := (a.progress.discovery?.map ClosureStats.candidates).getD 0
  matchSets := (a.matchSets?.map MatchSets.size).getD 0
  totalClasses := (a.tables?.map Transitions.totalClasses).getD 0
  totalEntries := (a.tables?.map Transitions.totalEntries).getD 0

-- ---------------------------------------------------------------------------
-- Running a tree
-- ---------------------------------------------------------------------------

/-- The state of a leaf. A symbol that no pattern has as a leaf is matched by the wildcard
alone. -/
def stateOfLeaf? (a : Automaton) (name : String) : Option StateId := do
  let forest ← a.forest?
  let table ← a.matchSets?
  match a.signature.idOf? name with
  | some symbol => return table.stateOfLeaf forest symbol
  | none => return MatchSets.wildcardState

/-- The state of a node with children in the given states. -/
def transition? (a : Automaton) (name : String) (states : List StateId) : Option StateId := do
  let op ← a.signature.idOf? name
  let tables ← a.tables?
  tables.transition? op states

/-- The state of a node whose children have the given states; `none` if one of them has none. -/
def nodeState? (a : Automaton) (name : String) (children : List (Option StateId)) :
    Option StateId :=
  if children.isEmpty then
    a.stateOfLeaf? name
  else do
    let states ← children.mapM id
    a.transition? name states

/-- The state that a tree reaches at its root. -/
def stateOf? (a : Automaton) : Tree → Option StateId := Tree.fold a.nodeState?

/-- The states of all nodes of a tree. -/
structure Run where
  /-- One state for each node, the children's before the node's. -/
  states : List (Option StateId)
  root : Option StateId

/-- Runs a tree and keeps the states of all its nodes. -/
def run (a : Automaton) : Tree → Run :=
  Tree.fold fun name runs =>
    let root := a.nodeState? name (runs.map Run.root)
    ⟨runs.flatMap Run.states ++ [root], root⟩

/-- The state of a tree comes from the states of its children. -/
theorem stateOf?_node (a : Automaton) (name : String) (children : List Tree) :
    a.stateOf? (.node name children) = a.nodeState? name (children.map a.stateOf?) :=
  Tree.fold_node ..

/-- A run ends in the state of its tree. -/
theorem root_run (a : Automaton) (t : Tree) : (a.run t).root = a.stateOf? t := by
  induction t with
  | node name children ih =>
    rw [run, Tree.fold_node, stateOf?_node, List.map_map]
    exact congrArg (a.nodeState? name) (List.map_congr_left ih)

/-- The members that match a tree, ascending. -/
def matched? (a : Automaton) (t : Tree) : Option (List MemberId) := do
  let state ← a.stateOf? t
  let table ← a.matchSets?
  table.get? state

end Automaton

end TreePattern
