import TreePattern.Automaton.Call
import TreePattern.Forest.Forward
import TreePattern.MatchSets.Ledger.Search
import TreePattern.Relevance.Collect
import TreePattern.Transitions.Grid

/-!
# An automaton under construction

The outputs of the phases in four places that know nothing of each other, each of them empty or
filled, with counters beside them. Nothing but the calls sees to it that an output is there only
together with those it was made from, and that the counters are those of the outputs: a call drops
the outputs of the phases from some point on and clears their counters (`invalidate`), and then
puts in its own. Discovery takes the ledger of match sets out of its place before it searches,
and puts it back only if the search comes to its end.

The outputs are those that are made step by step: the forest is read from front to back, the
projection is collected member by member, the match sets stand in a ledger and the tables are grids.
A look-up that goes astray in any of them ends the call, or the query, with an error.
-/

namespace TreePattern

structure Construction where
  config : Config
  signature : Signature
  /-- The registered patterns, in order. -/
  patterns : List Tree
  forest? : Option Forest
  relevance? : Option Relevance
  ledger? : Option Ledger
  grids? : Option Grids
  counters : Stats

namespace Construction

/-- The construction without patterns. -/
def ofConfig (config : Config) : Construction where
  config := config
  signature := .empty
  patterns := []
  forest? := none
  relevance? := none
  ledger? := none
  grids? := none
  counters := .zero

/-- Drops the output of a phase and of every later one, and clears their counters. -/
def invalidate (k : Construction) (phase : Phase) : Construction :=
  { k with
    forest? := if phase ≤ .forest then none else k.forest?
    relevance? := if phase ≤ .projection then none else k.relevance?
    ledger? := if phase ≤ .matchSets then none else k.ledger?
    grids? := none
    counters := k.counters.clearFrom phase }

-- ---------------------------------------------------------------------------
-- Queries
-- ---------------------------------------------------------------------------

/-- The state of a leaf. A symbol that no pattern has as a leaf is matched by the wildcard
alone. -/
def stateOfLeaf? (k : Construction) (name : String) : Option StateId := do
  let forest ← k.forest?
  let l ← k.ledger?
  match k.signature.idOf? name with
  | some symbol => return l.stateOfLeaf forest symbol
  | none => return MatchSets.wildcardState

/-- The state of a node with children in the given states. -/
def transition (k : Construction) (name : String) (states : List StateId) :
    Except BuildError (Option StateId) :=
  match k.signature.idOf? name, k.grids? with
  | some op, some gs => gs.transition op states
  | _, _ => .ok none

/-- The states of the ledger, if there is one. -/
def states (k : Construction) : List StateId :=
  match k.ledger? with
  | some l => Index.range .matchSet l.size
  | none => []

def forestText (k : Construction) : Except BuildError String :=
  match k.forest? with
  | some f => do
    return Automaton.block "forest" (← found (Automaton.forestLines? k.signature f))
  | none => .ok ""

def relevanceText (k : Construction) : String :=
  match k.relevance? with
  | some r => Automaton.block "projection" (Automaton.relevanceLines k.signature r)
  | none => ""

def matchSetsText (k : Construction) : String :=
  match k.ledger? with
  | some l => Automaton.block "match sets" (Automaton.matchSetLines l.sets.toList)
  | none => ""

def classLines (k : Construction) (gs : Grids) : List String :=
  k.signature.operators.flatMap fun op =>
    Automaton.classLinesOf k.states op ((gs.operator? op.id).map Grid.slots)

def targetLines (k : Construction) (gs : Grids) : Except BuildError (List String) := do
  let lines ← k.signature.operators.mapM fun op => do
    return Automaton.targetLinesOf op (← (gs.operator? op.id).mapM Grid.listing)
  return lines.flatten

def tablesText (k : Construction) : Except BuildError String :=
  match k.grids? with
  | some gs => do
    return Automaton.block "mu" (k.classLines gs) ++
      Automaton.block "theta" (← k.targetLines gs)
  | none => .ok ""

/-- The text of all outputs. -/
def dump (k : Construction) : Except BuildError String := do
  let forest ← k.forestText
  let tables ← k.tablesText
  return forest ++ k.relevanceText ++ k.matchSetsText ++ tables

-- ---------------------------------------------------------------------------
-- Calls
-- ---------------------------------------------------------------------------

/-- What a call leaves behind. -/
structure Step where
  construction : Construction
  events : List Event
  error : Option BuildError

namespace Step

/-- A call that failed without an event. -/
def failed (k : Construction) (e : BuildError) : Step := ⟨k, [], some e⟩

/-- Goes on with the next call, unless there was an error. -/
def andThen (s : Step) (next : Construction → Step) : Step :=
  match s.error with
  | some _ => s
  | none =>
    let s' := next s.construction
    { s' with events := s.events ++ s'.events }

end Step

/-- Adds a pattern to those that the automaton is to recognise. -/
def register (k : Construction) (pattern : Tree) : Step :=
  match k.signature.register pattern with
  | .error e => .failed k e
  | .ok signature =>
    let patterns := k.patterns ++ [pattern]
    let counters := { k.counters with patterns := patterns.length }
    let k := { k with signature := signature, patterns := patterns, counters := counters }
    ⟨k.invalidate .forest, [.registeredPattern pattern], none⟩

def buildForest (k : Construction) : Step :=
  match Forest.buildForward k.signature k.patterns with
  | .error e => .failed k e
  | .ok f =>
    let k := k.invalidate .forest
    let counters := { k.counters with forestSize := f.size }
    ⟨{ k with forest? := some f, counters := counters },
      [.builtForest f.size k.patterns.length f.wildcard], none⟩

def project (k : Construction) : Step :=
  match k.forest? with
  | none => .failed k (.phaseOrder .projection .forest)
  | some f =>
    match Relevance.collect k.signature f with
    | .error e => .failed k e
    | .ok r =>
      let k := k.invalidate .projection
      let counters := { k.counters with projectionEntries := r.entries }
      ⟨{ k with relevance? := some r, counters := counters },
        [.computedProjection r.operatorCount r.entries], none⟩

/-- The search that discovery makes: from the ledger that exists, or else from the leaf states. -/
def search (k : Construction) (rule : MatchRule) : Except BuildError Ledger.Report :=
  match k.ledger? with
  | some l => l.search rule k.config.maxPasses
  | none => Ledger.searchFromLeaves rule k.config.maxPasses

/-- Whether a ledger holds another number of sets than the one that was there. -/
def grew (k : Construction) (after : Ledger) : Bool :=
  match k.ledger? with
  | some before => after.size != before.size
  | none => true

/-- Puts in the ledger of a search that has come to its end and sets the counters of the search.
The grids go if the ledger has grown. -/
def putLedger (k : Construction) (grew : Bool) (l : Ledger) (stats : ClosureStats) :
    Construction :=
  let k := if grew then
      { k with grids? := none, counters := k.counters.clearFrom .transitionTables }
    else k
  let counters := { k.counters with
    passes := stats.passes
    candidatesExamined := stats.candidates
    matchSets := l.size }
  { k with ledger? := some l, counters := counters }

/-- Finds every reachable match set, starting from those that exist. The ledger is taken out of
its place, and is lost if the passes run out. -/
def discover (k : Construction) : Step :=
  match k.forest?, k.relevance? with
  | none, _ => .failed k (.phaseOrder .matchSets .forest)
  | some _, none => .failed k (.phaseOrder .matchSets .projection)
  | some f, some r =>
    let taken := { k with ledger? := none }
    match k.search ⟨k.signature, f, r⟩ with
    | .error e => .failed taken e
    | .ok report =>
      match report.result with
      | .error e =>
        let counters := k.counters.clearFrom .matchSets
        ⟨{ taken with grids? := none, counters := counters }, report.log.toList, some e⟩
      | .ok stats =>
        ⟨taken.putLedger (k.grew report.ledger) report.ledger stats, report.log.toList, none⟩

/-- The report of the finished tables, if it is asked for. -/
def reportTables (k : Construction) (events : List Event) : Step :=
  if k.config.dumpTables then
    match k.dump with
    | .ok text => ⟨k, events ++ [.automatonTables text], none⟩
    | .error e => ⟨k, events, some e⟩
  else
    ⟨k, events, none⟩

/-- Builds the transition tables anew; the ones there were are dropped in any case. -/
def buildTables (k : Construction) : Step :=
  match k.forest?, k.relevance?, k.ledger? with
  | none, _, _ => .failed k (.phaseOrder .transitionTables .forest)
  | some _, none, _ => .failed k (.phaseOrder .transitionTables .projection)
  | some _, some _, none => .failed k (.phaseOrder .transitionTables .matchSets)
  | some f, some r, some l =>
    let k := { k with grids? := none, counters := k.counters.clearFrom .transitionTables }
    let report := Grids.report ⟨k.signature, f, r⟩ l.states
    match report.result with
    | .error e => ⟨k, report.log.toList, some e⟩
    | .ok gs =>
      let counters := { k.counters with totalClasses := gs.classes, totalEntries := gs.entries }
      { k with grids? := some gs, counters := counters }.reportTables report.log.toList

/-- Runs all phases in order and stops at the first that fails. -/
def build (k : Construction) : Step :=
  (((k.buildForest).andThen project).andThen discover).andThen buildTables

def perform (k : Construction) : Automaton.Call → Step
  | .register pattern => k.register pattern
  | .buildForest => k.buildForest
  | .project => k.project
  | .discover => k.discover
  | .buildTables => k.buildTables
  | .build => k.build

/-- The construction after some calls, each made whether the one before failed or not. -/
def performAll (k : Construction) : List Automaton.Call → Construction
  | [] => k
  | c :: calls => (k.perform c).construction.performAll calls

end Construction

end TreePattern
