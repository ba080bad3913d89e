import TreePattern.Automaton.Call

/-!
# Running counters

The counters of an automaton are kept beside it while it is built. A phase that succeeds clears
the counters from its own on, because the later outputs are dropped, and then sets its own. A
phase that fails leaves them alone, apart from a discovery whose passes run out and from tables
that cannot be built: these drop outputs and clear their counters. A discovery that finds no
more sets than there were keeps the tables, and so their counters.
-/

namespace TreePattern

-- ---------------------------------------------------------------------------
-- Counters
-- ---------------------------------------------------------------------------

namespace Stats

/-- The counters after a phase that changes nothing if it fails. If it succeeds, the counters
from `phase` on are cleared, and `count` sets the phase's own. -/
def afterPhase (phase : Phase) (count : Automaton → Stats → Stats) (o : Outcome) (s : Stats) :
    Stats :=
  match o.error with
  | some _ => s
  | none => count o.automaton (s.clearFrom phase)

def countPatterns (a : Automaton) (s : Stats) : Stats := { s with patterns := a.patterns.length }

def countForest (a : Automaton) (s : Stats) : Stats :=
  match a.forest? with
  | some f => { s with forestSize := f.size }
  | none => s

def countProjection (a : Automaton) (s : Stats) : Stats :=
  match a.relevance? with
  | some r => { s with projectionEntries := r.entries }
  | none => s

def countDiscovery (a : Automaton) (s : Stats) : Stats :=
  match a.progress with
  | .discovered _ _ table stats | .complete _ _ table stats _ =>
    { s with
      passes := stats.passes
      candidatesExamined := stats.candidates
      matchSets := table.size }
  | .registered | .forestBuilt _ | .projected _ _ => s

def countTables (a : Automaton) (s : Stats) : Stats :=
  match a.tables? with
  | some tables =>
    { s with totalClasses := tables.totalClasses, totalEntries := tables.totalEntries }
  | none => s

/-- Whether a discovery has left more sets than there were before it. -/
def grew (before after : Automaton) : Bool :=
  before.matchSets?.map MatchSets.size != after.matchSets?.map MatchSets.size

/-- The counters after a discovery, which needs a projection. -/
def afterDiscover (before : Automaton) (o : Outcome) (s : Stats) : Stats :=
  match before.relevance?, o.error with
  | none, _ => s
  | some _, some _ => s.clearFrom .matchSets
  | some _, none =>
    countDiscovery o.automaton
      (if grew before o.automaton then s.clearFrom .transitionTables else s)

/-- The counters after the tables have been built, which needs match sets. -/
def afterTables (before : Automaton) (o : Outcome) (s : Stats) : Stats :=
  match before.matchSets? with
  | none => s
  | some _ => countTables o.automaton (s.clearFrom .transitionTables)

end Stats

-- ---------------------------------------------------------------------------
-- Calls
-- ---------------------------------------------------------------------------

/-- What the last call left behind, with the counters after it. -/
structure Tally where
  outcome : Outcome
  counters : Stats

namespace Tally

def automaton (t : Tally) : Automaton := t.outcome.automaton

/-- A new automaton with its counters. -/
def ofConfig (config : Config) : Tally := ⟨⟨.ofConfig config, [], none⟩, .zero⟩

/-- Goes on with a call, unless there was an error, and brings the counters up to date. -/
def andThen (t : Tally) (call : Automaton → Outcome)
    (count : Automaton → Outcome → Stats → Stats) : Tally :=
  match t.outcome.error with
  | some _ => t
  | none =>
    let o := call t.automaton
    ⟨t.outcome.andThen fun _ => o, count t.automaton o t.counters⟩

def register (t : Tally) (pattern : Tree) : Tally :=
  t.andThen (·.register pattern) fun _ => Stats.afterPhase .forest Stats.countPatterns

def buildForest (t : Tally) : Tally :=
  t.andThen Automaton.buildForest fun _ => Stats.afterPhase .forest Stats.countForest

def project (t : Tally) : Tally :=
  t.andThen Automaton.project fun _ => Stats.afterPhase .projection Stats.countProjection

def discover (t : Tally) : Tally := t.andThen Automaton.discover Stats.afterDiscover

def buildTables (t : Tally) : Tally := t.andThen Automaton.buildTables Stats.afterTables

def build (t : Tally) : Tally := t.buildForest.project.discover.buildTables

/-- Forgets the events and the error of the last call. -/
def next (t : Tally) : Tally := { t with outcome := ⟨t.automaton, [], none⟩ }

/-- Makes a call, whether the last one failed or not. -/
def perform (t : Tally) (c : Automaton.Call) : Tally :=
  match c with
  | .register pattern => t.next.register pattern
  | .buildForest => t.next.buildForest
  | .project => t.next.project
  | .discover => t.next.discover
  | .buildTables => t.next.buildTables
  | .build => t.next.build

end Tally

end TreePattern
