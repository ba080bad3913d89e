import TreePattern.Automaton.Dump

/-!
# Building an automaton

Patterns are registered, then the phases run in order, one call each or all together. A call
returns the automaton after it, the events it reported, and an error if it failed. A phase
that succeeds drops the outputs of the later phases; registering a pattern drops them all. One
exception: discovery resumes on the match sets that exist, and if it finds no more of them the
tables built on them stay.
-/

namespace TreePattern

/-- What a call leaves behind. -/
structure Outcome where
  automaton : Automaton
  events : List Event
  error : Option BuildError

namespace Outcome

/-- A call that failed and left the automaton as it was. -/
def failed (a : Automaton) (e : BuildError) : Outcome := ⟨a, [], some e⟩

/-- Goes on with the next call, unless there was an error. -/
def andThen (o : Outcome) (next : Automaton → Outcome) : Outcome :=
  match o.error with
  | some _ => o
  | none =>
    let o' := next o.automaton
    { o' with events := o.events ++ o'.events }

end Outcome

namespace Automaton

/-- Adds a pattern to those that the automaton is to recognise. -/
def register (a : Automaton) (pattern : Tree) : Outcome :=
  match a.signature.register pattern with
  | .error e => .failed a e
  | .ok signature =>
    { automaton :=
        { a with
          signature := signature
          patterns := a.patterns ++ [pattern]
          progress := .registered }
      events := [.registeredPattern pattern]
      error := none }

def buildForest (a : Automaton) : Outcome :=
  match Forest.build a.signature a.patterns with
  | .error e => .failed a e
  | .ok f =>
    { automaton := { a with progress := .forestBuilt f }
      events := [.builtForest f.size a.patterns.length f.wildcard]
      error := none }

def project (a : Automaton) : Outcome :=
  match a.forest? with
  | none => .failed a (.phaseOrder .projection .forest)
  | some f =>
    match Relevance.ofForest a.signature f with
    | .error e => .failed a e
    | .ok r =>
      { automaton := { a with progress := .projected f r }
        events := [.computedProjection r.operatorCount r.entries]
        error := none }

/-- The tables, if the match sets on which they were built are still all there are. -/
def keptTables? (a : Automaton) (table : MatchSets) : Option Transitions :=
  match a.matchSets? with
  | some before => if table.size = before.size then a.tables? else none
  | none => none

/-- Finds every reachable match set, starting from those that exist. If the passes run out,
the sets found so far are dropped. -/
def discover (a : Automaton) : Outcome :=
  match a.forest?, a.relevance? with
  | none, _ => .failed a (.phaseOrder .matchSets .forest)
  | some _, none => .failed a (.phaseOrder .matchSets .projection)
  | some f, some r =>
    let rule : MatchRule := ⟨a.signature, f, r⟩
    let closure := match a.matchSets? with
      | some table => rule.close a.config.maxPasses table
      | none => rule.discover a.config.maxPasses
    let events := closure.events a.config.maxPasses
    match closure.error? a.config.maxPasses with
    | some e => ⟨{ a with progress := .projected f r }, events, some e⟩
    | none =>
      let progress := match a.keptTables? closure.table with
        | some tables => .complete f r closure.table closure.stats tables
        | none => .discovered f r closure.table closure.stats
      ⟨{ a with progress := progress }, events, none⟩

/-- The report of the finished tables, if it is asked for. -/
def reportTables (a : Automaton) (events : List Event) : Outcome :=
  if a.config.dumpTables then
    match a.dump? with
    | some text => ⟨a, events ++ [.automatonTables text], none⟩
    | none => ⟨a, events, some .outOfRange⟩
  else
    ⟨a, events, none⟩

/-- Builds the transition tables anew; the ones there were are dropped in any case. -/
def buildTables (a : Automaton) : Outcome :=
  match a.progress with
  | .registered => .failed a (.phaseOrder .transitionTables .forest)
  | .forestBuilt _ => .failed a (.phaseOrder .transitionTables .projection)
  | .projected _ _ => .failed a (.phaseOrder .transitionTables .matchSets)
  | .discovered f r table stats | .complete f r table stats _ =>
    let tabulation := Tabulation.run ⟨a.signature, f, r⟩ table
    match tabulation.result with
    | .error e =>
      ⟨{ a with progress := .discovered f r table stats }, tabulation.events, some e⟩
    | .ok tables =>
      { a with progress := .complete f r table stats tables }.reportTables tabulation.events

/-- Runs all phases in order and stops at the first that fails. -/
def build (a : Automaton) : Outcome :=
  (((a.buildForest).andThen project).andThen discover).andThen buildTables

/-- The things that can be asked of an automaton under construction. -/
inductive Call where
  | register (pattern : Tree)
  | buildForest
  | project
  | discover
  | buildTables
  | build
deriving DecidableEq

def perform (a : Automaton) : Call → Outcome
  | .register pattern => a.register pattern
  | .buildForest => a.buildForest
  | .project => a.project
  | .discover => a.discover
  | .buildTables => a.buildTables
  | .build => a.build

end Automaton

end TreePattern
