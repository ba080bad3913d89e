import TreePattern.Event
import TreePattern.MatchSets.Sweep

/-!
# Closing a table of match sets

Sweeps are repeated until one finds nothing: the table then holds the successor of every tuple
of its sets. A limit on their number may stop the search before that. `MatchRule.close`
reports each pass, so that counters and events can be read off afterwards.
-/

namespace TreePattern

/-- What one pass did. -/
structure Pass where
  /-- The number of sets it found. -/
  added : Nat
  /-- The number of sets in the table after it. -/
  matchSets : Nat
  /-- The number of choices of children it tried. -/
  candidates : Nat
deriving DecidableEq

/-- The outcome of closing a table. -/
structure Closure where
  table : MatchSets
  passes : List Pass
  /-- Whether the last pass found nothing, rather than the passes running out. -/
  complete : Bool

/-- Counters of a discovery that came to its end. -/
structure ClosureStats where
  /-- The number of passes, the last one, which found nothing, included. -/
  passes : Nat
  /-- The number of choices of children that were tried. -/
  candidates : Nat
deriving DecidableEq

namespace MatchRule

/-- Sweeps until nothing is found; at most `budget` times, if that is given. -/
def closeWithin (rule : MatchRule) (budget : Option Nat) (table : MatchSets) : Closure :=
  if budget = some 0 then
    { table := table, passes := [], complete := false }
  else
    let sweep := rule.sweep table
    let pass : Pass := ⟨sweep.table.size - table.size, sweep.table.size, sweep.candidates⟩
    if _h : sweep.table.size - table.size = 0 then
      { table := sweep.table, passes := [pass], complete := true }
    else
      let rest := rule.closeWithin (budget.map (· - 1)) sweep.table
      { rest with passes := pass :: rest.passes }
termination_by rule.unseen table
decreasing_by exact rule.unseen_sweep_lt table _h

/-- Closes a table in at most `maxPasses` passes, where 0 stands for no limit. -/
def close (rule : MatchRule) (maxPasses : Nat) (table : MatchSets) : Closure :=
  rule.closeWithin (if maxPasses = 0 then none else some maxPasses) table

/-- Closes the table of the leaf states. -/
def discover (rule : MatchRule) (maxPasses : Nat) : Closure :=
  rule.close maxPasses (MatchSets.ofLeaves rule.signature rule.forest)

end MatchRule

namespace Closure

def stats (c : Closure) : ClosureStats where
  passes := c.passes.length
  candidates := total (c.passes.map Pass.candidates)

/-- The error of a search that was stopped by the limit `maxPasses`. -/
def error? (c : Closure) (maxPasses : Nat) : Option BuildError :=
  if c.complete then none else some (.passLimitExceeded maxPasses)

/-- One event for each pass, numbered from 1, and one for how the search ended. -/
def events (c : Closure) (maxPasses : Nat) : List Event :=
  let passes := c.passes.mapIdx fun i p => Event.closurePass (i + 1) p.added p.matchSets
  let last :=
    if c.complete then
      Event.discoveredMatchSets c.table.size c.stats.passes c.stats.candidates
    else
      Event.passLimitHit maxPasses c.table.size
  passes ++ [last]

end Closure

end TreePattern
