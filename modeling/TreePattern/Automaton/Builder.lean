import TreePattern.Automaton.Call

/-!
# Building in one go

A builder gathers patterns and settings and then builds the whole automaton, stopping at the
first error.
-/

namespace TreePattern

structure Automaton.Builder where
  config : Config := {}
  /-- The patterns to register, in order. -/
  patterns : List Tree := []

namespace Automaton.Builder

def empty : Builder := {}

def pattern (b : Builder) (p : Tree) : Builder := { b with patterns := b.patterns ++ [p] }

def addPatterns (b : Builder) (ps : List Tree) : Builder :=
  { b with patterns := b.patterns ++ ps }

/-- Replaces all settings. -/
def withConfig (b : Builder) (config : Config) : Builder := { b with config := config }

def maxPasses (b : Builder) (n : Nat) : Builder :=
  { b with config := { b.config with maxPasses := n } }

def dumpTables (b : Builder) (yes : Bool) : Builder :=
  { b with config := { b.config with dumpTables := yes } }

/-- Registers every pattern and runs all phases. -/
def build (b : Builder) : Outcome :=
  let start : Outcome := ⟨Automaton.ofConfig b.config, [], none⟩
  let registered := b.patterns.foldl (fun o p => o.andThen (·.register p)) start
  registered.andThen Automaton.build

end Automaton.Builder

end TreePattern
