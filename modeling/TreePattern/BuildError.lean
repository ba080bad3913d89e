import TreePattern.Index

/-!
# Why a build fails

An automaton is built in phases, each from the outputs of earlier ones. `BuildError` lists
the reasons for which a phase gives up, and `BuildError.message` words them. Where an entry of a
table is asked for or set by its number, `found` and `putAt` give up if there is no such entry.
-/

namespace TreePattern

/-- The phases in the order in which they run. -/
inductive Phase where
  | registration
  | forest
  | projection
  | matchSets
  | transitionTables
deriving DecidableEq

namespace Phase

/-- All phases, in order. -/
def all : List Phase := [registration, forest, projection, matchSets, transitionTables]

/-- The place of a phase in the order. -/
def place (p : Phase) : Nat := all.idxOf p

/-- An earlier phase is the smaller one. -/
instance : LE Phase := ⟨fun p q => p.place ≤ q.place⟩

instance (p q : Phase) : Decidable (p ≤ q) := inferInstanceAs (Decidable (p.place ≤ q.place))

def title : Phase → String
  | registration => "pattern registration"
  | forest => "pattern forest"
  | projection => "relevance projection"
  | matchSets => "match-set discovery"
  | transitionTables => "transition tables"

end Phase

inductive BuildError where
  /-- A symbol is used with two different numbers of children. -/
  | arityConflict (symbol : String) (expected found : Nat)
  /-- A phase is started before one whose output it needs. -/
  | phaseOrder (phase required : Phase)
  /-- There is nothing to build a forest from. -/
  | noPatterns
  /-- An operator leads to a set that is not in the table of match sets. -/
  | lookupMiss (operator : String) (result : List MemberId)
  /-- Discovery was still finding sets when its passes ran out. -/
  | passLimitExceeded (limit : Nat)
  /-- Phase outputs that do not belong together: one refers to an entry that another lacks. -/
  | outOfRange
deriving DecidableEq

def BuildError.message : BuildError → String
  | arityConflict symbol expected found =>
    "symbol `" ++ symbol ++ "` used with " ++ toString found ++
      " children, previously seen with " ++ toString expected
  | phaseOrder phase required =>
    phase.title ++ " requires " ++ required.title ++ " to be built first"
  | noPatterns => "no patterns registered"
  | lookupMiss operator result =>
    "transition of `" ++ operator ++ "` produced unknown match set " ++
      Index.renderAll "[" "]" result
  | passLimitExceeded limit =>
    "match-set discovery did not converge within " ++ toString limit ++ " passes"
  | outOfRange => "index outside a table"

-- ---------------------------------------------------------------------------
-- Entries of tables
-- ---------------------------------------------------------------------------

/-- What a look-up has found; one that finds nothing has gone astray. -/
def found {α : Type} : Option α → Except BuildError α
  | some a => .ok a
  | none => .error .outOfRange

/-- A look-up succeeds with what is there, and in no other case. -/
theorem found_eq_ok_iff {α : Type} {o : Option α} {a : α} : found o = .ok a ↔ o = some a := by
  cases o with
  | none => simp [found]
  | some b => simp [found]

/-- Sets the entry with number `i`, which has to be there. -/
def putAt {α : Type} (entries : Array α) (i : Nat) (a : α) : Except BuildError (Array α) :=
  if h : i < entries.size then .ok (entries.set i a) else .error .outOfRange

theorem putAt_of_lt {α : Type} {entries : Array α} {i : Nat} (h : i < entries.size) (a : α) :
    putAt entries i a = .ok (entries.set i a) := dif_pos h

end TreePattern
