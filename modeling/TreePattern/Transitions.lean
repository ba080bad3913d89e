import TreePattern.Event
import TreePattern.Transitions.OperatorTable

/-!
# Transition tables

The tables of all operators. They are built operator by operator, by name, and building stops
at the first operator that leads out of the table of match sets; `Tabulation` keeps what was
built before that, so that events can be read off either way.
-/

namespace TreePattern

structure Transitions where
  operators : Std.TreeMap SymbolId OperatorTable

namespace Transitions

-- ---------------------------------------------------------------------------
-- Reading
-- ---------------------------------------------------------------------------

def operator? (tables : Transitions) (op : SymbolId) : Option OperatorTable :=
  tables.operators[op]?

def slot? (tables : Transitions) (op : SymbolId) (k : Nat) : Option SlotClasses :=
  (tables.operator? op).bind fun t => t.slots[k]?

/-- The class of a state in slot `k` of `op`. -/
def class? (tables : Transitions) (op : SymbolId) (k : Nat) (state : StateId) :
    Option ClassId :=
  (tables.slot? op k).bind fun slot => slot.class? state

/-- The trace of a class of slot `k` of `op`. -/
def trace? (tables : Transitions) (op : SymbolId) (k : Nat) (id : ClassId) :
    Option (List MemberId) :=
  (tables.slot? op k).bind fun slot => slot.trace? id

def classCount (tables : Transitions) (op : SymbolId) (k : Nat) : Nat :=
  ((tables.slot? op k).map SlotClasses.count).getD 0

/-- The target of a tuple of classes of `op`. -/
def target? (tables : Transitions) (op : SymbolId) (classes : List ClassId) :
    Option StateId :=
  (tables.operator? op).bind fun t => t.target? classes

/-- The state at a node `op` over children in the given states. -/
def transition? (tables : Transitions) (op : SymbolId) (states : List StateId) :
    Option StateId :=
  (tables.operator? op).bind fun t => t.transition? states

/-- The number of classes in all slots of all operators. -/
def totalClasses (tables : Transitions) : Nat :=
  total (tables.operators.toList.map fun entry => entry.2.classCount)

/-- The number of entries of all operators. -/
def totalEntries (tables : Transitions) : Nat :=
  total (tables.operators.toList.map fun entry => entry.2.entries.length)

end Transitions

-- ---------------------------------------------------------------------------
-- Building
-- ---------------------------------------------------------------------------

/-- The outcome of building the tables of some operators. -/
structure Tabulation where
  /-- The operators whose table was built, with their tables. -/
  built : List (Symbol × OperatorTable)
  /-- Why the next operator's table could not be built. -/
  failure : Option BuildError

namespace Tabulation

/-- Builds the tables of the given operators in turn. -/
def ofOperators (rule : MatchRule) (table : MatchSets) : List Symbol → Tabulation
  | [] => ⟨[], none⟩
  | op :: ops =>
    match OperatorTable.build rule table op with
    | .error e => ⟨[], some e⟩
    | .ok t =>
      let rest := ofOperators rule table ops
      { rest with built := (op, t) :: rest.built }

/-- Builds the tables of all operators, by name. -/
def run (rule : MatchRule) (table : MatchSets) : Tabulation :=
  ofOperators rule table rule.signature.operators

def tables (t : Tabulation) : Transitions :=
  ⟨Std.TreeMap.ofList (t.built.map fun entry => (entry.1.id, entry.2))⟩

def result (t : Tabulation) : Except BuildError Transitions :=
  match t.failure with
  | some e => .error e
  | none => .ok t.tables

/-- One event for each operator whose table was built, and one for all if none failed. -/
def events (t : Tabulation) : List Event :=
  let operators := t.built.map fun entry =>
    Event.builtOperatorTables entry.1.name entry.2.classCount entry.2.entries.length
  let all :=
    Event.builtTransitionTables t.built.length t.tables.totalClasses t.tables.totalEntries
  operators ++ if t.failure.isNone then [all] else []

end Tabulation

/-- The tables of all operators over the given table of match sets. -/
def Transitions.build (rule : MatchRule) (table : MatchSets) :
    Except BuildError Transitions :=
  (Tabulation.run rule table).result

end TreePattern
