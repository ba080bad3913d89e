import TreePattern.Transitions

/-!
# Grids of targets

A grid is the table of an operator as it is filled. It has a cell for each tuple of classes, and all
cells are empty at first. One counter runs through the tuples of numbers below the largest number of
classes of a slot. A tuple with a number that some slot has no class for is skipped; for any other
the target is found and entered into the cell of the tuple. The number of a cell is found from its
tuple from left to right, and when the cells are listed, each tuple is found from the number of its
cell from right to left.

The grids of all operators are made one after the other, by name, and their classes and entries are
added up on the way.
-/

namespace TreePattern

structure Grid where
  op : SymbolId
  slots : List SlotClasses
  /-- The target of each tuple of classes; `none` in a cell that has not been filled. -/
  cells : Array (Option StateId)

namespace Grid

-- ---------------------------------------------------------------------------
-- Filling
-- ---------------------------------------------------------------------------

/-- The traces of a tuple of classes; `none` if a slot has no such class. -/
def tracesOf? (slots : List SlotClasses) (classes : List ClassId) :
    Option (List (List MemberId)) :=
  (slots.zip classes).mapM fun (slot, c) => slot.trace? c

/-- The classes of the states in slot `k` of `op`. -/
def slotClasses (rule : MatchRule) (states : States) (op : Symbol) (k : Nat) : SlotClasses :=
  SlotClasses.ofTraces (states.sets.map (rule.relevance.restrict op.id k))

/-- The state at a node `op` whose children have the given traces. The set that belongs there
must have a number. -/
def findTarget (rule : MatchRule) (states : States) (op : Symbol)
    (traces : List (List MemberId)) : Except BuildError StateId :=
  let parents := rule.forest.addParents op.id (traces.map List.toArray) {rule.forest.wildcard}
  let set := parents.members.toList
  match states.idOf? set with
  | some state => .ok state
  | none => .error (.lookupMiss op.name set)

/-- Enters the target of the tuple of classes with the given numbers, if there is such a tuple. -/
def fillCell (rule : MatchRule) (states : States) (op : Symbol) (slots : List SlotClasses)
    (cells : Array (Option StateId)) (digits : List Nat) :
    Except BuildError (Array (Option StateId)) :=
  match tracesOf? slots (digits.map Index.mk) with
  | none => .ok cells
  | some traces => do
    let target ← findTarget rule states op traces
    match MixedRadix.offset? (slots.map SlotClasses.count) digits with
    | none => return cells
    | some n => putAt cells n (some target)

/-- Counts through the tuples and fills the cells; fails at the first tuple without a target. -/
def make (rule : MatchRule) (states : States) (op : Symbol) : Except BuildError Grid := do
  let slots := (List.range op.arity).map (slotClasses rule states op)
  let radices := slots.map SlotClasses.count
  let cells ← Enumeration.foldlM (fillCell rule states op slots)
    (Array.replicate (MixedRadix.volume radices) none)
    (TupleCounter.ofBase (radices.foldr max 0) op.arity)
  return ⟨op.id, slots, cells⟩

/-- The grid of `op` over a table of match sets. -/
def build (rule : MatchRule) (table : MatchSets) (op : Symbol) : Except BuildError Grid :=
  make rule table.states op

-- ---------------------------------------------------------------------------
-- Reading
-- ---------------------------------------------------------------------------

/-- The number of classes of each slot. -/
def radices (g : Grid) : List Nat := g.slots.map SlotClasses.count

/-- The number of classes of all slots. -/
def classCount (g : Grid) : Nat := total g.radices

/-- The target of a tuple of classes. -/
def target? (g : Grid) (classes : List ClassId) : Option StateId :=
  (MixedRadix.offset? g.radices (classes.map Index.val)).bind fun n => g.cells[n]?.join

/-- The filled cells with their tuples, in the order of their numbers. -/
def entries (g : Grid) : List (List ClassId × StateId) :=
  g.cells.toList.zipIdx.filterMap fun (target, n) =>
    target.map fun state => ((MixedRadix.digitsOf g.radices n).map Index.mk, state)

/-- The numbers of the filled cells with their targets. -/
def filled (g : Grid) : List (Nat × StateId) :=
  g.cells.toList.zipIdx.filterMap fun (target, n) => target.map fun state => (n, state)

/-- The entries, each tuple found by division, which needs a class in every slot. -/
def listing (g : Grid) : Except BuildError (List (List ClassId × StateId)) :=
  g.filled.mapM fun (n, state) => do
    let digits ← found (MixedRadix.digitsOf? g.radices n)
    return (digits.map Index.mk, state)

/-- What the cell of a tuple of classes holds, which has to be there if there is such a tuple. -/
def cellOf (g : Grid) (classes : List ClassId) : Except BuildError (Option StateId) :=
  match MixedRadix.offset? g.radices (classes.map Index.val) with
  | none => .ok none
  | some n => found g.cells[n]?

/-- The state at a node over children in the given states, one for each slot; `none` if their
number is wrong or a state has no number. A child without a class leaves only the wildcard to
match. -/
def transition (g : Grid) (states : List StateId) : Except BuildError (Option StateId) :=
  if states.length = g.slots.length then
    match SlotClasses.classesOf? g.slots states with
    | none => .ok none
    | some classes =>
      match classes.mapM id with
      | some classes => g.cellOf classes
      | none => .ok (some MatchSets.wildcardState)
  else
    .ok none

end Grid

-- ---------------------------------------------------------------------------
-- The grids of all operators
-- ---------------------------------------------------------------------------

structure Grids where
  operators : Std.TreeMap SymbolId Grid
  /-- The number of classes in all slots of the operators so far. -/
  classes : Nat
  /-- The number of entries of the operators so far. -/
  entries : Nat

namespace Grids

def empty : Grids := ⟨∅, 0, 0⟩

def operator? (gs : Grids) (op : SymbolId) : Option Grid := gs.operators[op]?

/-- The number of classes of each slot of `op`. -/
def radices (gs : Grids) (op : SymbolId) : List Nat :=
  ((gs.operator? op).map Grid.radices).getD []

/-- The target of a tuple of classes of `op`. -/
def target? (gs : Grids) (op : SymbolId) (classes : List ClassId) : Option StateId :=
  (gs.operator? op).bind fun g => g.target? classes

/-- The state at a node `op` over children in the given states. -/
def transition (gs : Grids) (op : SymbolId) (states : List StateId) :
    Except BuildError (Option StateId) :=
  match gs.operator? op with
  | some g => g.transition states
  | none => .ok none

/-- Adds the grid of `op` with its classes and the given number of entries. -/
def add (gs : Grids) (op : SymbolId) (g : Grid) (entries : Nat) : Grids where
  operators := gs.operators.insert op g
  classes := gs.classes + g.classCount
  entries := gs.entries + entries

/-- Makes the grid of one more operator. -/
def tabulate (rule : MatchRule) (states : States) (gs : Grids) (op : Symbol) :
    Except BuildError Grids := do
  let g ← Grid.make rule states op
  let entries ← g.listing
  return gs.add op.id g entries.length

/-- Makes the grids of all operators, by name. -/
def make (rule : MatchRule) (states : States) : Except BuildError Grids :=
  rule.signature.operators.foldlM (tabulate rule states) empty

/-- The grids of all operators over a table of match sets. -/
def build (rule : MatchRule) (table : MatchSets) : Except BuildError Grids :=
  make rule table.states

-- ---------------------------------------------------------------------------
-- Making them with a log
-- ---------------------------------------------------------------------------

/-- What making the grids leaves behind: the log, and the grids or the error that stopped it. -/
structure Report where
  log : Array Event
  result : Except BuildError Grids

/-- Makes the grids of the operators that are left and reports on each. -/
def reportFrom (rule : MatchRule) (states : States) :
    List Symbol → Grids → Array Event → Report
  | [], gs, log =>
    ⟨log.push (.builtTransitionTables gs.operators.size gs.classes gs.entries), .ok gs⟩
  | op :: ops, gs, log =>
    match Grid.make rule states op with
    | .error e => ⟨log, .error e⟩
    | .ok g =>
      match g.listing with
      | .error e => ⟨log, .error e⟩
      | .ok entries =>
        reportFrom rule states ops (gs.add op.id g entries.length)
          (log.push (.builtOperatorTables op.name g.classCount entries.length))

/-- Makes the grids of all operators, by name, and reports on each. -/
def report (rule : MatchRule) (states : States) : Report :=
  reportFrom rule states rule.signature.operators empty #[]

end Grids

end TreePattern
