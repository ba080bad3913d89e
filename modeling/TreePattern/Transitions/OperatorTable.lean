import TreePattern.MatchRule
import TreePattern.MixedRadix
import TreePattern.Transitions.SlotClasses

/-!
# The table of one operator

The state at a node depends on the children's states only through their classes, so the
table of an operator has one target for each tuple of classes. The targets stand in an array
at the numbers of their tuples (`MixedRadix`).
-/

namespace TreePattern

structure OperatorTable where
  op : SymbolId
  slots : List SlotClasses
  /-- The target of each tuple of classes, in lexicographic order. -/
  targets : Array StateId

namespace OperatorTable

-- ---------------------------------------------------------------------------
-- Building
-- ---------------------------------------------------------------------------

/-- The state at a node `op` whose children have the given traces. The set that belongs there
must be in the table. -/
def findTarget (rule : MatchRule) (table : MatchSets) (op : Symbol)
    (traces : List (Array MemberId)) : Except BuildError StateId :=
  let parents := rule.forest.addParents op.id traces {rule.forest.wildcard}
  let set := parents.members.toList
  match table.idOf? set with
  | some state => .ok state
  | none => .error (.lookupMiss op.name set)

/-- The classes of the states of `table` in slot `k` of `op`. -/
def slotClasses (rule : MatchRule) (table : MatchSets) (op : Symbol) (k : Nat) : SlotClasses :=
  SlotClasses.ofTraces (table.toList.map (rule.relevance.restrict op.id k))

/-- The choices of one trace for each slot, in the lexicographic order of their classes. -/
def traceTuples (slots : List SlotClasses) : List (List (Array MemberId)) :=
  Enumeration.toList (Choices.ofSlots (slots.map fun c => c.traces.values.map List.toArray))

/-- Finds the target of every tuple of classes; fails at the first that has none. -/
def build (rule : MatchRule) (table : MatchSets) (op : Symbol) :
    Except BuildError OperatorTable := do
  let slots := (List.range op.arity).map (slotClasses rule table op)
  let targets ← (traceTuples slots).mapM (findTarget rule table op)
  return ⟨op.id, slots, targets.toArray⟩

-- ---------------------------------------------------------------------------
-- Reading
-- ---------------------------------------------------------------------------

def arity (t : OperatorTable) : Nat := t.slots.length

/-- The number of classes of each slot. -/
def radices (t : OperatorTable) : List Nat := t.slots.map SlotClasses.count

/-- The number of classes of all slots. -/
def classCount (t : OperatorTable) : Nat := total t.radices

/-- The target of a tuple of classes. -/
def target? (t : OperatorTable) (classes : List ClassId) : Option StateId :=
  (MixedRadix.encode? t.radices (classes.map Index.val)).bind fun n => t.targets[n]?

/-- All tuples of classes with their targets, in lexicographic order. -/
def entries (t : OperatorTable) : List (List ClassId × StateId) :=
  t.targets.toList.mapIdx fun n state => ((MixedRadix.decode t.radices n).map Index.mk, state)

/-- The state at a node over children in the given states, one for each slot; `none` if their
number is wrong or a state is not in the table. A child without a class leaves only the
wildcard to match. -/
def transition? (t : OperatorTable) (states : List StateId) : Option StateId :=
  if states.length = t.arity then do
    let classes ← SlotClasses.classesOf? t.slots states
    match classes.mapM id with
    | some classes => t.target? classes
    | none => some MatchSets.wildcardState
  else
    none

end OperatorTable

end TreePattern
