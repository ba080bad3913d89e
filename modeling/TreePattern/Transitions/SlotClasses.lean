import TreePattern.Numbering

/-!
# Classes of one slot

Two match sets with the same relevant part are interchangeable as the child in a slot, so the
states fall into classes, one for each part that is not empty. Classes are numbered in the
order in which their part, the trace, first occurs among the states. A state whose trace is
empty has no class: it cannot contribute to a match of the operator.
-/

namespace TreePattern

structure SlotClasses where
  /-- The class of each state. -/
  classOf : Array (Option ClassId)
  /-- The trace of each class. -/
  traces : Numbering .slotClass (List MemberId)

namespace SlotClasses

def empty : SlotClasses := ⟨#[], Numbering.empty⟩

/-- Puts the next state, given by its trace, into its class. -/
def add (c : SlotClasses) (trace : List MemberId) : SlotClasses :=
  if trace.isEmpty then
    { c with classOf := c.classOf.push none }
  else
    let (id, traces) := c.traces.intern trace
    ⟨c.classOf.push (some id), traces⟩

/-- Classifies the states with the given traces, the trace of state 0 first. -/
def ofTraces (traces : List (List MemberId)) : SlotClasses := traces.foldl add empty

/-- The class of a state, if it has one. -/
def class? (c : SlotClasses) (state : StateId) : Option ClassId := c.classOf[state.val]?.join

/-- The trace that a class stands for. -/
def trace? (c : SlotClasses) (id : ClassId) : Option (List MemberId) := c.traces.get? id

/-- The class of each state of a tuple, one state for each slot; `none` if one of them is not a
state. -/
def classesOf? (slots : List SlotClasses) (states : List StateId) :
    Option (List (Option ClassId)) :=
  (slots.zip states).mapM fun (slot, state) => slot.classOf[state.val]?

/-- The number of classes. -/
def count (c : SlotClasses) : Nat := c.traces.size

end SlotClasses

end TreePattern
