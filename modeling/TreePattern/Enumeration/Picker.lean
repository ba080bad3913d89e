import TreePattern.Enumeration.Wheels

/-!
# Picking by wheels

One element from each of several slots, in every possible way. Wheels count through the tuples of
places up to the longest slot, whatever the lengths of the others. A tuple that points past the end
of a slot picks nothing, and the wheels are turned on until they show one that does. Turning on
comes to an end from any state of the wheels (`Wheels.tuplesLeft`), reached or not.
-/

namespace TreePattern

/-- A sequence with no more places than there are words. -/
structure Slot (α : Type) where
  elements : Array α
  size_lt : elements.size < UInt64.size

namespace Slot

variable {α : Type}

def size (slot : Slot α) : UInt64 := .ofNat slot.elements.size

def get? (slot : Slot α) (place : UInt64) : Option α := slot.elements[place.toNat]?

end Slot

/-- Wheels that point into slots. -/
structure Picker (α : Type) where
  slots : List (Slot α)
  wheels : Wheels

namespace Picker

variable {α : Type}

/-- The length of the longest slot, zero if there is no slot. -/
def longest (slots : List (Slot α)) : UInt64 := (slots.map Slot.size).max?.getD 0

def ofSlots (slots : List (Slot α)) : Picker α where
  slots := slots
  wheels := .ofBase (longest slots) slots.length

/-- Goes back to the first tuple. -/
def reset (p : Picker α) : Picker α := { p with wheels := p.wheels.reset }

/-- The elements at the given places, unless one of the places is past the end of its slot. -/
def pick (slots : List (Slot α)) (places : List UInt64) : Option (List α) :=
  (slots.zip places).mapM fun (slot, place) => slot.get? place

/-- The next tuple of elements, unless there is none, and the picker after it. -/
def next (p : Picker α) : Except WordOverflow (Option (List α) × Picker α) :=
  match _h : p.wheels.next with
  | .error e => .error e
  | .ok (none, wheels) => .ok (none, { p with wheels := wheels })
  | .ok (some places, wheels) =>
    match pick p.slots places with
    | some tuple => .ok (some tuple, { p with wheels := wheels })
    | none => next { p with wheels := wheels }
termination_by p.wheels.tuplesLeft
decreasing_by exact Wheels.tuplesLeft_lt_of_next _h

end Picker

end TreePattern
