import Std.Data.TreeMap

/-!
# A roster of names

Names with numbers that are words of 32 bits, in two stores that know nothing of each other: the
names by number, and the numbers by name. A name gets a number when it is interned for the first
time, which is as much of the count of the names before it as fits into a word. Where the numbers
need no bound, a `NameTable` keeps the names.
-/

namespace TreePattern

/-- Names and their numbers. -/
structure Roster where
  /-- The name of each number. -/
  names : Array String
  /-- The number of each name. -/
  numbers : Std.TreeMap String UInt32

namespace Roster

def empty : Roster := ⟨#[], ∅⟩

def size (r : Roster) : Nat := r.names.size

def isEmpty (r : Roster) : Bool := r.names.isEmpty

def number? (r : Roster) (name : String) : Option UInt32 := r.numbers[name]?

def name? (r : Roster) (number : UInt32) : Option String := r.names[number.toNat]?

/-- The number of a name, which is the next one if it has none, and the roster that knows it. -/
def intern (r : Roster) (name : String) : UInt32 × Roster :=
  match r.number? name with
  | some number => (number, r)
  | none =>
    let number := UInt32.ofNat r.names.size
    (number, ⟨r.names.push name, r.numbers.insert name number⟩)

/-- Interns the names one after the other. -/
def internAll (r : Roster) : List String → List UInt32 × Roster
  | [] => ([], r)
  | name :: names =>
    let (number, r) := r.intern name
    let (numbers, r) := r.internAll names
    (number :: numbers, r)

/-- All names with their numbers, in the order of the store. -/
def entries (r : Roster) : List (UInt32 × String) :=
  r.names.toList.mapIdx fun k name => (.ofNat k, name)

end Roster

end TreePattern
