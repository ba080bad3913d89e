import TreePattern.Enumeration.TupleCounter

/-!
# Choices

All ways to pick one element from each of several sequences, the last sequence fastest. The
sequences may differ in length: a counter runs up to the longest of them, and the index
tuples that point past the end of a sequence are skipped. One empty sequence leaves nothing
to pick; no sequences leave the empty tuple.
-/

namespace TreePattern

/-- The tuples over the slots that are still to come. -/
structure Choices (α : Type) where
  slots : List (Array α)
  indexes : TupleCounter

namespace Choices

variable {α : Type}

/-- The elements at the given indexes, `none` if one of them is past the end of its slot. -/
def pick : List (Array α) → List Nat → Option (List α)
  | slot :: slots, i :: is =>
    match slot[i]? with
    | none => none
    | some a => (pick slots is).map (a :: ·)
  | _, _ => some []

/-- The length of the longest slot. -/
def longest (slots : List (Array α)) : Nat := (slots.map Array.size).foldr max 0

def ofSlots (slots : List (Array α)) : Choices α where
  slots := slots
  indexes := .ofBase (longest slots) slots.length

/-- The tuples of `n` elements of `as`. -/
def power (as : Array α) (n : Nat) : Choices α := ofSlots (List.replicate n as)

/-- Goes back to the first tuple. -/
def reset (p : Choices α) : Choices α := { p with indexes := p.indexes.reset }

/-- The next index tuple that points into every slot, and what it picks. -/
def nextPick (slots : List (Array α)) (c : TupleCounter) : Option (List α × TupleCounter) :=
  match _h : Enumeration.next? c with
  | none => none
  | some (is, c') =>
    match pick slots is with
    | some as => some (as, c')
    | none => nextPick slots c'
termination_by Enumeration.remaining c
decreasing_by exact Enumeration.remaining_lt _h

/-- However many tuples are skipped, a choice leaves fewer of them. -/
theorem remaining_lt_of_nextPick {slots : List (Array α)} {c c' : TupleCounter} {as : List α}
    (hn : nextPick slots c = some (as, c')) :
    Enumeration.remaining c' < Enumeration.remaining c := by
  rw [nextPick] at hn
  split at hn
  · exact absurd hn (by simp)
  · next is c₁ h =>
    have hlt := Enumeration.remaining_lt h
    split at hn
    · cases hn
      exact hlt
    · exact Nat.lt_trans (remaining_lt_of_nextPick hn) hlt
termination_by Enumeration.remaining c

instance : Enumeration (Choices α) (List α) where
  next? p := (nextPick p.slots p.indexes).map fun (as, c) => (as, { p with indexes := c })
  remaining p := Enumeration.remaining p.indexes
  remaining_lt {p as p'} hn := by
    obtain ⟨⟨as', c⟩, ho, heq⟩ := Option.map_eq_some_iff.1 hn
    cases heq
    exact remaining_lt_of_nextPick ho

end Choices

end TreePattern
