import Std.Data.TreeMap
import Std.Data.TreeSet

/-!
# Dense indices

Symbols, forest members, match sets, slot classes and shared subtrees are all numbered from 0.
`Index k` is such a number together with the kind of thing it counts, so a member cannot be
taken for a state. Indices are ordered by their value, and the order is lawful, so they may
serve as keys.
-/

namespace TreePattern

/-- The things that carry a dense number. -/
inductive IndexKind where
  | symbol
  | member
  | matchSet
  | slotClass
  | handle

/-- A number counting things of kind `k`. -/
structure Index (k : IndexKind) where
  val : Nat
deriving DecidableEq

abbrev SymbolId := Index .symbol
abbrev MemberId := Index .member

/-- A match set is a state of the automaton, and its number names the state. -/
abbrev StateId := Index .matchSet
abbrev ClassId := Index .slotClass

/-- Names a subtree while a forest is being put together. -/
abbrev Handle := Index .handle

namespace Index

variable {k : IndexKind}

theorem ext_iff {a b : Index k} : a = b ↔ a.val = b.val := by
  cases a; cases b; simp

instance : LT (Index k) := ⟨fun a b => a.val < b.val⟩
instance : LE (Index k) := ⟨fun a b => a.val ≤ b.val⟩
instance (a b : Index k) : Decidable (a < b) := inferInstanceAs (Decidable (a.val < b.val))
instance (a b : Index k) : Decidable (a ≤ b) := inferInstanceAs (Decidable (a.val ≤ b.val))

theorem lt_def {a b : Index k} : a < b ↔ a.val < b.val := Iff.rfl
instance : Ord (Index k) := ⟨compareOn Index.val⟩
instance : Std.TransOrd (Index k) := inferInstanceAs (Std.TransCmp (compareOn Index.val))

theorem compare_def (a b : Index k) : compare a b = compare a.val b.val := rfl

instance : Std.LawfulEqOrd (Index k) where
  eq_of_compare {a b} h := by
    rw [compare_def, Std.LawfulEqCmp.compare_eq_iff_eq] at h
    exact ext_iff.2 h

/-- Lists of indices are ordered lexicographically, lawfully too. -/
instance : Std.TransOrd (List (Index k)) := List.instTransOrd

instance : Std.LawfulEqOrd (List (Index k)) := List.instLawfulEqOrd

/-- Maps over indices are ordered by number. -/
theorem compare_eq_lt {a b : Index k} : compare a b = .lt ↔ a < b := by
  rw [compare_def, Nat.compare_eq_lt, lt_def]

theorem map_mk_map_val (l : List (Index k)) : (l.map Index.val).map Index.mk = l := by
  rw [List.map_map]
  exact List.map_id l

theorem map_val_map_mk (l : List Nat) : (l.map (Index.mk : Nat → Index k)).map Index.val = l := by
  rw [List.map_map]
  exact List.map_id l

end Index

/-- The mark written before a number of each kind. -/
def IndexKind.mark : IndexKind → String
  | .symbol => "#"
  | .member => ""
  | .matchSet => "M"
  | .slotClass => "c"
  | .handle => "@"

def Index.render {k : IndexKind} (i : Index k) : String := k.mark ++ toString i.val

/-- Indices between two brackets, with a comma and a blank from one to the next. -/
def Index.renderAll {k : IndexKind} (opening closing : String) (l : List (Index k)) : String :=
  opening ++ String.intercalate ", " (l.map Index.render) ++ closing

/-- The first `n` indices, ascending. -/
def Index.range (k : IndexKind) (n : Nat) : List (Index k) := (List.range n).map Index.mk

/-- Sorts a list of indices and drops the repetitions. -/
def Index.sorted {k : IndexKind} (l : List (Index k)) : List (Index k) :=
  (Std.TreeSet.ofList l).toList

/-- The first `n` indices are those with a number below `n`. -/
theorem Index.mem_range {k : IndexKind} {n : Nat} {i : Index k} :
    i ∈ Index.range k n ↔ i.val < n := by
  simp only [Index.range, List.mem_map, List.mem_range]
  constructor
  · rintro ⟨v, hv, rfl⟩
    exact hv
  · exact fun h => ⟨i.val, h, rfl⟩

theorem Index.length_range (k : IndexKind) (n : Nat) : (Index.range k n).length = n := by
  rw [Index.range, List.length_map, List.length_range]

theorem Index.getElem_range {k : IndexKind} {n i : Nat} (h : i < (Index.range k n).length) :
    (Index.range k n)[i] = ⟨i⟩ := by
  simp [Index.range]

theorem Index.pairwise_range (k : IndexKind) (n : Nat) :
    (Index.range k n).Pairwise (· < ·) := by
  rw [Index.range, List.pairwise_map]
  exact List.pairwise_lt_range

theorem Index.mem_sorted {k : IndexKind} {l : List (Index k)} {i : Index k} :
    i ∈ Index.sorted l ↔ i ∈ l := by
  simp [Index.sorted, Std.TreeSet.mem_toList, Std.TreeSet.mem_ofList]

/-- Sorting indices without repetition leaves them strictly ascending. -/
theorem Index.sorted_pairwise {k : IndexKind} (l : List (Index k)) :
    (Index.sorted l).Pairwise (· < ·) :=
  Std.TreeSet.ordered_toList.imp Index.compare_eq_lt.1

end TreePattern
