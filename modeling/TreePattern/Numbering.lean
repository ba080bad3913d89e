import TreePattern.Index

/-!
# Numberings

A `Numbering k α` gives values of `α` the numbers `0, 1, 2, …` in the order in which they are
first inserted, and finds either from the other. Symbol names, forest members, match sets and
the traces of an operator's slot are all kept in one.

## Main statements

* `idOf?_eq_some_iff` — the two directions are inverse to each other.
* `toList_insert`     — inserting appends a new value and leaves a known one where it is.
-/

namespace TreePattern

/-- Distinct values, each with the number it got when it was first inserted. -/
structure Numbering (k : IndexKind) (α : Type) [Ord α] where
  /-- The value of each number. -/
  values : Array α
  /-- The number of each value. -/
  numbers : Std.TreeMap α (Index k)
  getElem?_numbers : ∀ (a : α) (i : Index k), numbers[a]? = some i ↔ values[i.val]? = some a

namespace Numbering

variable {k : IndexKind} {α : Type} [Ord α]

-- ---------------------------------------------------------------------------
-- Reading
-- ---------------------------------------------------------------------------

/-- The values in the order of their numbers. -/
def toList (n : Numbering k α) : List α := n.values.toList

def size (n : Numbering k α) : Nat := n.values.size

/-- The value that has number `i`. -/
def get? (n : Numbering k α) (i : Index k) : Option α := n.values[i.val]?

/-- The number of `a`, if `a` has one. -/
def idOf? (n : Numbering k α) (a : α) : Option (Index k) := n.numbers[a]?

def contains (n : Numbering k α) (a : α) : Bool := (n.idOf? a).isSome

/-- The numbers in use, ascending. -/
def ids (n : Numbering k α) : List (Index k) := Index.range k n.size

/-- Looking a value up and reading its number back are inverse to each other. -/
theorem idOf?_eq_some_iff {n : Numbering k α} {a : α} {i : Index k} :
    n.idOf? a = some i ↔ n.get? i = some a :=
  n.getElem?_numbers a i

theorem get?_eq_getElem?_toList (n : Numbering k α) (i : Index k) :
    n.get? i = n.toList[i.val]? := by
  simp [get?, toList]

theorem length_toList (n : Numbering k α) : n.toList.length = n.size := by
  simp [toList, size]

/-- Every number in use is below the size. -/
theorem val_lt_size_of_get? {n : Numbering k α} {a : α} {i : Index k}
    (h : n.get? i = some a) : i.val < n.size :=
  (Array.getElem?_eq_some_iff.1 h).1

theorem val_lt_size_of_idOf? {n : Numbering k α} {a : α} {i : Index k}
    (h : n.idOf? a = some i) : i.val < n.size :=
  val_lt_size_of_get? (idOf?_eq_some_iff.1 h)

/-- The values in order of number are just those that have a number. -/
theorem mem_toList_iff {n : Numbering k α} {a : α} :
    a ∈ n.toList ↔ ∃ i, n.get? i = some a := by
  simp only [get?_eq_getElem?_toList, List.mem_iff_getElem?]
  exact ⟨fun ⟨i, h⟩ => ⟨⟨i⟩, h⟩, fun ⟨i, h⟩ => ⟨i.val, h⟩⟩

theorem contains_iff {n : Numbering k α} {a : α} : n.contains a ↔ a ∈ n.toList := by
  simp only [contains, Option.isSome_iff_exists, idOf?_eq_some_iff, mem_toList_iff]

theorem idOf?_eq_none_iff {n : Numbering k α} {a : α} : n.idOf? a = none ↔ a ∉ n.toList := by
  rw [← contains_iff, contains]
  simp

/-- No value has two numbers. -/
theorem get?_inj {n : Numbering k α} {a : α} {i j : Index k} (hi : n.get? i = some a)
    (hj : n.get? j = some a) : i = j := by
  rw [← idOf?_eq_some_iff] at hi hj
  exact Option.some.inj (hi.symm.trans hj)

/-- No value has two numbers. -/
theorem nodup_toList (n : Numbering k α) : n.toList.Nodup := by
  rw [List.nodup_iff_pairwise_ne, List.pairwise_iff_getElem]
  intro i j hi hj hlt heq
  have h := get?_inj (n := n) (i := ⟨i⟩) (j := ⟨j⟩) (a := n.toList[i])
    (by rw [get?_eq_getElem?_toList]; exact List.getElem?_eq_getElem hi)
    (by rw [get?_eq_getElem?_toList, heq]; exact List.getElem?_eq_getElem hj)
  have := Index.ext_iff.1 h
  simp only at this
  omega

-- ---------------------------------------------------------------------------
-- Inserting
-- ---------------------------------------------------------------------------

section Insert

variable [Std.TransOrd α]

def empty : Numbering k α where
  values := #[]
  numbers := ∅
  getElem?_numbers := by simp

theorem toList_empty : (empty : Numbering k α).toList = [] := rfl

variable [Std.LawfulEqOrd α]

/-- Pushing a new value to one store and its number to the other leaves the stores inverse to each
other. -/
private theorem getElem?_numbers_push {n : Numbering k α} {a : α} (h : n.idOf? a = none)
    (b : α) (i : Index k) :
    (n.numbers.insert a ⟨n.size⟩)[b]? = some i ↔ (n.values.push a)[i.val]? = some b := by
  -- the old entries all belong to values other than `a`
  have hfresh : ∀ j : Nat, n.values[j]? ≠ some a := fun j hj => by
    have := (n.getElem?_numbers a ⟨j⟩).2 hj
    rw [idOf?, this] at h
    exact absurd h (by simp)
  simp only [Std.TreeMap.getElem?_insert, Array.getElem?_push, Std.LawfulEqCmp.compare_eq_iff_eq]
  by_cases hab : a = b
  · subst hab
    by_cases hi : i.val = n.values.size
    · simp [hi, Index.ext_iff, size]
    · simp [hi, Index.ext_iff, size, hfresh, eq_comm]
  · have hb := n.getElem?_numbers b i
    by_cases hi : i.val = n.values.size
    · simpa [hi, hab] using hb
    · simpa [hi, hab] using hb

/-- Gives `a` the next number, if it has none yet. -/
def insert (n : Numbering k α) (a : α) : Numbering k α :=
  if h : n.idOf? a = none then
    { values := n.values.push a
      numbers := n.numbers.insert a ⟨n.size⟩
      getElem?_numbers := getElem?_numbers_push h }
  else n

/-- Numbers the values of a list in the order of their first appearance. -/
def ofList (l : List α) : Numbering k α := l.foldl insert empty

/-- Inserts `a` and returns its number with the result. -/
def intern (n : Numbering k α) (a : α) : Index k × Numbering k α :=
  ((n.idOf? a).getD ⟨n.size⟩, n.insert a)

/-- A value that is known stays where it is, and a new one comes last. -/
theorem toList_insert (n : Numbering k α) (a : α) :
    (n.insert a).toList = if n.contains a then n.toList else n.toList ++ [a] := by
  rw [insert]
  split
  · next h => simp [toList, contains, h]
  · next h => simp [contains, Option.isSome_iff_ne_none.2 h]

/-- Inserting twice is inserting once. -/
theorem insert_of_contains {n : Numbering k α} {a : α} (h : n.contains a) : n.insert a = n := by
  rw [contains, Option.isSome_iff_ne_none] at h
  rw [insert, dif_neg h]

theorem size_insert_of_idOf?_eq_none {n : Numbering k α} {a : α} (h : n.idOf? a = none) :
    (n.insert a).size = n.size + 1 := by
  rw [← length_toList, ← length_toList, toList_insert, contains, h]
  simp

/-- Numbers that are in use keep their value. -/
theorem get?_insert_of_get? {n : Numbering k α} {a b : α} {i : Index k}
    (h : n.get? i = some b) : (n.insert a).get? i = some b := by
  have hlt := val_lt_size_of_get? h
  rw [get?_eq_getElem?_toList] at h ⊢
  rw [toList_insert]
  split
  · exact h
  · rw [List.getElem?_append_left (by rwa [length_toList])]
    exact h

/-- Inserting a value makes it known, under the number that `intern` returns. -/
theorem idOf?_insert_self (n : Numbering k α) (a : α) :
    (n.insert a).idOf? a = some (n.intern a).1 := by
  rw [idOf?_eq_some_iff, intern]
  cases h : n.idOf? a with
  | some i => exact get?_insert_of_get? (idOf?_eq_some_iff.1 h)
  | none =>
    simp [get?_eq_getElem?_toList, toList_insert, contains, h, ← length_toList]

end Insert

end Numbering

end TreePattern
