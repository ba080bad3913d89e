/-!
# Finite enumerations

An enumeration is a state that yields its elements one at a time. Each step brings it nearer
to its end, so the elements still to come are a finite list, `Enumeration.toList`, and all
else that an enumeration can do is told through that list.
-/

namespace TreePattern

/-- States of type `σ` that yield finitely many elements of type `α`. -/
class Enumeration (σ : Type) (α : outParam Type) where
  /-- The next element and the state after it; `none` once the elements are used up. -/
  next? : σ → Option (α × σ)
  /-- A bound on the number of steps left. -/
  remaining : σ → Nat
  remaining_lt : ∀ {s : σ} {a : α} {s' : σ}, next? s = some (a, s') → remaining s' < remaining s

namespace Enumeration

variable {σ α β : Type} [Enumeration σ α]

/-- Folds `f` over the elements still to come, first element first. -/
@[specialize]
def foldl (f : β → α → β) (b : β) (s : σ) : β :=
  match _h : next? s with
  | none => b
  | some (a, s') => foldl f (f b a) s'
termination_by remaining s
decreasing_by exact remaining_lt _h

/-- Folds a step that may fail over the elements still to come, first element first. -/
@[specialize]
def foldlM {m : Type → Type} [Monad m] (f : β → α → m β) (b : β) (s : σ) : m β :=
  match _h : next? s with
  | none => pure b
  | some (a, s') => f b a >>= fun b => foldlM f b s'
termination_by remaining s
decreasing_by exact remaining_lt _h

/-- The elements still to come. -/
def toList (s : σ) : List α := (foldl Array.push #[] s).toList

/-- The number of elements still to come. -/
def count (s : σ) : Nat := foldl (fun n _ => n + 1) 0 s

/-- The state in which every element has been yielded. -/
def finish (s : σ) : σ :=
  match _h : next? s with
  | none => s
  | some (_, s') => finish s'
termination_by remaining s
decreasing_by exact remaining_lt _h

/-- Yields the next elements, at most `n`, and the state after them. -/
def take : Nat → σ → List α × σ
  | 0, s => ([], s)
  | n + 1, s =>
    match next? s with
    | none => ([], s)
    | some (a, s') =>
      let (rest, last) := take n s'
      (a :: rest, last)

-- ---------------------------------------------------------------------------
-- The list of elements
-- ---------------------------------------------------------------------------

theorem foldl_none {s : σ} (f : β → α → β) (b : β) (h : next? s = none) : foldl f b s = b := by
  rw [foldl]; split <;> simp_all

/-- A fold takes the next element first and goes on from what is left. -/
theorem foldl_some {s s' : σ} {a : α} (f : β → α → β) (b : β) (h : next? s = some (a, s')) :
    foldl f b s = foldl f (f b a) s' := by
  rw [foldl]; split <;> simp_all

private theorem toList_foldl_push (s : σ) (out : Array α) :
    (foldl Array.push out s).toList = out.toList ++ toList s := by
  cases h : next? s with
  | none => simp [toList, foldl_none _ _ h]
  | some p =>
    obtain ⟨a, s'⟩ := p
    have := remaining_lt h
    rw [toList, foldl_some _ _ h, foldl_some _ _ h, toList_foldl_push s' (out.push a),
      toList_foldl_push s' (#[].push a)]
    simp
termination_by remaining s

theorem toList_none {s : σ} (h : next? s = none) : toList s = [] := by
  rw [toList, foldl_none _ _ h]

/-- The list begins with the next element and goes on with what is left. -/
theorem toList_some {s s' : σ} {a : α} (h : next? s = some (a, s')) :
    toList s = a :: toList s' := by
  rw [toList, foldl_some _ _ h, toList_foldl_push]
  rfl

/-- Folding over an enumeration is folding over its list. -/
theorem foldl_eq_foldl_toList (f : β → α → β) (b : β) (s : σ) :
    foldl f b s = (toList s).foldl f b := by
  cases h : next? s with
  | none => rw [foldl_none f b h, toList_none h, List.foldl_nil]
  | some p =>
    obtain ⟨a, s'⟩ := p
    have := remaining_lt h
    rw [foldl_some f b h, toList_some h, List.foldl_cons, foldl_eq_foldl_toList f (f b a) s']
termination_by remaining s

/-- So is folding a step that may fail. -/
theorem foldlM_eq_foldlM_toList {m : Type → Type} [Monad m] (f : β → α → m β) (b : β) (s : σ) :
    foldlM f b s = (toList s).foldlM f b := by
  rw [foldlM]
  split
  · next h => rw [toList_none h, List.foldlM_nil]
  · next a s' h =>
    have := remaining_lt h
    rw [toList_some h, List.foldlM_cons]
    exact bind_congr fun b => foldlM_eq_foldlM_toList f b s'
termination_by remaining s

/-- Taking elements one after the other takes them from the front of the list. -/
theorem fst_take (n : Nat) (s : σ) : (take n s).1 = (toList s).take n := by
  induction n generalizing s with
  | zero => rw [take, List.take_zero]
  | succ n ih =>
    rw [take]
    split
    · next h => rw [toList_none h, List.take_nil]
    · next h => rw [toList_some h, List.take_succ_cons, ← ih]

/-- What holds at the start of a fold and is kept by each of its steps holds at its end. -/
theorem foldl_induction {motive : β → Prop} (f : β → α → β) (b : β) (s : σ) (hb : motive b)
    (hf : ∀ b, motive b → ∀ a ∈ toList s, motive (f b a)) : motive (foldl f b s) := by
  rw [foldl_eq_foldl_toList]
  exact List.foldlRecOn (toList s) f hb hf

/-- Counting the elements counts the list. -/
theorem count_eq_length (s : σ) : count s = (toList s).length := by
  rw [count, foldl_eq_foldl_toList]
  suffices h : ∀ (l : List α) (n : Nat), l.foldl (fun n _ => n + 1) n = n + l.length by
    rw [h, Nat.zero_add]
  intro l
  induction l with
  | nil => exact fun _ => rfl
  | cons a l ih => intro n; rw [List.foldl_cons, ih, List.length_cons]; omega

end Enumeration

end TreePattern
