import TreePattern.Index

/-!
# Sublists

A list has finitely many sublists, so those with some property can be counted (`countSublists`),
and if one of them loses it the count goes down (`countSublists_lt`). A set of indices is written as
an ascending list, and among those lists being a sublist is being a subset
(`sublist_of_ascending`).
-/

namespace TreePattern

-- ---------------------------------------------------------------------------
-- Counting sublists
-- ---------------------------------------------------------------------------

/-- The number of sublists of a list for which `p` holds: those without the first element, and those
with it. -/
def countSublists {α : Type} (p : List α → Bool) : List α → Nat
  | [] => if p [] then 1 else 0
  | a :: l => countSublists p l + countSublists (fun s => p (a :: s)) l

/-- A property that fewer sublists have has a smaller count. -/
theorem countSublists_le {α : Type} {p q : List α → Bool} (h : ∀ s, p s → q s) (l : List α) :
    countSublists p l ≤ countSublists q l := by
  induction l generalizing p q with
  | nil =>
    by_cases hp : p []
    · refine Nat.le_of_eq ?_
      rw [countSublists, countSublists, if_pos hp, if_pos (h [] hp)]
    · rw [countSublists, if_neg hp]
      exact Nat.zero_le _
  | cons a l ih => exact Nat.add_le_add (ih h) (ih fun s => h (a :: s))

/-- Fewer sublists have a property if one of them has lost it and none has got it. -/
theorem countSublists_lt {α : Type} {p q : List α → Bool} {s l : List α} (h : ∀ s, p s → q s)
    (hs : s.Sublist l) (hq : q s) (hp : ¬ p s) : countSublists p l < countSublists q l := by
  induction hs generalizing p q with
  | slnil =>
    rw [countSublists, countSublists, if_neg hp, if_pos hq]
    exact Nat.zero_lt_one
  | cons a _ ih => exact Nat.add_lt_add_of_lt_of_le (ih h hq hp) (countSublists_le (fun s => h _) _)
  | cons_cons a _ ih =>
    exact Nat.add_lt_add_of_le_of_lt (countSublists_le h _) (ih (fun s => h (a :: s)) hq hp)

-- ---------------------------------------------------------------------------
-- Ascending lists
-- ---------------------------------------------------------------------------

/-- An ascending list whose elements all occur in another ascending list is a sublist of it. -/
theorem sublist_of_ascending {k : IndexKind} {s l : List (Index k)} (hs : s.Pairwise (· < ·))
    (hl : l.Pairwise (· < ·)) (h : ∀ i ∈ s, i ∈ l) : s.Sublist l := by
  induction l generalizing s with
  | nil => exact List.eq_nil_iff_forall_not_mem.2 (fun i hi => by simpa using h i hi) ▸ .slnil
  | cons a l ih =>
    rw [List.pairwise_cons] at hl
    cases s with
    | nil => exact List.nil_sublist _
    | cons b s =>
      rw [List.pairwise_cons] at hs
      -- `s` is ascending, so only its first element can be `a`
      have hne : ∀ i ∈ s, i ≠ a := fun i hi heq => by
        have hb : b < a := heq ▸ hs.1 i hi
        rcases List.mem_cons.1 (h b List.mem_cons_self) with rfl | hmem
        · exact Nat.lt_irrefl _ hb
        · exact Nat.lt_asymm hb (hl.1 b hmem)
      have hrest : ∀ i ∈ s, i ∈ l := fun i hi =>
        (List.mem_cons.1 (h i (List.mem_cons_of_mem _ hi))).resolve_left (hne i hi)
      rcases List.mem_cons.1 (h b List.mem_cons_self) with rfl | hmem
      -- it is `a`: both lists go on behind it
      · exact (ih hs.2 hl.2 hrest).cons_cons _
      -- it is not, so `a` is left out
      · refine (ih (List.pairwise_cons.2 hs) hl.2 fun i hi => ?_).cons _
        rcases List.mem_cons.1 hi with rfl | hi
        · exact hmem
        · exact hrest i hi

/-- An ascending list is determined by its elements. -/
theorem eq_of_ascending {k : IndexKind} {s l : List (Index k)} (hs : s.Pairwise (· < ·))
    (hl : l.Pairwise (· < ·)) (h : ∀ i, i ∈ s ↔ i ∈ l) : s = l :=
  (sublist_of_ascending hs hl fun i => (h i).1).eq_of_length_le
    (sublist_of_ascending hl hs fun i => (h i).2).length_le

end TreePattern
