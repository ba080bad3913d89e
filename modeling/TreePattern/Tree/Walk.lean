import TreePattern.Enumeration
import TreePattern.Tree

/-!
# Walking a tree

The nodes of a tree one at a time, each before its children. The walk keeps the subtrees that
it has still to enter, the next one first; what it yields from there is their pre-order.
-/

namespace TreePattern

/-- A walk that has the trees `pending` still to enter. -/
structure Tree.Walk where
  pending : List Tree

namespace Tree

/-- The walk that starts at the root. -/
def walk (t : Tree) : Walk := ⟨[t]⟩

namespace Walk

instance : Enumeration Walk Tree where
  next?
    | ⟨[]⟩ => none
    | ⟨t :: ts⟩ => some (t, ⟨t.children ++ ts⟩)
  remaining w := total (w.pending.map size)
  remaining_lt {w t w'} h := by
    obtain ⟨_ | ⟨⟨s, cs⟩, ts⟩⟩ := w
    · exact absurd h (by simp)
    · cases h
      simp only [children, total, List.map_append, List.sum_append_nat, List.map_cons,
        List.sum_cons, size_node]
      omega

/-- A walk yields the pre-orders of the trees it has still to enter. -/
theorem toList_eq (w : Walk) : Enumeration.toList w = w.pending.flatMap preOrder := by
  obtain ⟨_ | ⟨t, ts⟩⟩ := w
  · exact Enumeration.toList_none rfl
  · have h : Enumeration.next? (Walk.mk (t :: ts)) = some (t, ⟨t.children ++ ts⟩) := rfl
    have := Enumeration.remaining_lt h
    rw [Enumeration.toList_some h, toList_eq ⟨t.children ++ ts⟩, List.flatMap_cons, preOrder_eq t,
      List.cons_append, List.flatMap_append]
termination_by Enumeration.remaining w

end Walk

end Tree

end TreePattern
