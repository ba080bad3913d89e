import TreePattern.Proofs.Numbering
import Mathlib.Data.List.Forall2

/-!
# Lists without later repetitions

`List.eraseDups` keeps the first appearance of every value, and so does the numbering of a list.
Values that stand side by side in two lists still do so after that, and more values at the end
of a list change nothing before them.

## Results

* `pairwise_idxOf_eraseDups`        — what is kept stands in the order of its first appearance.
* `forall₂_eraseDups`               — values side by side stay side by side.
* `Numbering.toList_ofList`         — the numbering of a list drops later repetitions.
* `Numbering.ofList_eraseDups`      — a numbering depends only on first appearances.
-/

namespace TreePattern

-- ---------------------------------------------------------------------------
-- Lists
-- ---------------------------------------------------------------------------

section Lists

/-- A value at the end is kept only if it has not come before. -/
theorem eraseDups_concat {α : Type} [BEq α] [LawfulBEq α] (l : List α) (a : α) :
    (l ++ [a]).eraseDups = if a ∈ l then l.eraseDups else l.eraseDups ++ [a] := by
  rw [List.eraseDups_append]
  split
  · next h => simp [List.removeAll, h]
  · next h => simp [List.removeAll, h, List.eraseDups_cons]

variable {α β : Type} [DecidableEq α] [DecidableEq β]

/-- The values stay in the order of their first places. -/
theorem pairwise_idxOf_eraseDups (l : List α) :
    l.eraseDups.Pairwise fun a b => l.idxOf a < l.idxOf b := by
  induction l using List.reverseRecOn with
  | nil => exact .nil
  | append_singleton l c ih =>
    -- a value at the end moves no first place
    have hkept : l.eraseDups.Pairwise fun a b => (l ++ [c]).idxOf a < (l ++ [c]).idxOf b := by
      refine ih.imp_of_mem fun {a b} ha hb hlt => ?_
      rw [List.mem_eraseDups] at ha hb
      rwa [List.idxOf_append_of_mem ha, List.idxOf_append_of_mem hb]
    rw [eraseDups_concat]
    split
    · exact hkept
    · next hc =>
      -- a value that is new has its first place after all others
      refine List.pairwise_append.2 ⟨hkept, List.pairwise_singleton _ _, fun a ha b hb => ?_⟩
      rw [List.mem_eraseDups] at ha
      rw [List.mem_singleton.1 hb, List.idxOf_append_of_mem ha, List.idxOf_append_of_notMem hc]
      exact Nat.lt_of_lt_of_le (List.idxOf_lt_length_iff.2 ha) (Nat.le_add_right _ _)

/-- No value is left twice. -/
theorem nodup_eraseDups (l : List α) : l.eraseDups.Nodup :=
  (pairwise_idxOf_eraseDups l).imp fun hlt heq => absurd (heq ▸ hlt) (Nat.lt_irrefl _)

/-- Where nothing is repeated, nothing goes. -/
theorem eraseDups_of_nodup {l : List α} (h : l.Nodup) : l.eraseDups = l := by
  induction l using List.reverseRecOn with
  | nil => rfl
  | append_singleton l a ih =>
    obtain ⟨hl, -, hdisjoint⟩ := List.nodup_append.1 h
    have ha : a ∉ l := fun ha => hdisjoint a ha a (List.mem_singleton_self a) rfl
    rw [eraseDups_concat, if_neg ha, ih hl]

/-- What follows changes nothing of what is kept of the values before it. -/
theorem eraseDups_prefix (l l' : List α) : l.eraseDups <+: (l ++ l').eraseDups :=
  ⟨_, List.eraseDups_append.symm⟩

/-- Related lists are related without their repetitions, since related values repeat together. -/
theorem forall₂_eraseDups {R : α → β → Prop} {as : List α} {bs : List β} (hR : Relator.BiUnique R)
    (h : List.Forall₂ R as bs) : List.Forall₂ R as.eraseDups bs.eraseDups := by
  -- the last values of both lists are dropped together, so the induction is from the end
  have hreverse : ∀ {as : List α} {bs : List β}, List.Forall₂ R as bs →
      List.Forall₂ R as.reverse.eraseDups bs.reverse.eraseDups := by
    intro as bs h
    induction h with
    | nil => exact .nil
    | @cons a b as bs hab hrest ih =>
      have hmem : a ∈ as.reverse ↔ b ∈ bs.reverse :=
        List.rel_mem hR hab (List.rel_reverse hrest)
      rw [List.reverse_cons, List.reverse_cons, eraseDups_concat, eraseDups_concat]
      by_cases ha : a ∈ as.reverse
      · rw [if_pos ha, if_pos (hmem.1 ha)]
        exact ih
      · rw [if_neg ha, if_neg fun hb => ha (hmem.2 hb)]
        exact List.rel_append ih (.cons hab .nil)
  have := hreverse (List.rel_reverse h)
  rwa [List.reverse_reverse, List.reverse_reverse] at this

end Lists

-- ---------------------------------------------------------------------------
-- Numberings of lists
-- ---------------------------------------------------------------------------

namespace Numbering

variable {k : IndexKind} {α : Type} [Ord α] [Std.TransOrd α] [Std.LawfulEqOrd α] [DecidableEq α]

/-- Repetitions do not change a numbering. -/
theorem ofList_eraseDups (l : List α) :
    (ofList l.eraseDups : Numbering k α) = ofList l := by
  induction l using List.reverseRecOn with
  | nil => rfl
  | append_singleton l a ih =>
    rw [eraseDups_concat, ofList_concat]
    split
    · next ha => rw [ih, insert_of_contains (contains_iff.2 (mem_toList_ofList.2 ha))]
    · rw [ofList_concat, ih]

/-- A numbering lists the values by their first appearance. -/
theorem toList_ofList (l : List α) : (ofList l : Numbering k α).toList = l.eraseDups := by
  rw [← ofList_eraseDups, toList_ofList_of_nodup (nodup_eraseDups l)]

end Numbering

end TreePattern
