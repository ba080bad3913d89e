import TreePattern.MatchRule
import TreePattern.Sublists

/-!
# One pass over the known sets

A sweep applies every operator to every tuple of the sets that were known when it started and
numbers what is new. The sets it finds lie over the members of the forest and the wildcard,
and there are finitely many of those: `MatchRule.unseen` counts the ones that are not in the
table yet, and a sweep that finds anything makes it smaller (`unseen_sweep_lt`).
-/

namespace TreePattern

/-- The table as a sweep goes on, and how many choices of children it has tried so far. -/
structure Sweep where
  table : MatchSets
  candidates : Nat

namespace MatchRule

/-- Numbers the set at a node `op` over the given children. -/
def visit (rule : MatchRule) (op : Symbol) (s : Sweep) (children : List (List MemberId)) : Sweep :=
  let parents := rule.parents s.table.wildcard op.id children
  ⟨s.table.insert parents.members.toList, s.candidates + parents.tried⟩

/-- Applies `op` to every tuple of the sets `known`, in the order of their numbers. -/
def sweepOperator (rule : MatchRule) (known : Array (List MemberId)) (s : Sweep) (op : Symbol) :
    Sweep :=
  Enumeration.foldl (rule.visit op) s (Choices.power known op.arity)

/-- Applies every operator, by name, to every tuple of the sets in the table. Sets found on
the way are numbered at once but combined only by the next sweep. -/
def sweep (rule : MatchRule) (table : MatchSets) : Sweep :=
  rule.signature.operators.foldl (rule.sweepOperator table.sets.values) ⟨table, 0⟩

-- ---------------------------------------------------------------------------
-- The sets that a sweep can find
-- ---------------------------------------------------------------------------

/-- The members that a set in the table can hold, ascending. -/
def attainable (rule : MatchRule) (wildcard : MemberId) : List MemberId :=
  Index.sorted (wildcard :: rule.forest.members)

/-- The number of sets that are not in the table and could be found. -/
def unseen (rule : MatchRule) (table : MatchSets) : Nat :=
  countSublists (fun s => !table.contains s) (rule.attainable table.wildcard)

/-- Every successor is one of these sets. -/
theorem successor_sublist (rule : MatchRule) (wildcard : MemberId) (op : SymbolId)
    (children : List (List MemberId)) :
    (rule.successor wildcard op children).Sublist (rule.attainable wildcard) := by
  refine sublist_of_ascending (successor_ascending ..) (Index.sorted_pairwise _) fun i hi => ?_
  rw [attainable, Index.mem_sorted, List.mem_cons]
  exact mem_successor hi

-- ---------------------------------------------------------------------------
-- A sweep that finds anything leaves less to find
-- ---------------------------------------------------------------------------

/-- The table `after` keeps all sets of `before`, and what it adds could be found. -/
structure Grows (rule : MatchRule) (before after : MatchSets) : Prop where
  wildcard : after.wildcard = before.wildcard
  keeps : ∀ s, before.contains s → after.contains s
  adds : after = before ∨
    ∃ s : List MemberId, s.Sublist (rule.attainable before.wildcard) ∧ after.contains s ∧
      ¬ before.contains s

theorem Grows.refl (rule : MatchRule) (table : MatchSets) : rule.Grows table table :=
  ⟨rfl, fun _ h => h, Or.inl rfl⟩

/-- Inserting a further set that can be found keeps this up. -/
theorem Grows.insert {rule : MatchRule} {before after : MatchSets} (h : rule.Grows before after)
    {s : List MemberId} (hs : s.Sublist (rule.attainable before.wildcard)) :
    rule.Grows before (after.insert s) := by
  -- adding a set takes no set away
  have hkeep : ∀ r, after.contains r → (after.insert s).contains r := fun r hr => by
    rw [MatchSets.contains, MatchSets.insert, Numbering.contains_iff, Numbering.toList_insert]
    rw [MatchSets.contains, Numbering.contains_iff] at hr
    split
    · exact hr
    · exact List.mem_append_left _ hr
  refine ⟨h.wildcard, fun r hr => hkeep r (h.keeps r hr), ?_⟩
  by_cases hknown : after.contains s
  · -- nothing is added now, so the sets added before are the ones that count
    have heq : after.insert s = after := MatchSets.insert_of_contains hknown
    rw [heq]
    exact h.adds
  · have hnew : ¬ before.contains s := fun hb => hknown (h.keeps s hb)
    exact Or.inr ⟨s, hs, MatchSets.contains_insert_self after s, hnew⟩

/-- A sweep inserts nothing but such sets. -/
theorem grows_sweep (rule : MatchRule) (table : MatchSets) :
    rule.Grows table (rule.sweep table).table := by
  refine List.foldlRecOn (motive := fun s : Sweep => rule.Grows table s.table) _ _
    (Grows.refl rule table) fun s hs op _ => ?_
  refine Enumeration.foldl_induction (motive := fun s : Sweep => rule.Grows table s.table) _ _ _
    hs fun s hs children _ => ?_
  -- the successor is over the wildcard of the table, which no insertion has changed
  refine hs.insert ?_
  rw [← hs.wildcard]
  exact rule.successor_sublist s.table.wildcard op.id children

/-- A sweep after which the table is larger leaves fewer sets to be found. -/
theorem unseen_sweep_lt (rule : MatchRule) (table : MatchSets)
    (h : (rule.sweep table).table.size - table.size ≠ 0) :
    rule.unseen (rule.sweep table).table < rule.unseen table := by
  obtain ⟨hw, hkeep, heq | ⟨s, hs, hafter, hbefore⟩⟩ := rule.grows_sweep table
  -- a table that is the same has not grown
  · rw [heq, Nat.sub_self] at h
    exact absurd rfl h
  · rw [unseen, unseen, hw]
    -- the set that was added is counted before the sweep and no longer after it
    refine countSublists_lt (fun r hr => ?_) hs ?_ ?_
    · rw [Bool.not_eq_true'] at hr ⊢
      exact Bool.eq_false_iff.2 fun hb => Bool.eq_false_iff.1 hr (hkeep r hb)
    · rw [Bool.not_eq_true']
      exact Bool.eq_false_iff.2 hbefore
    · rw [hafter]
      decide

end MatchRule

end TreePattern
