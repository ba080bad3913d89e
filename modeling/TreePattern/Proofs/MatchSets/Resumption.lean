import TreePattern.Proofs.BuiltFrom
import TreePattern.Proofs.MatchSets.Limits

/-!
# Searches that are cut short and resumed

A search that runs out of passes has made the first of the passes that it would have made
without a limit, and it leaves its table as it was then. Resumed on that table, it makes the
passes that are left, so it ends where it would have ended at once. A limit therefore decides
when sets are found, but not which, nor how they are numbered.

## Results

* `MatchRule.closeWithin_some_of_lt`     — what a search has done when its passes run out.
* `MatchRule.closeWithin_none_afterPasses` — what is left for it to do.
* `MatchRule.table_close_closeInTurn`    — searches in a row end in the same table.
* `MatchRule.limits_only_cut`            — all of it, for the limits of `close`.
-/

namespace TreePattern

namespace MatchRule

variable {rule : MatchRule} {table : MatchSets}

-- ---------------------------------------------------------------------------
-- One search in two parts
-- ---------------------------------------------------------------------------

/-- A search without a limit makes a pass in any case, and no more if it finds nothing. -/
theorem length_passes_of_added_eq_zero (h : (rule.passOver table).added = 0) :
    (rule.closeWithin none table).passes.length = 1 := by
  rw [closeWithin_of_added_eq_zero (by simp) h]
  rfl

/-- When the passes run out, the first passes of the whole search have been made. -/
theorem closeWithin_some_of_lt {n : Nat} (h : n < (rule.closeWithin none table).passes.length) :
    rule.closeWithin (some n) table =
      ⟨rule.afterPasses n table, (rule.closeWithin none table).passes.take n, false⟩ := by
  induction n generalizing table with
  | zero =>
    rw [closeWithin, if_pos rfl]
    rfl
  | succ n ih =>
    by_cases hadded : (rule.passOver table).added = 0
    · rw [length_passes_of_added_eq_zero hadded] at h
      omega
    · rw [closeWithin_of_added_ne_zero (by simp) hadded] at h ⊢
      rw [closeWithin_of_added_ne_zero (by simp) hadded]
      -- the first pass is not the last one, so both searches make it and go on from the same table
      have hrest := ih (Nat.lt_of_succ_lt_succ h)
      simp only [Option.map_some, Option.map_none, Nat.add_sub_cancel, hrest]
      rfl

/-- The passes that were not made are left for a search that goes on from there. -/
theorem closeWithin_none_afterPasses {n : Nat}
    (h : n < (rule.closeWithin none table).passes.length) :
    rule.closeWithin none (rule.afterPasses n table) =
      { rule.closeWithin none table with
        passes := (rule.closeWithin none table).passes.drop n } := by
  induction n generalizing table with
  | zero => rfl
  | succ n ih =>
    by_cases hadded : (rule.passOver table).added = 0
    · rw [length_passes_of_added_eq_zero hadded] at h
      omega
    · rw [closeWithin_of_added_ne_zero (by simp) hadded] at h ⊢
      exact ih (Nat.lt_of_succ_lt_succ h)

/-- However a search ended, one that goes on from its table without a limit ends as if the first
had had none. -/
theorem table_closeWithin_resumed (rule : MatchRule) (budget : Option Nat) (table : MatchSets) :
    (rule.closeWithin none (rule.closeWithin budget table).table).table =
      (rule.closeWithin none table).table := by
  cases hend : (rule.closeWithin budget table).complete with
  | true =>
    -- the table is closed, so going on finds nothing
    have hclosed := closed_of_complete hend
    rw [(closeWithin_of_closed hclosed (by simp)).1, closeWithin_eq_of_complete hend]
  | false =>
    -- the budget was cut short, and what is left to do is the rest of the search without one
    obtain ⟨n, rfl⟩ : ∃ n, budget = some n := ⟨_, length_passes_of_not_complete hend⟩
    have hlt : n < (rule.closeWithin none table).passes.length := by
      refine Nat.lt_of_not_le fun hle => ?_
      rw [(complete_closeWithin_iff rule n table).2 hle] at hend
      exact absurd hend (by simp)
    rw [closeWithin_some_of_lt hlt, closeWithin_none_afterPasses hlt]

-- ---------------------------------------------------------------------------
-- Searches in a row
-- ---------------------------------------------------------------------------

/-- Passes keep the numbers of the sets that are there. -/
theorem prefix_afterPasses (rule : MatchRule) (n : Nat) (table : MatchSets) :
    table.toList <+: (rule.afterPasses n table).toList := by
  induction n with
  | zero => exact List.prefix_refl _
  | succ n ih =>
    rw [afterPasses_succ', sweep_table]
    exact ih.trans (MatchSets.prefix_foldl_insert ..)

/-- The table after searches with the given limits, each made on the table that the one before
it left, whether that had come to its end or not. -/
def closeInTurn (rule : MatchRule) (limits : List Nat) (table : MatchSets) : MatchSets :=
  limits.foldl (fun table limit => (rule.close limit table).table) table

/-- Searches in a row make a number of passes altogether. -/
theorem exists_closeInTurn_eq (rule : MatchRule) (limits : List Nat) (table : MatchSets) :
    ∃ n, rule.closeInTurn limits table = rule.afterPasses n table := by
  induction limits generalizing table with
  | nil => exact ⟨0, rfl⟩
  | cons limit limits ih =>
    obtain ⟨n, hn⟩ := ih (rule.close limit table).table
    refine ⟨(rule.close limit table).passes.length + n, ?_⟩
    rw [afterPasses_add, close, ← closeWithin_table]
    exact hn

/-- However often a search is cut short, going on without a limit leads to the same table. -/
theorem table_close_closeInTurn (rule : MatchRule) (limits : List Nat) (table : MatchSets) :
    (rule.close 0 (rule.closeInTurn limits table)).table = (rule.close 0 table).table := by
  induction limits generalizing table with
  | nil => rfl
  | cons limit limits ih =>
    have hrest := ih (rule.close limit table).table
    rw [closeInTurn] at hrest ⊢
    rw [List.foldl_cons, hrest]
    exact table_closeWithin_resumed rule _ table

/-- Let `P` be the number of passes that closing a table takes without a limit. A limit of at least
`P` makes no difference at all. With a smaller one the search fails for that reason; it keeps the
sets of the table under their numbers and leaves what so many passes find, and a search without
a limit that goes on from there takes the remaining passes and ends in the same table, number for
number. So do searches with any limits in a row, if the last one has none. -/
theorem limits_only_cut (rule : MatchRule) (table : MatchSets) :
    let unlimited := rule.close 0 table
    let P := unlimited.stats.passes
    unlimited.error? 0 = none ∧
    (∀ limit, 0 < limit →
      let limited := rule.close limit table
      (limited.error? limit = none ↔ P ≤ limit) ∧
      (P ≤ limit → limited.table = unlimited.table ∧ limited.stats = unlimited.stats) ∧
      (limit < P →
        limited.error? limit = some (.passLimitExceeded limit) ∧
        table.toList <+: limited.table.toList ∧
        limited.table = rule.afterPasses limit table ∧
        let resumed := rule.close 0 limited.table
        resumed.error? 0 = none ∧ resumed.stats.passes = P - limit ∧
          resumed.table = unlimited.table)) ∧
    ∀ limits, (rule.close 0 (rule.closeInTurn limits table)).table = unlimited.table := by
  intro unlimited P
  have hends : ∀ table, (rule.close 0 table).error? 0 = none := fun table =>
    Closure.error?_eq_none_iff.2 (complete_closeWithin_none rule table)
  refine ⟨hends table, ?_, fun limits => table_close_closeInTurn rule limits table⟩
  intro limit hlimit limited
  -- a limit of zero stands for none, so here the budget is the limit itself
  have hbudget : limited = rule.closeWithin (some limit) table := by
    show rule.close limit table = _
    rw [close, if_neg (Nat.ne_of_gt hlimit)]
  have hcomplete : limited.complete = true ↔ P ≤ limit := by
    rw [hbudget]
    exact complete_closeWithin_iff rule limit table
  refine ⟨Closure.error?_eq_none_iff.trans hcomplete, ?_, ?_⟩
  · intro hle
    have hsame : limited = unlimited := by
      rw [hbudget]
      exact closeWithin_eq_of_complete (hbudget ▸ hcomplete.2 hle)
    rw [hsame]
    exact ⟨rfl, rfl⟩
  · intro hlt
    -- what is done when the budget ends
    have hcut : limited = ⟨rule.afterPasses limit table, unlimited.passes.take limit, false⟩ :=
      hbudget.trans (closeWithin_some_of_lt hlt)
    -- what is left
    have hrest : rule.close 0 (rule.afterPasses limit table) =
        { unlimited with passes := unlimited.passes.drop limit } :=
      closeWithin_none_afterPasses hlt
    rw [hcut]
    refine ⟨Closure.error?_eq_some_iff.2 ⟨rfl, rfl⟩, prefix_afterPasses rule limit table, rfl,
      hends _, ?_, ?_⟩
    · rw [hrest]
      exact List.length_drop
    · rw [hrest]

/-- Discovery for the pattern `f(a, *)` takes two passes. One pass is too few, and the search that
goes on from there takes the other. -/
theorem limits_only_cut_for_pair : ∃ rule : MatchRule,
    rule.BuiltFrom [.node "f" [Tree.leaf "a", Tree.wildcard]] ∧
    let table := MatchSets.ofLeaves rule.signature rule.forest
    let limited := rule.close 1 table
    limited.error? 1 = some (.passLimitExceeded 1) ∧ limited.table = rule.afterPasses 1 table ∧
      (rule.close 0 limited.table).stats.passes = 1 ∧
      (rule.close 0 limited.table).table = (rule.discover 0).table := by
  have hcomputed : (ofPatterns [.node "f" [Tree.leaf "a", Tree.wildcard]]).toOption.any
      (fun rule => (rule.discover 0).stats.passes == 2) = true := by
    decide +kernel
  obtain ⟨rule, hrule, hpasses⟩ := exists_builtFrom_of_any hcomputed
  refine ⟨rule, hrule, ?_⟩
  intro table limited
  have hunlimited : (rule.close 0 table).stats.passes = 2 := beq_iff_eq.1 hpasses
  obtain ⟨-, hlimits, -⟩ := limits_only_cut rule table
  rw [hunlimited] at hlimits
  obtain ⟨-, -, hcut⟩ := hlimits 1 (Nat.succ_pos 0)
  obtain ⟨herror, -, htable, -, hrest, hsame⟩ := hcut (Nat.lt_succ_self 1)
  exact ⟨herror, htable, hrest, hsame⟩

end MatchRule

end TreePattern
