import TreePattern.Proofs.MatchSets.Passes

/-!
# How many passes a search takes

A search without a limit takes a certain number of passes, the last of which finds nothing. A
limit is harmless exactly if it allows as many, and a table that is closed after some passes
shows after one more that it is.

## Results

* `MatchRule.close_eq_of_closed`        — closing a closed table changes nothing.
* `MatchRule.complete_closeWithin_iff`  — a budget suffices if it allows all passes.
* `MatchRule.complete_close_iff`        — so does a limit, or none.
* `MatchRule.length_passes_le_of_closed` — passes that close a table bound the search.
-/

namespace TreePattern

namespace MatchRule

variable {rule : MatchRule} {table : MatchSets}

-- ---------------------------------------------------------------------------
-- One pass of a search
-- ---------------------------------------------------------------------------

/-- What a pass over the table reports. -/
def passOver (rule : MatchRule) (table : MatchSets) : Pass :=
  ⟨(rule.sweep table).table.size - table.size, (rule.sweep table).table.size,
    (rule.sweep table).candidates⟩

/-- A pass that finds nothing ends the search. -/
theorem closeWithin_of_added_eq_zero {budget : Option Nat} (hbudget : budget ≠ some 0)
    (h : (rule.passOver table).added = 0) :
    rule.closeWithin budget table = ⟨(rule.sweep table).table, [rule.passOver table], true⟩ := by
  have h : (rule.sweep table).table.size - table.size = 0 := h
  rw [closeWithin, if_neg hbudget, dif_pos h]
  rfl

/-- After a pass that finds something the search goes on with one pass less to spend. -/
theorem closeWithin_of_added_ne_zero {budget : Option Nat} (hbudget : budget ≠ some 0)
    (h : (rule.passOver table).added ≠ 0) :
    rule.closeWithin budget table =
      let rest := rule.closeWithin (budget.map (· - 1)) (rule.sweep table).table
      { rest with passes := rule.passOver table :: rest.passes } := by
  have h : (rule.sweep table).table.size - table.size ≠ 0 := h
  rw [closeWithin, if_neg hbudget, dif_neg h]
  rfl

/-- A pass over a closed table adds nothing and leaves the size as it is. -/
theorem passOver_of_closed (h : rule.Closed table) :
    rule.passOver table = ⟨0, table.size, (rule.sweep table).candidates⟩ := by
  rw [passOver, show (rule.sweep table).table = table from h, Nat.sub_self]

theorem added_eq_zero_of_closed (h : rule.Closed table) : (rule.passOver table).added = 0 := by
  rw [passOver_of_closed h]

/-- Closing a closed table takes one pass and leaves it as it is. -/
theorem closeWithin_eq_of_closed {budget : Option Nat} (h : rule.Closed table)
    (hbudget : budget ≠ some 0) :
    rule.closeWithin budget table = ⟨table, [rule.passOver table], true⟩ := by
  rw [closeWithin_of_added_eq_zero hbudget (added_eq_zero_of_closed h),
    show (rule.sweep table).table = table from h]

/-- If a pass is allowed at all, a search on a closed table comes to its end with that table. -/
theorem closeWithin_of_closed {budget : Option Nat} (h : rule.Closed table)
    (hbudget : budget ≠ some 0) :
    (rule.closeWithin budget table).table = table ∧
      (rule.closeWithin budget table).complete = true := by
  rw [closeWithin_eq_of_closed h hbudget]
  exact ⟨rfl, rfl⟩

/-- No limit stops the search over a closed table. -/
theorem close_eq_of_closed (h : rule.Closed table) (limit : Nat) :
    rule.close limit table = ⟨table, [rule.passOver table], true⟩ := by
  refine closeWithin_eq_of_closed h ?_
  split
  · simp
  · next hlimit => exact fun heq => hlimit (Option.some.inj heq)

-- ---------------------------------------------------------------------------
-- Limits
-- ---------------------------------------------------------------------------

/-- A budget is enough just if it is not smaller than the number of passes without one. -/
theorem complete_closeWithin_iff (rule : MatchRule) (n : Nat) (table : MatchSets) :
    (rule.closeWithin (some n) table).complete = true ↔
      (rule.closeWithin none table).passes.length ≤ n := by
  induction n generalizing table with
  | zero =>
    have hstopped : (rule.closeWithin (some 0) table).complete = false := by
      rw [closeWithin, if_pos rfl]
    rw [hstopped]
    -- a search without a limit makes a pass in any case
    by_cases h : (rule.passOver table).added = 0
    · rw [closeWithin_of_added_eq_zero (by simp) h]
      simp
    · rw [closeWithin_of_added_ne_zero (by simp) h]
      simp
  -- both searches make the same first pass, and then there is one less to be made
  | succ n ih =>
    by_cases h : (rule.passOver table).added = 0
    · rw [closeWithin_of_added_eq_zero (by simp) h, closeWithin_of_added_eq_zero (by simp) h]
      simp
    · rw [closeWithin_of_added_ne_zero (by simp) h, closeWithin_of_added_ne_zero (by simp) h]
      simpa using ih (rule.sweep table).table

/-- A limit lets a search come to its end exactly if it allows all passes that the search takes
without one. -/
theorem complete_close_iff (rule : MatchRule) (limit : Nat) (table : MatchSets) :
    (rule.close limit table).complete = true ↔
      limit = 0 ∨ (rule.close 0 table).passes.length ≤ limit := by
  by_cases hlimit : limit = 0
  · rw [hlimit]
    exact iff_of_true (complete_closeWithin_none rule table) (Or.inl rfl)
  · rw [or_iff_right hlimit, close, if_neg hlimit]
    exact complete_closeWithin_iff rule limit table

/-- A search stops at its limit exactly if it has one, and takes more passes without it. -/
theorem error?_discover_eq (rule : MatchRule) (limit : Nat) :
    (rule.discover limit).error? limit =
      if 0 < limit ∧ limit < (rule.discover 0).stats.passes then some (.passLimitExceeded limit)
      else none := by
  -- with a limit, it is enough or too small; without one, the search ends
  have hcomplete := complete_close_iff rule limit (MatchSets.ofLeaves rule.signature rule.forest)
  split
  · next h =>
    refine Closure.error?_eq_some_iff.2 ⟨Bool.eq_false_iff.2 fun htrue => ?_, rfl⟩
    rcases hcomplete.1 htrue with hzero | hle
    · exact absurd hzero (Nat.ne_of_gt h.1)
    · exact Nat.not_le_of_lt h.2 hle
  · next h =>
    refine Closure.error?_eq_none_iff.2 (hcomplete.2 ?_)
    rcases Nat.eq_zero_or_pos limit with hzero | hpos
    · exact Or.inl hzero
    · exact Or.inr (Nat.le_of_not_lt fun hlt => h ⟨hpos, hlt⟩)

-- ---------------------------------------------------------------------------
-- A bound on the passes
-- ---------------------------------------------------------------------------

/-- If some passes close the table, the search takes at most one more. -/
theorem length_passes_le_of_closed {n : Nat} (h : rule.Closed (rule.afterPasses n table)) :
    (rule.closeWithin none table).passes.length ≤ n + 1 := by
  induction n generalizing table with
  | zero =>
    have h : rule.Closed table := h
    rw [closeWithin_of_added_eq_zero (by simp) (added_eq_zero_of_closed h)]
    exact Nat.le_refl 1
  | succ n ih =>
    by_cases hadded : (rule.passOver table).added = 0
    · rw [closeWithin_of_added_eq_zero (by simp) hadded]
      exact Nat.succ_le_succ (Nat.zero_le _)
    · rw [closeWithin_of_added_ne_zero (by simp) hadded]
      exact Nat.succ_le_succ (ih h)

end MatchRule

end TreePattern
