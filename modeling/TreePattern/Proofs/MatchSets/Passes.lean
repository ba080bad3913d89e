import TreePattern.MatchSets.Closure
import TreePattern.Proofs.Enumeration.NestedLoops

/-!
# Passes over a table

A pass numbers the successors of all tuples of the sets that were there when it started, and
keeps what was there under its old number. Closing a table is a run of such passes: it ends
after the first that finds nothing, or when the passes run out.

## Results

* `MatchRule.sweep_table`       — a pass inserts the successors of the known tuples.
* `MatchRule.mem_sweep_iff`     — the sets in the table after a pass.
* `MatchRule.closeWithin_table` — closing is a number of passes.
* `MatchRule.closed_of_complete` — a search that came to its end leaves a closed table.
* `MatchRule.closeWithin_eq_of_complete` — a limit that was not reached changes nothing.
-/

namespace TreePattern

-- ---------------------------------------------------------------------------
-- Inserting the sets of a list
-- ---------------------------------------------------------------------------

namespace MatchSets

theorem toList_insert (table : MatchSets) (set : List MemberId) :
    (table.insert set).toList =
      if table.contains set then table.toList else table.toList ++ [set] :=
  Numbering.toList_insert ..

/-- The smallest table holds the set of the wildcard alone. -/
theorem toList_ofWildcard (wildcard : MemberId) : (ofWildcard wildcard).toList = [[wildcard]] := by
  rw [toList, ofWildcard, Numbering.toList_insert, if_neg]
  · rfl
  · rw [Numbering.contains_iff]
    exact List.not_mem_nil

theorem contains_iff {table : MatchSets} {set : List MemberId} :
    table.contains set ↔ set ∈ table.toList :=
  Numbering.contains_iff

/-- Inserting adds one set, whether or not it is there already. -/
theorem mem_insert_iff {table : MatchSets} {set s : List MemberId} :
    s ∈ (table.insert set).toList ↔ s ∈ table.toList ∨ s = set := by
  rw [toList_insert]
  split
  · next h =>
    refine (or_iff_left_of_imp ?_).symm
    rintro rfl
    exact contains_iff.1 h
  · rw [List.mem_append, List.mem_singleton]

/-- So does inserting a list of sets. -/
theorem mem_foldl_insert_iff {table : MatchSets} {sets : List (List MemberId)}
    {s : List MemberId} :
    s ∈ (sets.foldl insert table).toList ↔ s ∈ table.toList ∨ s ∈ sets := by
  induction sets generalizing table with
  | nil => simp
  | cons set sets ih => rw [List.foldl_cons, ih, mem_insert_iff, List.mem_cons, or_assoc]

theorem wildcard_foldl_insert (table : MatchSets) (sets : List (List MemberId)) :
    (sets.foldl insert table).wildcard = table.wildcard := by
  induction sets generalizing table with
  | nil => rfl
  | cons set sets ih => rw [List.foldl_cons, ih]; rfl

/-- Sets that are known already change nothing. -/
theorem foldl_insert_of_subset {table : MatchSets} {sets : List (List MemberId)}
    (h : ∀ s ∈ sets, s ∈ table.toList) : sets.foldl insert table = table := by
  induction sets with
  | nil => rfl
  | cons set sets ih =>
    rw [List.foldl_cons, insert_of_contains (contains_iff.2 (h set List.mem_cons_self))]
    exact ih fun s hs => h s (List.mem_cons_of_mem _ hs)

/-- Sets that are there keep their numbers. -/
theorem prefix_foldl_insert (table : MatchSets) (sets : List (List MemberId)) :
    table.toList <+: (sets.foldl insert table).toList := by
  induction sets generalizing table with
  | nil => exact List.prefix_refl _
  | cons set sets ih =>
    refine List.IsPrefix.trans ?_ (ih (table.insert set))
    rw [toList_insert]
    split
    · exact List.prefix_refl _
    · exact List.prefix_append ..

end MatchSets

namespace MatchRule

-- ---------------------------------------------------------------------------
-- One pass
-- ---------------------------------------------------------------------------

/-- The successors of all tuples of sets in the table, operator by operator. -/
def successors (rule : MatchRule) (table : MatchSets) : List (List MemberId) :=
  rule.signature.operators.flatMap fun op =>
    (Choices.nestedLoops (List.replicate op.arity table.sets.values)).map
      (rule.successor table.wildcard op.id)

/-- The successors are those of any operator over any sets of the table, one for each child. -/
theorem mem_successors_iff {rule : MatchRule} {table : MatchSets} {s : List MemberId} :
    s ∈ rule.successors table ↔
      ∃ op ∈ rule.signature.operators, ∃ sets : List (List MemberId), sets.length = op.arity ∧
        (∀ x ∈ sets, x ∈ table.toList) ∧ s = rule.successor table.wildcard op.id sets := by
  -- the nested loops go through all tuples of sets of the right length
  have hloops : ∀ (n : Nat) (sets : List (List MemberId)),
      sets ∈ Choices.nestedLoops (List.replicate n table.sets.values) ↔
        sets.length = n ∧ ∀ x ∈ sets, x ∈ table.toList := by
    intro n sets
    rw [Choices.mem_nestedLoops]
    induction sets generalizing n with
    | nil => cases n <;> simp [List.replicate_succ]
    | cons x sets ih =>
      cases n with
      | zero => simp
      | succ n =>
        rw [List.replicate_succ, List.forall₂_cons, ih, List.forall_mem_cons,
          List.length_cons, Nat.succ_inj, MatchSets.toList, Numbering.toList, Array.mem_toList_iff]
        exact and_left_comm
  simp only [successors, List.mem_flatMap, List.mem_map, hloops, and_assoc, eq_comm]

/-- The visits of one operator insert its successors in order. -/
private theorem table_foldl_visit {rule : MatchRule} {op : Symbol}
    {choices : List (List (List MemberId))} {s : Sweep} :
    (choices.foldl (rule.visit op) s).table =
      (choices.map (rule.successor s.table.wildcard op.id)).foldl MatchSets.insert s.table := by
  induction choices generalizing s with
  | nil => rfl
  | cons children choices ih =>
    rw [List.foldl_cons, ih, List.map_cons, List.foldl_cons]
    rfl

/-- The operators insert their successors one after the other; none of them sees what another has
inserted. -/
private theorem table_foldl_sweepOperator {rule : MatchRule} {known : Array (List MemberId)}
    {ops : List Symbol} {s : Sweep} :
    (ops.foldl (rule.sweepOperator known) s).table =
      (ops.flatMap fun op => (Choices.nestedLoops (List.replicate op.arity known)).map
        (rule.successor s.table.wildcard op.id)).foldl MatchSets.insert s.table := by
  induction ops generalizing s with
  | nil => rfl
  | cons op ops ih =>
    have hop : (rule.sweepOperator known s op).table =
        ((Choices.nestedLoops (List.replicate op.arity known)).map
          (rule.successor s.table.wildcard op.id)).foldl MatchSets.insert s.table := by
      rw [sweepOperator, Enumeration.foldl_eq_foldl_toList, Choices.power,
        Choices.toList_ofSlots, table_foldl_visit]
    rw [List.foldl_cons, ih, hop, List.flatMap_cons, List.foldl_append,
      MatchSets.wildcard_foldl_insert]

/-- A pass inserts the successors of the tuples known at its start. -/
theorem sweep_table (rule : MatchRule) (table : MatchSets) :
    (rule.sweep table).table = (rule.successors table).foldl MatchSets.insert table :=
  table_foldl_sweepOperator

/-- A sweep does not touch the wildcard. -/
theorem wildcard_sweep (rule : MatchRule) (table : MatchSets) :
    (rule.sweep table).table.wildcard = table.wildcard := by
  rw [sweep_table, MatchSets.wildcard_foldl_insert]

/-- A sweep adds the successors over the sets that were there before it, and nothing else. -/
theorem mem_sweep_iff {rule : MatchRule} {table : MatchSets} {s : List MemberId} :
    s ∈ (rule.sweep table).table.toList ↔ s ∈ table.toList ∨
      ∃ op ∈ rule.signature.operators, ∃ sets : List (List MemberId), sets.length = op.arity ∧
        (∀ x ∈ sets, x ∈ table.toList) ∧ s = rule.successor table.wildcard op.id sets := by
  rw [sweep_table, MatchSets.mem_foldl_insert_iff, mem_successors_iff]

/-- A pass over the table finds nothing new. -/
def Closed (rule : MatchRule) (table : MatchSets) : Prop := (rule.sweep table).table = table

/-- A table that a sweep does not enlarge is closed. -/
theorem closed_of_size_eq {rule : MatchRule} {table : MatchSets}
    (h : (rule.sweep table).table.size - table.size = 0) : rule.Closed table := by
  rw [sweep_table] at h
  rw [Closed, sweep_table]
  refine MatchSets.foldl_insert_of_subset ?_
  intro s hs
  have hkept := MatchSets.prefix_foldl_insert table (rule.successors table)
  have hlen : ((rule.successors table).foldl MatchSets.insert table).toList.length ≤
      table.toList.length := by
    rw [MatchSets.toList, MatchSets.toList, Numbering.length_toList, Numbering.length_toList]
    exact Nat.le_of_sub_eq_zero h
  rw [hkept.eq_of_length_le hlen]
  exact MatchSets.mem_foldl_insert_iff.2 (Or.inr hs)

-- ---------------------------------------------------------------------------
-- Runs of passes
-- ---------------------------------------------------------------------------

/-- The table after `n` passes. -/
def afterPasses (rule : MatchRule) : Nat → MatchSets → MatchSets
  | 0, table => table
  | n + 1, table => rule.afterPasses n (rule.sweep table).table

/-- The last of some passes can be split off. -/
theorem afterPasses_succ' (rule : MatchRule) (n : Nat) (table : MatchSets) :
    rule.afterPasses (n + 1) table = (rule.sweep (rule.afterPasses n table)).table := by
  induction n generalizing table with
  | zero => rfl
  | succ n ih => rw [afterPasses, ih, afterPasses]

theorem wildcard_afterPasses (rule : MatchRule) (n : Nat) (table : MatchSets) :
    (rule.afterPasses n table).wildcard = table.wildcard := by
  induction n with
  | zero => rfl
  | succ n ih => rw [afterPasses_succ', wildcard_sweep, ih]

/-- Passes can be made in two goes. -/
theorem afterPasses_add (rule : MatchRule) (m n : Nat) (table : MatchSets) :
    rule.afterPasses (m + n) table = rule.afterPasses n (rule.afterPasses m table) := by
  induction n with
  | zero => rfl
  | succ n ih => rw [← Nat.add_assoc, afterPasses_succ', ih, afterPasses_succ']

/-- Passes over a closed table change nothing. -/
theorem afterPasses_of_closed {rule : MatchRule} {table : MatchSets} (h : rule.Closed table)
    (n : Nat) : rule.afterPasses n table = table := by
  induction n with
  | zero => rfl
  | succ n ih =>
    rw [afterPasses, show (rule.sweep table).table = table from h]
    exact ih

/-- Closing takes as many passes as it reports. -/
theorem closeWithin_table (rule : MatchRule) (budget : Option Nat) (table : MatchSets) :
    (rule.closeWithin budget table).table =
      rule.afterPasses (rule.closeWithin budget table).passes.length table := by
  fun_induction closeWithin rule budget table with
  | case1 table => rfl
  | case2 budget table hbudget sweep pass hnone => rfl
  | case3 budget table hbudget sweep pass hsome rest ih => exact ih

/-- A search that came to its end leaves a table in which a pass finds nothing. -/
theorem closed_of_complete {rule : MatchRule} {budget : Option Nat} {table : MatchSets}
    (h : (rule.closeWithin budget table).complete = true) :
    rule.Closed (rule.closeWithin budget table).table := by
  fun_induction closeWithin rule budget table with
  | case1 table => exact absurd h (by simp)
  | case2 budget table hbudget sweep pass hnone =>
    have hclosed := closed_of_size_eq hnone
    show rule.Closed (rule.sweep table).table
    rw [show (rule.sweep table).table = table from hclosed]
    exact hclosed
  | case3 budget table hbudget sweep pass hsome rest ih => exact ih h

/-- A search that was stopped has used up its budget. -/
theorem length_passes_of_not_complete {rule : MatchRule} {budget : Option Nat}
    {table : MatchSets} (h : (rule.closeWithin budget table).complete = false) :
    budget = some (rule.closeWithin budget table).passes.length := by
  fun_induction closeWithin rule budget table with
  | case1 table => rfl
  | case2 budget table hbudget sweep pass hnone => exact absurd h (by simp)
  | case3 budget table hbudget sweep pass hsome rest ih =>
    have hrest := ih h
    cases budget with
    | none => exact absurd hrest (by simp)
    | some n =>
      -- this pass was allowed, so the budget was not used up
      have hpos : n ≠ 0 := fun heq => hbudget (by rw [heq])
      have hlen : n - 1 = rest.passes.length := Option.some.inj hrest
      rw [List.length_cons, ← hlen]
      congr 1
      omega

/-- A limit that was not reached changes nothing. -/
theorem closeWithin_eq_of_complete {rule : MatchRule} {budget : Option Nat} {table : MatchSets}
    (h : (rule.closeWithin budget table).complete = true) :
    rule.closeWithin budget table = rule.closeWithin none table := by
  fun_induction closeWithin rule budget table with
  | case1 table => exact absurd h (by simp)
  | case2 budget table hbudget sweep pass hnone =>
    rw [closeWithin, if_neg (by simp), dif_pos hnone]
  | case3 budget table hbudget sweep pass hsome rest ih =>
    rw [closeWithin, if_neg (by simp), dif_neg hsome]
    simp only [rest, ih h, Option.map_none]
    rfl

/-- Without a limit the search comes to its end. -/
theorem complete_closeWithin_none (rule : MatchRule) (table : MatchSets) :
    (rule.closeWithin none table).complete = true := by
  by_contra h
  have := length_passes_of_not_complete (Bool.eq_false_iff.2 h)
  exact absurd this (by simp)

theorem complete_discover (rule : MatchRule) : (rule.discover 0).complete = true :=
  complete_closeWithin_none ..

end MatchRule

namespace Closure

variable {c : Closure} {limit : Nat}

/-- A search has no error just if it has come to its end. -/
theorem error?_eq_none_iff : c.error? limit = none ↔ c.complete = true := by
  unfold error?
  split
  · next hcomplete => exact iff_of_true rfl hcomplete
  · next hstopped => exact iff_of_false (by simp) hstopped

/-- Its only error is the limit. -/
theorem error?_eq_some_iff {e : BuildError} :
    c.error? limit = some e ↔ c.complete = false ∧ e = .passLimitExceeded limit := by
  unfold error?
  split
  · next hcomplete => simp [hcomplete]
  · next hstopped => simp [hstopped, eq_comm]

end Closure

-- ---------------------------------------------------------------------------
-- Tables of a forest
-- ---------------------------------------------------------------------------

/-- A table that starts with the leaf states of the forest and has then been closed any number
of times. The signature of the leaves and the rules and limits of the closings are arbitrary,
so they may belong to other forests. -/
inductive MatchSets.Reached (f : Forest) : MatchSets → Prop
  | ofLeaves (sig : Signature) : Reached f (MatchSets.ofLeaves sig f)
  | close {table : MatchSets} (rule : MatchRule) (maxPasses : Nat) :
      Reached f table → Reached f (rule.close maxPasses table).table

theorem MatchSets.wildcard_ofLeaves (sig : Signature) (f : Forest) :
    (MatchSets.ofLeaves sig f).wildcard = f.wildcard :=
  MatchSets.wildcard_foldl_insert ..

/-- However a table was reached, it is over the wildcard of its forest. -/
theorem MatchSets.Reached.wildcard_eq {f : Forest} {table : MatchSets}
    (h : MatchSets.Reached f table) : table.wildcard = f.wildcard := by
  induction h with
  | ofLeaves sig => exact wildcard_ofLeaves sig f
  | close rule maxPasses _ ih =>
    rw [MatchRule.close, MatchRule.closeWithin_table, MatchRule.wildcard_afterPasses, ih]

end TreePattern
