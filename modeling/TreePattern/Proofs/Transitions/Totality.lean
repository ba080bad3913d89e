import TreePattern.Proofs.Transitions.Agreement

/-!
# Tables over a closed table of match sets

Building asks the table of match sets for one target for each tuple of classes. Every class
stands for the relevant part of some set in the table, so the target is the successor of a
tuple of these sets. If all successors are in the table, building therefore succeeds.

## Results

* `OperatorTable.exists_build` — an operator whose successors are all known has a table.
* `Transitions.exists_build`   — so there are tables over closed sets.
-/

namespace TreePattern

namespace OperatorTable

variable {rule : MatchRule} {table : MatchSets} {op : Symbol} {t : OperatorTable}

-- ---------------------------------------------------------------------------
-- A tuple of classes stands for a tuple of sets
-- ---------------------------------------------------------------------------

/-- One trace for each slot comes from one set for each slot, of which it is the relevant part. -/
theorem exists_sets_of_traces {start n : Nat} {traces : List (Array MemberId)}
    (h : List.Forall₂ (· ∈ ·) traces (SlotClasses.traceSlots
      ((List.range' start n).map (slotClasses rule table op)))) :
    ∃ sets : List (List MemberId), sets.length = n ∧ (∀ s ∈ sets, s ∈ table.toList) ∧
      traces = sets.mapIdx fun k set =>
        (rule.relevance.restrict op.id (start + k) set).toArray := by
  induction n generalizing start traces with
  | zero => exact ⟨[], rfl, by simp, List.forall₂_nil_right_iff.1 h⟩
  | succ n ih =>
    rw [List.range'_succ, List.map_cons, SlotClasses.traceSlots, List.map_cons] at h
    obtain ⟨first, rest, hfirst, hrest, rfl⟩ := List.forall₂_cons_right_iff.1 h
    obtain ⟨sets, hlen, hsets, rfl⟩ := ih hrest
    obtain ⟨trace, htrace, rfl⟩ := Array.mem_map.1 hfirst
    -- a trace is stored because a state has it
    have hstate := SlotClasses.mem_of_mem_traces (Array.mem_toList_iff.2 htrace)
    obtain ⟨set, hset, rfl⟩ := List.mem_map.1 hstate
    refine ⟨set :: sets, by rw [List.length_cons, hlen], ?_, ?_⟩
    · intro s hs
      rcases List.mem_cons.1 hs with rfl | hs
      · exact hset
      · exact hsets s hs
    · rw [List.mapIdx_cons]
      simp only [Nat.add_zero, Nat.add_assoc, Nat.add_comm 1]

/-- The target of a choice of traces is the successor of the sets they come from. -/
theorem exists_findTarget (hw : table.wildcard = rule.forest.wildcard)
    {sets : List (List MemberId)}
    (h : rule.successor table.wildcard op.id sets ∈ table.toList) :
    ∃ state, findTarget rule table op (rule.traces op.id sets) = .ok state := by
  obtain ⟨state, hstate⟩ := Numbering.mem_toList_iff.1 h
  have hid : table.idOf? (rule.successor table.wildcard op.id sets) = some state :=
    Numbering.idOf?_eq_some_iff.2 hstate
  rw [hw] at hid
  refine ⟨state, ?_⟩
  unfold findTarget
  rw [MatchRule.successor, MatchRule.parents] at hid
  simp only [hid]

/-- Once every successor has a state, the table of an operator can be finished. -/
theorem exists_build (hw : table.wildcard = rule.forest.wildcard)
    (h : ∀ sets : List (List MemberId), sets.length = op.arity →
      (∀ s ∈ sets, s ∈ table.toList) → rule.successor table.wildcard op.id sets ∈ table.toList) :
    ∃ t, build rule table op = .ok t := by
  have htargets : ∀ traces ∈ traceTuples ((List.range op.arity).map (slotClasses rule table op)),
      ∃ state, findTarget rule table op traces = .ok state := by
    intro traces htraces
    rw [traceTuples, Choices.toList_ofSlots] at htraces
    have hmem := Choices.mem_nestedLoops.1 htraces
    rw [List.range_eq_range'] at hmem
    -- a tuple of traces is that of some sets, and the successor of these has a state
    obtain ⟨sets, hlen, hsets, rfl⟩ := exists_sets_of_traces hmem
    simp only [Nat.zero_add]
    exact exists_findTarget hw (h sets hlen hsets)
  obtain ⟨targets, htargets⟩ := exists_mapM_eq_ok htargets
  exact ⟨_, bind_eq_ok_iff.2 ⟨targets, htargets, rfl⟩⟩

end OperatorTable

-- ---------------------------------------------------------------------------
-- The tables of all operators
-- ---------------------------------------------------------------------------

namespace MatchRule

/-- In a closed table every successor is known. -/
theorem Closed.successor_mem {rule : MatchRule} {table : MatchSets} (h : rule.Closed table)
    {op : Symbol} (hop : op ∈ rule.signature.operators) {sets : List (List MemberId)}
    (hlen : sets.length = op.arity) (hsets : ∀ s ∈ sets, s ∈ table.toList) :
    rule.successor table.wildcard op.id sets ∈ table.toList := by
  have hswept : rule.successor table.wildcard op.id sets ∈ (rule.sweep table).table.toList :=
    mem_sweep_iff.2 (Or.inr ⟨op, hop, sets, hlen, hsets, rfl⟩)
  rwa [show (rule.sweep table).table = table from h] at hswept

end MatchRule

/-- If every operator has a table, the tabulation does not fail. -/
theorem Tabulation.failure_eq_none {rule : MatchRule} {table : MatchSets} {ops : List Symbol}
    (h : ∀ op ∈ ops, ∃ t, OperatorTable.build rule table op = .ok t) :
    (ofOperators rule table ops).failure = none := by
  induction ops with
  | nil => rfl
  | cons op ops ih =>
    obtain ⟨t, ht⟩ := h op List.mem_cons_self
    rw [ofOperators, ht]
    exact ih fun o ho => h o (List.mem_cons_of_mem _ ho)

/-- Over a table of match sets that is closed, the transition tables can be finished. -/
theorem Transitions.exists_build {rule : MatchRule} {table : MatchSets}
    (hw : table.wildcard = rule.forest.wildcard) (h : rule.Closed table) :
    ∃ tables, build rule table = .ok tables := by
  have hnone : (Tabulation.run rule table).failure = none := by
    refine Tabulation.failure_eq_none ?_
    intro op hop
    exact OperatorTable.exists_build hw fun sets hlen hsets => h.successor_mem hop hlen hsets
  rw [build, Tabulation.result, hnone]
  exact ⟨_, rfl⟩

end TreePattern
