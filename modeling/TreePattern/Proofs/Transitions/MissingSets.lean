import TreePattern.Proofs.BuiltFrom
import TreePattern.Proofs.Signature.Vocabulary
import TreePattern.Proofs.Transitions.Totality

/-!
# Sets that are missing from the table

The tables of the transitions are built from tuples of classes, of which there are fewer than
tuples of states, and a state without a class is in none of them. Nothing is overlooked for
that: a class stands for some state, and a tuple with a state that has no class leads to the
wildcard's set, which is always there. So building fails exactly if the successor of some tuple
of states is not in the table of match sets, and it reports such a successor.

## Results

* `OperatorTable.exists_missing_of_build` — a table that is not built misses a successor.
* `Tabulation.exists_of_failure_eq_some` — the operators before the failing one have theirs.
* `Transitions.build_fails_at_first_missing` — which operator and which set a failure names.
-/

namespace TreePattern

namespace MatchRule

/-- All successors under `op` of states in the table are in the table. -/
def ClosedUnder (rule : MatchRule) (table : MatchSets) (op : Symbol) : Prop :=
  ∀ (states : List StateId) (sets : List (List MemberId)), states.length = op.arity →
    states.mapM table.get? = some sets →
      ∃ state, table.idOf? (rule.successor table.wildcard op.id sets) = some state

/-- The set is a successor under `op` of states in the table, and is not in the table itself. -/
def Missing (rule : MatchRule) (table : MatchSets) (op : Symbol) (set : List MemberId) : Prop :=
  (∃ (states : List StateId) (sets : List (List MemberId)), states.length = op.arity ∧
    states.mapM table.get? = some sets ∧ set = rule.successor table.wildcard op.id sets) ∧
  table.idOf? set = none

variable {rule : MatchRule} {table : MatchSets} {op : Symbol} {set : List MemberId}

/-- If every successor has a state, none is missing. -/
theorem ClosedUnder.not_missing (h : rule.ClosedUnder table op) : ¬ rule.Missing table op set := by
  rintro ⟨⟨states, sets, hlen, hsets, rfl⟩, hnone⟩
  obtain ⟨state, hstate⟩ := h states sets hlen hsets
  rw [hnone] at hstate
  exact absurd hstate (by simp)

/-- Sets in the table are those of some states. -/
theorem exists_states {sets : List (List MemberId)} (h : ∀ s ∈ sets, s ∈ table.toList) :
    ∃ states : List StateId, states.length = sets.length ∧
      states.mapM table.get? = some sets := by
  have hnumbered : ∀ s ∈ sets, (table.idOf? s).isSome := fun s hs =>
    Numbering.contains_iff.2 (h s hs)
  obtain ⟨states, hstates⟩ := exists_mapM_eq_some hnumbered
  have hsets := mapM_eq_some_iff.1 hstates
  refine ⟨states, hsets.length_eq.symm, mapM_eq_some_iff.2 (hsets.imp ?_).flip⟩
  intro s state hs
  exact Numbering.idOf?_eq_some_iff.1 hs

/-- The sets of states are in the table. -/
theorem forall_mem_of_states {states : List StateId} {sets : List (List MemberId)}
    (h : states.mapM table.get? = some sets) : ∀ s ∈ sets, s ∈ table.toList := by
  intro s hs
  obtain ⟨state, -, hstate⟩ := exists_of_mem_right (mapM_eq_some_iff.1 h) hs
  exact Numbering.mem_toList_iff.2 ⟨state, hstate⟩

end MatchRule

-- ---------------------------------------------------------------------------
-- One operator
-- ---------------------------------------------------------------------------

namespace OperatorTable

variable {rule : MatchRule} {table : MatchSets} {op : Symbol} {t : OperatorTable}

/-- Where no target is found, the set that belongs there is not in the table. -/
theorem findTarget_eq_error {traces : List (Array MemberId)} {e : BuildError}
    (h : findTarget rule table op traces = .error e) :
    let set := (rule.forest.addParents op.id traces {rule.forest.wildcard}).members.toList
    e = .lookupMiss op.name set ∧ table.idOf? set = none := by
  intro set
  unfold findTarget at h
  dsimp only at h
  split at h
  · exact absurd h (by simp)
  · next hnone =>
    cases h
    exact ⟨rfl, hnone⟩

/-- An operator whose table is finished has no missing successor. -/
theorem closedUnder_of_build (hw : table.wildcard = rule.forest.wildcard)
    (h : build rule table op = .ok t) : rule.ClosedUnder table op := by
  intro states sets hlen hsets
  obtain ⟨state, -, hstate⟩ := transition?_eq_idOf?_successor hw h hsets hlen
  exact ⟨state, hstate⟩

/-- A failure names a missing successor: the traces for which no target was found are the
relevant parts of sets in the table. -/
theorem exists_missing_of_build (hw : table.wildcard = rule.forest.wildcard) {e : BuildError}
    (h : build rule table op = .error e) :
    ∃ set, e = .lookupMiss op.name set ∧ rule.Missing table op set := by
  unfold build at h
  rcases bind_eq_error_iff.1 h with htargets | ⟨targets, -, h⟩
  swap
  · exact absurd h (by simp [pure, Except.pure])
  obtain ⟨traces, htraces, hfailed⟩ := exists_of_mapM_eq_error htargets
  rw [traceTuples, Choices.toList_ofSlots] at htraces
  have hmem := Choices.mem_nestedLoops.1 htraces
  rw [List.range_eq_range'] at hmem
  -- each trace is the part of some set of the table, so the tuple comes from states
  obtain ⟨sets, hlen, hsets, rfl⟩ := exists_sets_of_traces hmem
  simp only [Nat.zero_add] at hfailed
  obtain ⟨rfl, hnone⟩ := findTarget_eq_error hfailed
  obtain ⟨states, hlength, hstates⟩ := MatchRule.exists_states hsets
  rw [← hw] at hnone ⊢
  exact ⟨_, rfl, ⟨states, sets, hlength.trans hlen, hstates, rfl⟩, hnone⟩

end OperatorTable

-- ---------------------------------------------------------------------------
-- All operators
-- ---------------------------------------------------------------------------

/-- Building stops at the first operator that has no table. -/
theorem Tabulation.exists_of_failure_eq_some {rule : MatchRule} {table : MatchSets}
    {ops : List Symbol} {e : BuildError} (h : (ofOperators rule table ops).failure = some e) :
    ∃ before op after, ops = before ++ op :: after ∧
      (∀ o ∈ before, ∃ t, OperatorTable.build rule table o = .ok t) ∧
      OperatorTable.build rule table op = .error e := by
  induction ops with
  | nil => exact absurd h (by simp [ofOperators])
  | cons op ops ih =>
    rw [ofOperators] at h
    split at h
    -- the first operator fails, or it has a table and the failure is among the others
    · next e' he =>
      cases h
      exact ⟨[], op, ops, rfl, by simp, he⟩
    · next t ht =>
      obtain ⟨before, o, after, rfl, hbefore, ho⟩ := ih h
      refine ⟨op :: before, o, after, rfl, ?_, ho⟩
      intro o' ho'
      rcases List.mem_cons.1 ho' with rfl | ho'
      · exact ⟨t, ht⟩
      · exact hbefore o' ho'

/-- Operators are listed by name. -/
theorem Signature.pairwise_name_operators (sig : Signature) :
    sig.operators.Pairwise fun s t => s.name < t.name :=
  (List.pairwise_map.1 sig.pairwise_name_byName).filter _

namespace Transitions

variable {rule : MatchRule} {table : MatchSets}

/-- A build that fails names the first operator with a missing successor, and one such successor. -/
theorem exists_first_missing (hw : table.wildcard = rule.forest.wildcard) {e : BuildError}
    (h : build rule table = .error e) :
    ∃ op ∈ rule.signature.operators, ∃ set, e = .lookupMiss op.name set ∧
      rule.Missing table op set ∧
      ∀ o ∈ rule.signature.operators, o.name < op.name → rule.ClosedUnder table o := by
  have hfailure : (Tabulation.run rule table).failure = some e := by
    rw [build, Tabulation.result] at h
    split at h
    · next e' he => rw [he, Except.error.inj h]
    · exact absurd h (by simp)
  obtain ⟨before, op, after, hops, hbefore, hop⟩ :=
    Tabulation.exists_of_failure_eq_some hfailure
  obtain ⟨set, rfl, hset⟩ := OperatorTable.exists_missing_of_build hw hop
  refine ⟨op, by simp [hops], set, rfl, hset, ?_⟩
  intro o ho hlt
  have hsorted := rule.signature.pairwise_name_operators
  rw [hops] at ho hsorted
  rcases List.mem_append.1 ho with ho | ho
  · obtain ⟨t, ht⟩ := hbefore o ho
    exact OperatorTable.closedUnder_of_build hw ht
  · -- the operators from the failing one on have no smaller names
    have htail := (List.pairwise_append.1 hsorted).2.1
    rcases List.mem_cons.1 ho with rfl | ho
    · exact absurd hlt (lt_irrefl _)
    · exact absurd hlt (lt_asymm ((List.pairwise_cons.1 htail).1 o ho))

/-- On a table of match sets that was closed any number of times, with whatever limits, building
succeeds exactly if the successors of all tuples of its states, under all operators, are in the
table. Otherwise it names the first operator by name that has a successor which is not, and an
ascending set that is such a successor. -/
theorem build_fails_at_first_missing (hreached : MatchSets.Reached rule.forest table) :
    ((∃ tables, build rule table = .ok tables) ↔
      ∀ op ∈ rule.signature.operators, rule.ClosedUnder table op) ∧
    ∀ e, build rule table = .error e →
      ∃ op ∈ rule.signature.operators, ∃ set, e = .lookupMiss op.name set ∧
        set.Pairwise (· < ·) ∧ rule.Missing table op set ∧
        ∀ o ∈ rule.signature.operators, o.name < op.name → rule.ClosedUnder table o := by
  have hw := hreached.wildcard_eq
  refine ⟨⟨?_, ?_⟩, ?_⟩
  · rintro ⟨tables, htables⟩ op hop
    obtain ⟨t, hbuild, -⟩ := operator?_of_mem htables hop
    exact OperatorTable.closedUnder_of_build hw hbuild
  -- a failure would name a missing set of an operator that has none
  · intro hclosed
    cases h : build rule table with
    | ok tables => exact ⟨tables, rfl⟩
    | error e =>
      obtain ⟨op, hop, set, -, hset, -⟩ := exists_first_missing hw h
      exact absurd hset (hclosed op hop).not_missing
  · intro e he
    obtain ⟨op, hop, set, heq, hset, hfirst⟩ := exists_first_missing hw he
    refine ⟨op, hop, set, heq, ?_, hset, hfirst⟩
    obtain ⟨⟨states, sets, -, -, rfl⟩, -⟩ := hset
    exact MatchRule.successor_ascending ..

/-- For the pattern `f(a, *)`, the set of the whole pattern is missing from the table of the leaf
states; one pass brings it in. -/
theorem build_fails_at_first_missing_for_pair : ∃ rule : MatchRule,
    rule.BuiltFrom [.node "f" [Tree.leaf "a", Tree.wildcard]] ∧
    (let table := MatchSets.ofLeaves rule.signature rule.forest
      ∃ op set, build rule table = .error (.lookupMiss op.name set) ∧
        rule.Missing table op set) ∧
    ∀ op ∈ rule.signature.operators, rule.ClosedUnder (rule.discover 1).table op := by
  have hcomputed : (MatchRule.ofPatterns [.node "f" [Tree.leaf "a", Tree.wildcard]]).toOption.any
      (fun rule => (build rule (MatchSets.ofLeaves rule.signature rule.forest)).toOption.isNone &&
        (build rule (rule.discover 1).table).toOption.isSome) = true := by
    decide +kernel
  obtain ⟨rule, hrule, hbuilds⟩ := MatchRule.exists_builtFrom_of_any hcomputed
  obtain ⟨hfails, hsucceeds⟩ := Bool.and_eq_true_iff.1 hbuilds
  refine ⟨rule, hrule, ?_, ?_⟩
  · intro table
    cases herror : build rule table with
    | ok _ => exact absurd hfails (by simp [table, herror, Except.toOption])
    | error e =>
      obtain ⟨op, -, set, rfl, -, hset, -⟩ :=
        (build_fails_at_first_missing (.ofLeaves rule.signature)).2 e herror
      exact ⟨op, set, rfl, hset⟩
  · have hreached : MatchSets.Reached rule.forest (rule.discover 1).table :=
      .close rule 1 (.ofLeaves rule.signature)
    exact (build_fails_at_first_missing hreached).1.1 (exists_eq_ok_of_isSome hsucceeds)

end Transitions

end TreePattern
