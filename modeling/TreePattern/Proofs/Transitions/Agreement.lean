import TreePattern.Transitions
import TreePattern.Proofs.BuiltFrom
import TreePattern.Proofs.MatchSets.Passes
import TreePattern.Proofs.Signature.Symbols
import TreePattern.Proofs.Transitions.OperatorTable

/-!
# Tables agree with the matching rule

Finished tables hold one table for each operator of the signature. A transition through them
leads to the state of the set that the matching rule gives for the children's sets, and it is
undefined only for what is no operator, for a wrong number of children, and for numbers that
are no states. Nothing is asked of the signature, the forest and the projection: they need not
belong together.

## Results

* `Transitions.operator?_of_mem`     — every operator has its table.
* `Transitions.operator?_eq_none_of_forall` — nothing else has one.
* `Transitions.transition?_agrees`   — compressed and direct path give the same state.
-/

namespace TreePattern

namespace Tabulation

/-- If no operator failed, each one has the table that was built for it. -/
theorem built_of_no_failure {rule : MatchRule} {table : MatchSets} {ops : List Symbol}
    (h : (ofOperators rule table ops).failure = none) :
    (ofOperators rule table ops).built.map Prod.fst = ops ∧
      ∀ entry ∈ (ofOperators rule table ops).built,
        OperatorTable.build rule table entry.1 = .ok entry.2 := by
  induction ops with
  | nil => exact ⟨rfl, by simp [ofOperators]⟩
  | cons op ops ih =>
    rw [ofOperators] at h ⊢
    split at h
    · exact absurd h (by simp)
    · next t ht =>
      obtain ⟨hfst, hok⟩ := ih h
      refine ⟨by rw [List.map_cons, hfst], ?_⟩
      intro entry hentry
      rcases List.mem_cons.1 hentry with rfl | hentry
      · exact ht
      · exact hok entry hentry

end Tabulation

namespace Transitions

variable {rule : MatchRule} {table : MatchSets} {tables : Transitions}

-- ---------------------------------------------------------------------------
-- Finding the table of an operator
-- ---------------------------------------------------------------------------

/-- Finished tables hold one table for each operator, under its number. -/
theorem build_eq_ok (h : build rule table = .ok tables) :
    ∃ built : List (Symbol × OperatorTable),
      tables.operators = Std.TreeMap.ofList (built.map fun entry => (entry.1.id, entry.2)) ∧
      built.map Prod.fst = rule.signature.operators ∧
      ∀ entry ∈ built, OperatorTable.build rule table entry.1 = .ok entry.2 := by
  rw [build, Tabulation.result] at h
  split at h
  · exact absurd h (by simp)
  · next hnone =>
    cases h
    exact ⟨_, rfl, Tabulation.built_of_no_failure hnone⟩

/-- Every operator of the signature finds its own table. -/
theorem operator?_of_mem (h : build rule table = .ok tables) {op : Symbol}
    (hop : op ∈ rule.signature.operators) :
    ∃ t, OperatorTable.build rule table op = .ok t ∧ tables.operator? op.id = some t := by
  obtain ⟨built, htables, hfst, hok⟩ := build_eq_ok h
  have hkeys := Signature.pairwise_keys_of_operators hfst
  rw [← hfst] at hop
  obtain ⟨entry, hentry, rfl⟩ := List.mem_map.1 hop
  refine ⟨entry.2, hok entry hentry, ?_⟩
  rw [operator?, htables]
  exact (getElem?_ofList_iff hkeys).2 (List.mem_map.2 ⟨entry, hentry, rfl⟩)

/-- The classes of a child of an operator are those of the table of match sets. -/
theorem slot?_of_mem (h : build rule table = .ok tables) {op : Symbol}
    (hop : op ∈ rule.signature.operators) {k : Nat} (hk : k < op.arity) :
    tables.slot? op.id k = some (OperatorTable.slotClasses rule table op k) := by
  obtain ⟨t, hbuild, ht⟩ := operator?_of_mem h hop
  rw [slot?, ht, Option.bind_some, (OperatorTable.build_eq_ok hbuild).1, List.getElem?_map,
    List.getElem?_range hk]
  rfl

/-- A number that is not an operator's finds no table. -/
theorem operator?_eq_none_of_forall (h : build rule table = .ok tables) {op : SymbolId}
    (hop : ∀ o ∈ rule.signature.operators, o.id ≠ op) : tables.operator? op = none := by
  obtain ⟨built, htables, hfst, -⟩ := build_eq_ok h
  rw [operator?, htables]
  refine Option.eq_none_iff_forall_ne_some.2 fun t ht => ?_
  rw [getElem?_ofList_iff (Signature.pairwise_keys_of_operators hfst)] at ht
  obtain ⟨entry, hentry, heq⟩ := List.mem_map.1 ht
  exact hop entry.1 (hfst ▸ List.mem_map.2 ⟨entry, hentry, rfl⟩) (congrArg Prod.fst heq)

/-- A table that is found was built for its operator. -/
theorem exists_build_of_operator? (h : build rule table = .ok tables) {id : SymbolId}
    {t : OperatorTable} (ht : tables.operator? id = some t) :
    ∃ op ∈ rule.signature.operators, OperatorTable.build rule table op = .ok t := by
  by_cases hop : ∃ op ∈ rule.signature.operators, op.id = id
  · obtain ⟨op, hop, rfl⟩ := hop
    obtain ⟨t', hbuild, ht'⟩ := operator?_of_mem h hop
    obtain rfl : t' = t := Option.some.inj (ht'.symm.trans ht)
    exact ⟨op, hop, hbuild⟩
  · have hnone := operator?_eq_none_of_forall h fun op hmem heq => hop ⟨op, hmem, heq⟩
    exact absurd (hnone.symm.trans ht) (by simp)

-- ---------------------------------------------------------------------------
-- Both ways to the state of a node
-- ---------------------------------------------------------------------------

/-- A transition of an operator over states leads to the state of the rule's set. -/
theorem transition?_eq_idOf?_successor (hw : table.wildcard = rule.forest.wildcard)
    (h : build rule table = .ok tables) {op : Symbol} (hop : op ∈ rule.signature.operators)
    {states : List StateId} {sets : List (List MemberId)}
    (hsets : states.mapM table.get? = some sets) (hlen : states.length = op.arity) :
    ∃ state, tables.transition? op.id states = some state ∧
      table.idOf? (rule.successor table.wildcard op.id sets) = some state := by
  obtain ⟨t, hbuild, ht⟩ := operator?_of_mem h hop
  rw [transition?, ht]
  exact OperatorTable.transition?_eq_idOf?_successor hw hbuild hsets hlen

/-- What has no transition. -/
theorem transition?_eq_none_iff (hw : table.wildcard = rule.forest.wildcard)
    (h : build rule table = .ok tables) {op : SymbolId} {states : List StateId} :
    tables.transition? op states = none ↔
      (∀ o ∈ rule.signature.operators, o.id ≠ op) ∨
      (∃ o ∈ rule.signature.operators, o.id = op ∧ states.length ≠ o.arity) ∨
      ∃ state ∈ states, table.size ≤ state.val := by
  by_cases hop : ∃ o ∈ rule.signature.operators, o.id = op
  · obtain ⟨o, ho, rfl⟩ := hop
    obtain ⟨t, hbuild, ht⟩ := operator?_of_mem h ho
    rw [transition?, ht, Option.bind_some, OperatorTable.transition?_eq_none_iff hw hbuild]
    constructor
    · rintro (hlen | hout)
      · exact Or.inr (Or.inl ⟨o, ho, rfl, hlen⟩)
      · exact Or.inr (Or.inr hout)
    · rintro (hall | ⟨o', ho', hid, hlen⟩ | hout)
      · exact absurd rfl (hall o ho)
      -- a symbol with the same number is the same operator
      · have heq := Signature.eq_of_id_eq (Signature.mem_operators_iff.1 ho').1
          (Signature.mem_operators_iff.1 ho).1 hid
        exact Or.inl (heq ▸ hlen)
      · exact Or.inr hout
  · have hall : ∀ o ∈ rule.signature.operators, o.id ≠ op := fun o ho heq => hop ⟨o, ho, heq⟩
    refine iff_of_true ?_ (Or.inl hall)
    rw [transition?, operator?_eq_none_of_forall h hall, Option.bind_none]

/-- A table of finished transitions gives, for every operator and every tuple of states of its
arity, the state of the set that the matching rule computes from the children's sets. It gives
nothing exactly for what is no operator, a tuple of the wrong length, or a number that is no
state. -/
theorem transition?_agrees (hreached : MatchSets.Reached rule.forest table)
    (h : build rule table = .ok tables) :
    (∀ op ∈ rule.signature.operators, ∀ states : List StateId,
      states.length = op.arity → (∀ state ∈ states, state.val < table.size) →
      ∃ sets state, states.mapM table.get? = some sets ∧
        table.idOf? (rule.successor table.wildcard op.id sets) = some state ∧
        tables.transition? op.id states = some state) ∧
    ∀ (op : SymbolId) (states : List StateId),
      tables.transition? op states = none ↔
        (∀ o ∈ rule.signature.operators, o.id ≠ op) ∨
        (∃ o ∈ rule.signature.operators, o.id = op ∧ states.length ≠ o.arity) ∨
        ∃ state ∈ states, table.size ≤ state.val := by
  refine ⟨?_, ?_⟩
  · intro op hop states hlen hstates
    have hsome : ∀ state ∈ states, (table.get? state).isSome := fun state hs =>
      Option.isSome_iff_exists.2 ⟨_, Array.getElem?_eq_getElem (hstates state hs)⟩
    obtain ⟨sets, hsets⟩ := exists_mapM_eq_some hsome
    obtain ⟨state, htransition, hid⟩ :=
      transition?_eq_idOf?_successor hreached.wildcard_eq h hop hsets hlen
    exact ⟨sets, state, hsets, hid, htransition⟩
  · intro op states
    exact transition?_eq_none_iff hreached.wildcard_eq h

/-- With the pattern `f(a, *)`, the operator leads from the state of the leaf `a` and that of the
wildcard to a further state, on both paths. Over one child, or over a number that is no state, it
leads nowhere. -/
theorem transition?_agrees_of_pair : ∃ (rule : MatchRule) (tables : Transitions),
    rule.BuiltFrom [.node "f" [Tree.leaf "a", Tree.wildcard]] ∧
      build rule (rule.discover 0).table = .ok tables ∧
      ∃ op ∈ rule.signature.operators, op.name = "f" ∧ op.arity = 2 ∧
        (∃ sets, [⟨1⟩, MatchSets.wildcardState].mapM (rule.discover 0).table.get? = some sets ∧
          (rule.discover 0).table.idOf?
            (rule.successor (rule.discover 0).table.wildcard op.id sets) = some ⟨2⟩ ∧
          tables.transition? op.id [⟨1⟩, MatchSets.wildcardState] = some ⟨2⟩) ∧
        tables.transition? op.id [⟨1⟩] = none ∧
        tables.transition? op.id [⟨1⟩, ⟨(rule.discover 0).table.size⟩] = none := by
  have hcomputed : (MatchRule.ofPatterns [.node "f" [Tree.leaf "a", Tree.wildcard]]).toOption.any
      (fun rule =>
        (build rule (rule.discover 0).table).toOption.isSome &&
        decide (⟨⟨1⟩, "f", 2⟩ ∈ rule.signature.operators) &&
        decide ((rule.discover 0).table.size = 3) &&
        ([⟨1⟩, MatchSets.wildcardState].mapM (rule.discover 0).table.get?).any fun sets =>
          decide ((rule.discover 0).table.idOf?
            (rule.successor (rule.discover 0).table.wildcard ⟨1⟩ sets) = some ⟨2⟩)) = true := by
    decide +kernel
  obtain ⟨rule, hrule, hcomputed⟩ := MatchRule.exists_builtFrom_of_any hcomputed
  simp only [Bool.and_eq_true, decide_eq_true_eq] at hcomputed
  obtain ⟨⟨⟨hbuilds, hop⟩, hsize⟩, hsets⟩ := hcomputed
  obtain ⟨sets, hsets, hdirect⟩ := (Option.any_eq_true ..).1 hsets
  obtain ⟨tables, htables⟩ := exists_eq_ok_of_isSome hbuilds
  have hreached : MatchSets.Reached rule.forest (rule.discover 0).table :=
    .close rule 0 (.ofLeaves rule.signature)
  obtain ⟨hagrees, hnone⟩ := transition?_agrees hreached htables
  obtain ⟨sets', state, hsets', hstate, htransition⟩ := hagrees _ hop
    [⟨1⟩, MatchSets.wildcardState] rfl (by rw [hsize]; decide)
  obtain rfl : sets = sets' := Option.some.inj (hsets.symm.trans hsets')
  obtain rfl : state = ⟨2⟩ := Option.some.inj (hstate.symm.trans (of_decide_eq_true hdirect))
  -- one state too few, and a number that no state has
  refine ⟨rule, tables, hrule, htables, _, hop, rfl, rfl,
    ⟨sets, hsets, hstate, htransition⟩, ?_, ?_⟩
  · exact (hnone _ _).2 (.inr (.inl ⟨_, hop, rfl, by decide⟩))
  · exact (hnone _ _).2 (.inr (.inr ⟨_, List.mem_pair.2 (.inr rfl), Nat.le_refl _⟩))

end Transitions

end TreePattern
