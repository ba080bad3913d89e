import TreePattern.Proofs.Automaton.Safety
import TreePattern.Proofs.Transitions.MissingSets

/-!
# Classes are exact

A slot puts two states into one class exactly if no node can tell them apart there. States of one
class have the same relevant part, and the rule looks at nothing else. States of different
classes need a node that tells them apart: a member that is relevant in the slot and lies in only
one of the two sets is the child of some parent, and the other children of that parent lie in
sets of the table, because every member matches its own tree. Over states with these sets the
parent matches with the one state in the slot, and does not with the other.

## Results

* `Transitions.class?_eq_iff`              — a class stands for a relevant part.
* `MatchRule.BuiltFrom.exists_set_of_mem`  — every member lies in the set of some state.
* `MatchRule.BuiltFrom.restrict_eq_iff_sameSuccessors` — successors reveal the relevant parts.
* `Automaton.class?_eq_iff_interchangeable` — classes are neither too fine nor too coarse.
-/

namespace TreePattern

-- ---------------------------------------------------------------------------
-- Classes and relevant parts
-- ---------------------------------------------------------------------------

/-- Two states have the same class, or both have none, exactly if they have the same trace. -/
theorem SlotClasses.class?_eq_iff {c : SlotClasses} {p q : StateId} {trace trace' : List MemberId}
    (hp : c.Assigns p trace) (hq : c.Assigns q trace') :
    c.class? p = c.class? q ↔ trace = trace' := by
  rw [class?, class?]
  -- a state without relevant part has no class, and a class has one trace
  cases hp with
  | irrelevant hpclass =>
    cases hq with
    | irrelevant hqclass => rw [hpclass, hqclass]; exact iff_of_true rfl rfl
    | relevant hne hqclass _ => simp [hpclass, hqclass, hne.symm]
  | @relevant _ id hne hpclass hptrace =>
    cases hq with
    | irrelevant hqclass => simp [hpclass, hqclass, hne]
    | @relevant _ id' _ hqclass hqtrace =>
      rw [hpclass, hqclass, Option.join_some, Option.join_some, Option.some.injEq]
      constructor
      · rintro rfl
        exact Option.some.inj (hptrace.symm.trans hqtrace)
      · rintro rfl
        rw [← Numbering.idOf?_eq_some_iff] at hptrace hqtrace
        exact Option.some.inj (hptrace.symm.trans hqtrace)

/-- A relevant member stands in its slot under some parent. -/
theorem Relevance.exists_parent_of_mem_childrenAt {f : Forest} {op : SymbolId} {k : Nat}
    {i : MemberId} (hi : i ∈ childrenAt f op k) :
    ∃ left right j, left.length = k ∧ f.lookup? op (left ++ i :: right) = some j := by
  obtain ⟨j, cs, hj, hcs⟩ := mem_childrenAt_iff.1 hi
  obtain ⟨hlt, rfl⟩ := List.getElem?_eq_some_iff.1 hcs
  refine ⟨cs.take k, cs.drop (k + 1), j, List.length_take_of_le hlt.le, ?_⟩
  rwa [← List.drop_eq_getElem_cons hlt, List.take_append_drop]

/-- Two states of a slot share their class exactly if their sets have the same relevant part. -/
theorem Transitions.class?_eq_iff {rule : MatchRule} {table : MatchSets} {tables : Transitions}
    (h : build rule table = .ok tables) {op : Symbol} (hop : op ∈ rule.signature.operators)
    {k : Nat} (hk : k < op.arity) {p q : StateId} {s s' : List MemberId}
    (hp : table.get? p = some s) (hq : table.get? q = some s') :
    tables.class? op.id k p = tables.class? op.id k q ↔
      rule.relevance.restrict op.id k s = rule.relevance.restrict op.id k s' := by
  rw [class?, class?, slot?_of_mem h hop hk]
  exact SlotClasses.class?_eq_iff (OperatorTable.slotClasses_assigns hp)
    (OperatorTable.slotClasses_assigns hq)

-- ---------------------------------------------------------------------------
-- Replacing the set of one child
-- ---------------------------------------------------------------------------

theorem Tree.matches_self (t : Tree) : Matches t t := by
  induction t with
  | node s ts ih => exact matches_iff.2 (Or.inr ⟨ts, rfl, List.forall₂_same.2 ih⟩)

namespace MatchRule

variable {rule : MatchRule} {patterns : List Tree} {table : MatchSets} {op : Symbol}
  {before after : List (List MemberId)} {s s' : List MemberId}

/-- Only the relevant part of a child's set enters the successor. -/
theorem successor_congr {wildcard : MemberId} {op : SymbolId}
    (h : rule.relevance.restrict op before.length s =
      rule.relevance.restrict op before.length s') :
    rule.successor wildcard op (before ++ s :: after) =
      rule.successor wildcard op (before ++ s' :: after) := by
  have htraces : rule.traces op (before ++ s :: after) =
      rule.traces op (before ++ s' :: after) := by
    simp only [traces, List.mapIdx_append, List.mapIdx_cons, Nat.zero_add, h]
  rw [successor, successor, parents, parents, htraces]

/-- If the successors over both sets are equal, a member that is relevant in the slot and lies
in the one set lies in the other, provided that the other children of its parent lie in the
sets beside it. -/
theorem mem_of_successor_eq
    (h : Relevance.ofForest rule.signature rule.forest = .ok rule.relevance)
    (hop : op ∈ rule.signature.operators) (hlen : before.length + 1 + after.length = op.arity)
    {left right : List MemberId} {i j : MemberId}
    (hj : rule.forest.lookup? op.id (left ++ i :: right) = some j)
    (hleft : List.Forall₂ (· ∈ ·) left before) (hright : List.Forall₂ (· ∈ ·) right after)
    (heq : rule.successor rule.forest.wildcard op.id (before ++ s :: after) =
      rule.successor rule.forest.wildcard op.id (before ++ s' :: after)) (hi : i ∈ s) : i ∈ s' := by
  have hlength : ∀ set : List MemberId, (before ++ set :: after).length = op.arity := by
    intro set
    rw [List.length_append, List.length_cons]
    omega
  have hparent : j ∈ rule.successor rule.forest.wildcard op.id (before ++ s :: after) :=
    (mem_successor_iff_of_projection h hop (hlength s)).2
      (Or.inr ⟨_, hj, List.rel_append hleft (.cons hi hright)⟩)
  rw [heq, mem_successor_iff_of_projection h hop (hlength s')] at hparent
  rcases hparent with rfl | ⟨cs, hcs, hmem⟩
  · -- the wildcard has no children
    obtain ⟨-, hnil⟩ := Forest.lookup?_inj hj rule.forest.idOf?_wildcard
    exact absurd hnil (by simp)
  · obtain ⟨-, rfl⟩ := Forest.lookup?_inj hj hcs
    -- what stands at the place of the changed set is a child in the other one
    have hmem := List.forall₂_drop before.length hmem
    rw [← hleft.length_eq, List.drop_left, hleft.length_eq, List.drop_left] at hmem
    exact (List.forall₂_cons.1 hmem).1

-- ---------------------------------------------------------------------------
-- Every member is matched
-- ---------------------------------------------------------------------------

/-- The tree of a member is ranked. -/
theorem BuiltFrom.ranked_of_idOf? (h : rule.BuiltFrom patterns) {t : Tree} {i : MemberId}
    (hi : rule.forest.idOf? rule.signature t = some i) : Tree.Ranked rule.signature t := by
  intro u hu hne
  obtain ⟨j, hj⟩ := Option.isSome_iff_exists.1
    (Numbering.isSome_idOfTree?_of_mem_preOrder (Option.isSome_iff_exists.2 ⟨i, hi⟩) u hu)
  obtain ⟨op, hop, harity⟩ :=
    Signature.arityOf?_eq_some_iff.1 (fits_of_build h.signature h.forest hj)
  obtain ⟨hname, -⟩ := Signature.find?_eq_some_iff.1 hop
  refine ⟨op, Signature.mem_operators_iff.2 ⟨hname ▸ hop, ?_⟩, hname, harity⟩
  rw [harity]
  exact fun hzero => hne (List.length_eq_zero_iff.1 hzero)

/-- A table that holds the match sets of all ranked trees, and no others. -/
def Exact (rule : MatchRule) (table : MatchSets) : Prop :=
  ∀ set, set ∈ table.toList ↔
    ∃ t, Tree.Ranked rule.signature t ∧ rule.forest.matching rule.signature t = set

theorem Exact.ascending (h : rule.Exact table) {set : List MemberId} (hset : set ∈ table.toList) :
    set.Pairwise (· < ·) := by
  obtain ⟨t, -, rfl⟩ := (h set).1 hset
  exact Forest.pairwise_matching ..

/-- A member matches its own tree, so it lies in a set of the table. -/
theorem BuiltFrom.exists_set_of_mem (h : rule.BuiltFrom patterns) (hexact : rule.Exact table)
    {i : MemberId} (hi : i ∈ rule.forest.members) : ∃ set ∈ table.toList, i ∈ set := by
  obtain ⟨t, ht⟩ := h.exists_tree hi
  exact ⟨_, (hexact _).2 ⟨t, h.ranked_of_idOf? ht, rfl⟩,
    Forest.mem_matching_iff.2 ⟨t, ht, Tree.matches_self t⟩⟩

/-- Members lie side by side in sets of the table. -/
theorem BuiltFrom.exists_sets_of_forall_mem (h : rule.BuiltFrom patterns)
    (hexact : rule.Exact table) {cs : List MemberId} (hcs : ∀ c ∈ cs, c ∈ rule.forest.members) :
    ∃ sets : List (List MemberId), List.Forall₂ (· ∈ ·) cs sets ∧
      ∀ set ∈ sets, set ∈ table.toList := by
  induction cs with
  | nil => exact ⟨[], .nil, by simp⟩
  | cons c cs ih =>
    obtain ⟨set, hset, hc⟩ := h.exists_set_of_mem hexact (hcs c List.mem_cons_self)
    obtain ⟨sets, hmem, hsets⟩ := ih fun c' hc' => hcs c' (List.mem_cons_of_mem _ hc')
    exact ⟨set :: sets, .cons hc hmem, List.forall_mem_cons.2 ⟨hset, hsets⟩⟩

-- ---------------------------------------------------------------------------
-- A node for each relevant member
-- ---------------------------------------------------------------------------

/-- Over all sets of the table in the other slots, the rule gives the same with `s` as with `s'`
in slot `k`. -/
def SameSuccessors (rule : MatchRule) (table : MatchSets) (op : Symbol) (k : Nat)
    (s s' : List MemberId) : Prop :=
  ∀ before after : List (List MemberId), before.length = k →
    before.length + 1 + after.length = op.arity →
    (∀ set ∈ before ++ after, set ∈ table.toList) →
    rule.successor rule.forest.wildcard op.id (before ++ s :: after) =
      rule.successor rule.forest.wildcard op.id (before ++ s' :: after)

theorem SameSuccessors.symm {k : Nat} (h : rule.SameSuccessors table op k s s') :
    rule.SameSuccessors table op k s' s := fun before after hk hlen hsets =>
  (h before after hk hlen hsets).symm

/-- A relevant member that lies in the one set lies in the other, or the parent for which it is
relevant would tell the sets apart. -/
theorem BuiltFrom.mem_of_sameSuccessors (h : rule.BuiltFrom patterns) (hexact : rule.Exact table)
    (hop : op ∈ rule.signature.operators) {k : Nat} (hsame : rule.SameSuccessors table op k s s')
    {i : MemberId} (hrelevant : i ∈ Relevance.childrenAt rule.forest op.id k) (hi : i ∈ s) :
    i ∈ s' := by
  obtain ⟨left, right, j, hk, hj⟩ := Relevance.exists_parent_of_mem_childrenAt hrelevant
  have harity := h.length_eq_arity (Signature.mem_operators_iff.1 hop).1 hj
  have hmembers := h.forall_mem_members hj
  obtain ⟨before, hbefore, hbefore'⟩ := h.exists_sets_of_forall_mem hexact
    fun c hc => hmembers c (List.mem_append_left _ hc)
  obtain ⟨after, hafter, hafter'⟩ := h.exists_sets_of_forall_mem hexact
    fun c hc => hmembers c (List.mem_append_right _ (List.mem_cons_of_mem _ hc))
  have hlen : before.length + 1 + after.length = op.arity := by
    rw [← hbefore.length_eq, ← hafter.length_eq, ← harity, List.length_append, List.length_cons]
    omega
  -- the neighbours are chosen so that they hold the other children of one parent of the member
  refine mem_of_successor_eq h.relevance hop hlen hj hbefore hafter ?_ hi
  refine hsame before after (hbefore.length_eq.symm.trans hk) hlen ?_
  intro set hset
  rcases List.mem_append.1 hset with hset | hset
  · exact hbefore' set hset
  · exact hafter' set hset

/-- Sets of the table are told apart by some node if their relevant parts differ. -/
theorem BuiltFrom.restrict_eq_iff_sameSuccessors (h : rule.BuiltFrom patterns)
    (hexact : rule.Exact table) (hop : op ∈ rule.signature.operators) {k : Nat} (hk : k < op.arity)
    (hs : s ∈ table.toList) (hs' : s' ∈ table.toList) :
    rule.relevance.restrict op.id k s = rule.relevance.restrict op.id k s' ↔
      rule.SameSuccessors table op k s s' := by
  constructor
  -- a successor looks at nothing but the relevant part
  · rintro hrestrict before after rfl - -
    exact successor_congr hrestrict
  · intro hsame
    refine eq_of_ascending (Relevance.pairwise_restrict _ _ _ (hexact.ascending hs))
      (Relevance.pairwise_restrict _ _ _ (hexact.ascending hs')) ?_
    intro i
    rw [Relevance.mem_restrict_iff h.relevance hop hk,
      Relevance.mem_restrict_iff h.relevance hop hk]
    refine and_congr_left fun hrelevant => ⟨?_, ?_⟩
    · exact h.mem_of_sameSuccessors hexact hop hsame hrelevant
    · exact h.mem_of_sameSuccessors hexact hop hsame.symm hrelevant

end MatchRule

-- ---------------------------------------------------------------------------
-- Transitions over all other children
-- ---------------------------------------------------------------------------

namespace Transitions

variable {rule : MatchRule} {patterns : List Tree} {table : MatchSets} {tables : Transitions}
  {op : Symbol} {k : Nat} {p q : StateId} {s s' : List MemberId}

/-- Over whatever states of the table in the other slots, a node `op` has the same state with `p`
as with `q` in slot `k`. -/
def Interchangeable (tables : Transitions) (table : MatchSets) (op : Symbol) (k : Nat)
    (p q : StateId) : Prop :=
  ∀ before after : List StateId, before.length = k →
    before.length + 1 + after.length = op.arity →
    (∀ state ∈ before ++ after, state.val < table.size) →
    tables.transition? op.id (before ++ p :: after) =
      tables.transition? op.id (before ++ q :: after)

/-- The transition over a state and the states beside it, by their sets. -/
theorem exists_transition_of_beside (hw : table.wildcard = rule.forest.wildcard)
    (h : build rule table = .ok tables) (hop : op ∈ rule.signature.operators)
    {before after : List StateId} {sets sets' : List (List MemberId)}
    (hbefore : before.mapM table.get? = some sets) (hp : table.get? p = some s)
    (hafter : after.mapM table.get? = some sets')
    (hlen : before.length + 1 + after.length = op.arity) :
    ∃ state, tables.transition? op.id (before ++ p :: after) = some state ∧
      table.idOf? (rule.successor rule.forest.wildcard op.id (sets ++ s :: sets')) =
        some state := by
  have hsets : (before ++ p :: after).mapM table.get? = some (sets ++ s :: sets') :=
    mapM_eq_some_iff.2 (List.rel_append (mapM_eq_some_iff.1 hbefore)
      (.cons hp (mapM_eq_some_iff.1 hafter)))
  rw [← hw]
  refine transition?_eq_idOf?_successor hw h hop hsets ?_
  rw [List.length_append, List.length_cons]
  omega

/-- States are interchangeable exactly if the rule cannot tell their sets apart. -/
theorem interchangeable_iff_sameSuccessors (hw : table.wildcard = rule.forest.wildcard)
    (h : build rule table = .ok tables) (hop : op ∈ rule.signature.operators)
    (hp : table.get? p = some s) (hq : table.get? q = some s') :
    tables.Interchangeable table op k p q ↔ rule.SameSuccessors table op k s s' := by
  constructor
  -- from sets beside the place to states there, and back
  · intro hsame sets sets' hk hlen hsets
    obtain ⟨before, hlength, hbefore⟩ :=
      MatchRule.exists_states fun set hset => hsets set (List.mem_append_left _ hset)
    obtain ⟨after, hlength', hafter⟩ :=
      MatchRule.exists_states fun set hset => hsets set (List.mem_append_right _ hset)
    have hlen' : before.length + 1 + after.length = op.arity := by omega
    obtain ⟨state, hstate, hid⟩ :=
      exists_transition_of_beside hw h hop hbefore hp hafter hlen'
    obtain ⟨state', hstate', hid'⟩ :=
      exists_transition_of_beside hw h hop hbefore hq hafter hlen'
    have hrange : ∀ state ∈ before ++ after, state.val < table.size :=
      List.forall_mem_append.2 ⟨MatchSets.exists_mapM_get?_iff.1 ⟨_, hbefore⟩,
        MatchSets.exists_mapM_get?_iff.1 ⟨_, hafter⟩⟩
    have heq := hsame before after (hlength.trans hk) hlen' hrange
    rw [hstate, hstate', Option.some.injEq] at heq
    exact Numbering.idOf?_inj hid (heq ▸ hid')
  · intro hsame before after hk hlen hrange
    obtain ⟨hrange, hrange'⟩ := List.forall_mem_append.1 hrange
    obtain ⟨sets, hbefore⟩ := MatchSets.exists_mapM_get?_iff.2 hrange
    obtain ⟨sets', hafter⟩ := MatchSets.exists_mapM_get?_iff.2 hrange'
    obtain ⟨state, hstate, hid⟩ := exists_transition_of_beside hw h hop hbefore hp hafter hlen
    obtain ⟨state', hstate', hid'⟩ := exists_transition_of_beside hw h hop hbefore hq hafter hlen
    have hlength := (mapM_eq_some_iff.1 hbefore).length_eq
    have hlength' := (mapM_eq_some_iff.1 hafter).length_eq
    have heq := hsame sets sets' (hlength.symm.trans hk) (by omega)
      (List.forall_mem_append.2 ⟨MatchRule.forall_mem_of_states hbefore,
        MatchRule.forall_mem_of_states hafter⟩)
    rw [hstate, hstate', ← hid, ← hid', heq]

end Transitions

-- ---------------------------------------------------------------------------
-- Finished automata
-- ---------------------------------------------------------------------------

namespace Automaton

variable {a : Automaton} {rule : MatchRule} {table : MatchSets} {tables : Transitions}

theorem Finished.exact (h : a.Finished rule table tables) : rule.Exact table := by
  intro set
  rw [h.found]
  exact h.built.mem_discover_iff rule.complete_discover

theorem Finished.class?_eq_iff (h : a.Finished rule table tables) {op : Symbol}
    (hop : op ∈ rule.signature.operators) {k : Nat} (hk : k < op.arity) {p q : StateId}
    (hp : p.val < table.size) (hq : q.val < table.size) :
    tables.class? op.id k p = tables.class? op.id k q ↔ tables.Interchangeable table op k p q := by
  obtain ⟨s, hs⟩ : ∃ s, table.get? p = some s := ⟨_, Array.getElem?_eq_getElem hp⟩
  obtain ⟨s', hs'⟩ : ∃ s', table.get? q = some s' := ⟨_, Array.getElem?_eq_getElem hq⟩
  have hmem : s ∈ table.toList := Numbering.mem_toList_iff.2 ⟨p, hs⟩
  have hmem' : s' ∈ table.toList := Numbering.mem_toList_iff.2 ⟨q, hs'⟩
  rw [Transitions.class?_eq_iff h.tabulated hop hk hs hs',
    h.built.restrict_eq_iff_sameSuccessors h.exact hop hk hmem hmem',
    Transitions.interchangeable_iff_sameSuccessors h.wildcard_eq h.tabulated hop hs hs']

/-- Once the tables are built, two states share their class in a slot of an operator, or have
both none, exactly if no transition of the operator tells them apart there, whatever states
stand in the other slots. -/
theorem class?_eq_iff_interchangeable (config : Config) (calls : List Call) {table : MatchSets}
    {tables : Transitions} :
    let a := (ofConfig config).performAll calls
    a.matchSets? = some table → a.tables? = some tables →
    ∀ op ∈ a.signature.operators, ∀ k < op.arity, ∀ p q : StateId,
      p.val < table.size → q.val < table.size →
      (tables.class? op.id k p = tables.class? op.id k q ↔
        tables.Interchangeable table op k p q) := by
  intro a hsets htables op hop k hk p q hp hq
  have h : a.Consistent := (consistent_ofConfig config).performAll calls
  obtain ⟨rule, table', hfinished⟩ := h.exists_finished htables
  obtain rfl : table' = table := Option.some.inj (hfinished.matchSets?.symm.trans hsets)
  rw [hfinished.signature] at hop
  exact hfinished.class?_eq_iff hop hk hp hq

/-- With the pattern `f(a, *)`, the first child of `f` may be the whole pattern as well as a tree
that only the wildcard matches, but not the leaf `a`. -/
theorem interchangeable_for_pair :
    let calls := [.register (.node "f" [Tree.leaf "a", Tree.wildcard]), .build]
    let a := (ofConfig {}).performAll calls
    ∃ table tables, a.matchSets? = some table ∧ a.tables? = some tables ∧
      ∃ op ∈ a.signature.operators, 0 < op.arity ∧ 2 < table.size ∧
        tables.Interchangeable table op 0 ⟨2⟩ ⟨0⟩ ∧
        ¬ tables.Interchangeable table op 0 ⟨1⟩ ⟨0⟩ := by
  intro calls a
  have hcomputed : (do
      let table ← a.matchSets?
      let tables ← a.tables?
      return decide (2 < table.size) && tables.class? ⟨1⟩ 0 ⟨2⟩ == tables.class? ⟨1⟩ 0 ⟨0⟩ &&
        tables.class? ⟨1⟩ 0 ⟨1⟩ != tables.class? ⟨1⟩ 0 ⟨0⟩) = some true := by
    decide +kernel
  obtain ⟨table, hsets, hcomputed⟩ := Option.bind_eq_some_iff.1 hcomputed
  obtain ⟨tables, htables, hcomputed⟩ := Option.bind_eq_some_iff.1 hcomputed
  have hcomputed := Option.some.inj hcomputed
  rw [Bool.and_eq_true, Bool.and_eq_true, decide_eq_true_eq, beq_iff_eq, bne_iff_ne] at hcomputed
  obtain ⟨⟨hsize, hsame⟩, hdiffer⟩ := hcomputed
  have hop : (⟨⟨1⟩, "f", 2⟩ : Symbol) ∈ a.signature.operators := by decide +kernel
  have hclasses := class?_eq_iff_interchangeable {} calls hsets htables _ hop 0 Nat.two_pos
  refine ⟨table, tables, hsets, htables, _, hop, Nat.two_pos, hsize, ?_, ?_⟩
  · exact (hclasses ⟨2⟩ ⟨0⟩ hsize (Nat.zero_lt_of_lt hsize)).1 hsame
  · have hlt : 1 < table.size := Nat.lt_of_succ_lt hsize
    exact fun h => hdiffer ((hclasses ⟨1⟩ ⟨0⟩ hlt (Nat.zero_lt_of_lt hsize)).2 h)

end Automaton

end TreePattern
