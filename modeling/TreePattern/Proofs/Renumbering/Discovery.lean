import TreePattern.Proofs.Matching
import TreePattern.Proofs.MatchSets.Limits
import TreePattern.Proofs.Renumbering.Members

/-!
# Discovery over two forests

Rules that agree find related sets in the same order: leaf states by the names of the terminals,
then pass by pass, operators by name and tuples of sets by their numbers. So the tables stay side
by side, a state has the same number in both, and the passes report the same.

## Results

* `MatchRule.Agree.sameSets_ofLeaves` — the tables of the leaf states are side by side.
* `MatchRule.Agree.sameSweep_sweep`   — a pass keeps them so, and tries as many choices.
* `MatchRule.Agree.discover`          — so does discovery as a whole.
-/

namespace TreePattern

namespace MatchRule

variable {rule rule' : MatchRule} {table table' : MatchSets} {op op' : Symbol}

/-- Tables that number related sets alike. -/
structure SameSets (rule rule' : MatchRule) (table table' : MatchSets) : Prop where
  wildcard : rule.SameTree rule' table.wildcard table'.wildcard
  sets : List.Forall₂ (rule.SameTrees rule') table.toList table'.toList

/-- Related tables have the same number of states. -/
theorem SameSets.size_eq (h : rule.SameSets rule' table table') : table.size = table'.size :=
  Numbering.size_eq_of_forall₂ h.sets

/-- Related sets have the same number. -/
theorem SameSets.idOf?_eq (h : rule.SameSets rule' table table') {s s' : List MemberId}
    (hs : rule.SameTrees rule' s s') : table.idOf? s = table'.idOf? s' :=
  Numbering.idOf?_eq_of_forall₂ (biUnique_sameTrees rule rule') h.sets hs

/-- They stay related when related sets are added. -/
theorem SameSets.insert (h : rule.SameSets rule' table table') {s s' : List MemberId}
    (hs : rule.SameTrees rule' s s') : rule.SameSets rule' (table.insert s) (table'.insert s') :=
  ⟨h.wildcard, Numbering.forall₂_insert (biUnique_sameTrees rule rule') h.sets hs⟩

-- ---------------------------------------------------------------------------
-- Leaf states
-- ---------------------------------------------------------------------------

/-- A leaf that is a member of one forest is a member of the other. -/
theorem Agree.leaf?_of_leaf? (h : rule.Agree rule') {s s' : Symbol}
    (hs : rule.SameSymbol rule' s s') {i : MemberId} (hi : rule.forest.leaf? s.id = some i) :
    ∃ j, rule'.forest.leaf? s'.id = some j ∧ rule.SameTree rule' i j := by
  obtain ⟨j, hij⟩ := h.exists_sameTree (Forest.mem_members_of_lookup? hi)
  obtain ⟨cs', hj, hcs⟩ := hij.lookup? hs hi
  obtain rfl : cs' = [] := List.forall₂_nil_left_iff.1 hcs
  exact ⟨j, hj, hij⟩

/-- A symbol is a leaf on both sides or on neither. -/
theorem Agree.rel_leaf? (h : rule.Agree rule') {s s' : Symbol}
    (hs : rule.SameSymbol rule' s s') :
    Option.Rel (rule.SameTree rule') (rule.forest.leaf? s.id) (rule'.forest.leaf? s'.id) := by
  cases hleaf : rule.forest.leaf? s.id with
  | some i =>
    obtain ⟨j, hj, hij⟩ := h.leaf?_of_leaf? hs hleaf
    rw [hj]
    exact .some hij
  | none =>
    cases hleaf' : rule'.forest.leaf? s'.id with
    | none => exact .none
    | some j =>
      obtain ⟨i, hi, -⟩ := h.symm.leaf?_of_leaf? hs.symm hleaf'
      exact absurd (hleaf.symm.trans hi) (by simp)

theorem SameTree.sameTrees_singleton {i j : MemberId} (h : rule.SameTree rule' i j) :
    rule.SameTrees rule' [i] [j] :=
  ⟨List.pairwise_singleton .., List.pairwise_singleton .., by simpa using h, by simpa using h⟩

/-- The sets of the same leaf are related. -/
theorem Agree.sameTrees_leafSet (h : rule.Agree rule') {w w' i j : MemberId}
    (hw : rule.SameTree rule' w w') (hij : rule.SameTree rule' i j) :
    rule.SameTrees rule' (MatchSets.leafSet w i) (MatchSets.leafSet w' j) := by
  have hunique := biUnique_sameTree rule rule'
  refine h.sameTrees_of_mem_iff (Forest.pairwise_leafSet ..) (Forest.pairwise_leafSet ..) ?_ ?_ ?_
  · intro k hk
    rcases Forest.mem_leafSet_iff.1 hk with rfl | rfl
    · exact hw.mem_members
    · exact hij.mem_members
  · intro k hk
    rcases Forest.mem_leafSet_iff.1 hk with rfl | rfl
    · exact hw.symm.mem_members
    · exact hij.symm.mem_members
  · intro k l hkl
    rw [Forest.mem_leafSet_iff, Forest.mem_leafSet_iff]
    refine or_congr ?_ ?_
    · exact ⟨fun heq => hunique.2 hkl (heq ▸ hw), fun heq => hunique.1 hkl (heq ▸ hw)⟩
    · exact ⟨fun heq => hunique.2 hkl (heq ▸ hij), fun heq => hunique.1 hkl (heq ▸ hij)⟩

/-- The leaf states are numbered alike, because the terminals stand in the order of their
names. -/
theorem Agree.sameSets_ofLeaves (h : rule.Agree rule') :
    rule.SameSets rule' (MatchSets.ofLeaves rule.signature rule.forest)
      (MatchSets.ofLeaves rule'.signature rule'.forest) := by
  have hw := sameTree_wildcard rule rule'
  have hstart : rule.SameSets rule' (MatchSets.ofWildcard rule.forest.wildcard)
      (MatchSets.ofWildcard rule'.forest.wildcard) := by
    refine ⟨hw, ?_⟩
    rw [MatchSets.toList_ofWildcard, MatchSets.toList_ofWildcard]
    exact .cons hw.sameTrees_singleton .nil
  -- terminals are listed by name, so they come in the same order on both sides
  have hterminals : List.Forall₂
      (fun t t' => Option.Rel (rule.SameTree rule') (rule.forest.leaf? t.id)
        (rule'.forest.leaf? t'.id)) rule.signature.terminals rule'.signature.terminals := by
    refine forall₂_imp_of_mem (Signature.forall₂_terminals h.arityOf?_eq) ?_
    intro t ht t' ht' hsame
    exact h.rel_leaf? ⟨hsame, (Signature.mem_terminals_iff.1 ht).1,
      (Signature.mem_terminals_iff.1 ht').1⟩
  have hleaves : List.Forall₂ (rule.SameTree rule')
      (rule.signature.terminals.filterMap fun t => rule.forest.leaf? t.id)
      (rule'.signature.terminals.filterMap fun t => rule'.forest.leaf? t.id) :=
    List.rel_filterMap (fun _ _ hrel => hrel) hterminals
  have hsets : List.Forall₂ (rule.SameTrees rule')
      (MatchSets.leafSets rule.signature rule.forest)
      (MatchSets.leafSets rule'.signature rule'.forest) :=
    List.rel_map (fun _ _ hij => h.sameTrees_leafSet hw hij) hleaves
  refine List.rel_foldl ?_ hstart hsets
  intro table table' htable s s' hs
  exact SameSets.insert htable hs

/-- A symbol has the same state as a leaf. -/
theorem Agree.stateOfLeaf_eq (h : rule.Agree rule') (ht : rule.SameSets rule' table table')
    {s s' : Symbol} (hs : rule.SameSymbol rule' s s') :
    table.stateOfLeaf rule.forest s.id = table'.stateOfLeaf rule'.forest s'.id := by
  have hleaf := h.rel_leaf? hs
  unfold MatchSets.stateOfLeaf
  generalize rule.forest.leaf? s.id = leaf at hleaf ⊢
  generalize rule'.forest.leaf? s'.id = leaf' at hleaf ⊢
  cases hleaf with
  | none => rfl
  | some hij =>
    dsimp only
    rw [ht.idOf?_eq (h.sameTrees_leafSet ht.wildcard hij)]

-- ---------------------------------------------------------------------------
-- One pass
-- ---------------------------------------------------------------------------

/-- Sweeps that have found related tables with as many look-ups. -/
structure SameSweep (rule rule' : MatchRule) (s s' : Sweep) : Prop where
  table : rule.SameSets rule' s.table s'.table
  candidates : s.candidates = s'.candidates

/-- Related sets have related traces. -/
theorem Agree.forall₂_traces (h : rule.Agree rule') (hop : rule.SameOperator rule' op op')
    {children children' : List (List MemberId)}
    (hchildren : List.Forall₂ (rule.SameTrees rule') children children')
    (hlen : children.length = op.arity) :
    List.Forall₂ (rule.SameSlot rule') (rule.traces op.id children)
      (rule'.traces op'.id children') := by
  refine forall₂_mapIdx hchildren ?_
  intro k hk s s' hs
  exact h.sameTrees_restrict hop (hlen ▸ hk) hs

/-- A tuple of related sets takes both sweeps on in the same way. -/
theorem Agree.sameSweep_visit (h : rule.Agree rule') (hop : rule.SameOperator rule' op op')
    {s s' : Sweep} (hs : rule.SameSweep rule' s s') {children children' : List (List MemberId)}
    (hchildren : List.Forall₂ (rule.SameTrees rule') children children')
    (hlen : children.length = op.arity) :
    rule.SameSweep rule' (rule.visit op s children) (rule'.visit op' s' children') := by
  obtain ⟨hparents, htried⟩ := h.sameTrees_addParents hop
    (h.forall₂_traces hop hchildren hlen) hs.table.wildcard
  exact ⟨hs.table.insert hparents, congrArg₂ (· + ·) hs.candidates htried⟩

/-- The tuples of related sets are related, one by one. -/
theorem forall₂_tuples {known known' : Array (List MemberId)}
    (hknown : List.Forall₂ (rule.SameTrees rule') known.toList known'.toList) (n : Nat) :
    List.Forall₂ (fun c c' => List.Forall₂ (rule.SameTrees rule') c c' ∧ c.length = n)
      (Enumeration.toList (Choices.power known n))
      (Enumeration.toList (Choices.power known' n)) := by
  have hslots : List.Forall₂ (fun slot slot' : Array (List MemberId) =>
      List.Forall₂ (rule.SameTrees rule') slot.toList slot'.toList)
      (List.replicate n known) (List.replicate n known') :=
    forall₂_replicate (a := known) (b := known') hknown n
  rw [Choices.power, Choices.power, Choices.toList_ofSlots, Choices.toList_ofSlots]
  refine forall₂_imp_of_mem (Choices.forall₂_nestedLoops hslots) ?_
  intro c hc c' _ hsame
  refine ⟨hsame, ?_⟩
  rw [(Choices.mem_nestedLoops.1 hc).length_eq, List.length_replicate]

/-- So do all tuples of one operator. -/
theorem Agree.sameSweep_sweepOperator (h : rule.Agree rule')
    (hop : rule.SameOperator rule' op op') {known known' : Array (List MemberId)}
    (hknown : List.Forall₂ (rule.SameTrees rule') known.toList known'.toList) {s s' : Sweep}
    (hs : rule.SameSweep rule' s s') :
    rule.SameSweep rule' (rule.sweepOperator known s op)
      (rule'.sweepOperator known' s' op') := by
  unfold sweepOperator
  rw [Enumeration.foldl_eq_foldl_toList, Enumeration.foldl_eq_foldl_toList, ← hop.same.arity]
  refine List.rel_foldl ?_ hs (forall₂_tuples hknown op.arity)
  intro s s' hs c c' hc
  exact h.sameSweep_visit hop hs hc.1 hc.2

/-- A pass numbers what it finds alike, because the operators stand in the order of their names
and the tuples in that of their numbers. -/
theorem Agree.sameSweep_sweep (h : rule.Agree rule') (ht : rule.SameSets rule' table table') :
    rule.SameSweep rule' (rule.sweep table) (rule'.sweep table') := by
  refine List.rel_foldl ?_ ⟨ht, rfl⟩ h.forall₂_operators
  intro s s' hs op op' hop
  exact h.sameSweep_sweepOperator hop ht.sets hs

-- ---------------------------------------------------------------------------
-- All passes
-- ---------------------------------------------------------------------------

/-- Both sides find the same number of new sets and try the same number of candidates. -/
theorem Agree.passOver_eq (h : rule.Agree rule') (ht : rule.SameSets rule' table table') :
    rule.passOver table = rule'.passOver table' := by
  have hsweep := h.sameSweep_sweep ht
  unfold passOver
  rw [hsweep.table.size_eq, hsweep.candidates, ht.size_eq]

/-- Without a limit, both searches make the same passes. -/
theorem Agree.closeWithin (h : rule.Agree rule') (table table' : MatchSets)
    (ht : rule.SameSets rule' table table') :
    rule.SameSets rule' (rule.closeWithin none table).table
        (rule'.closeWithin none table').table ∧
      (rule.closeWithin none table).passes = (rule'.closeWithin none table').passes := by
  have hsweep := h.sameSweep_sweep ht
  have hpass := h.passOver_eq ht
  by_cases hadded : (rule.passOver table).added = 0
  -- both sides find nothing new in the same pass
  · have hadded' : (rule'.passOver table').added = 0 := hpass ▸ hadded
    rw [closeWithin_of_added_eq_zero (by simp) hadded,
      closeWithin_of_added_eq_zero (by simp) hadded', hpass]
    exact ⟨hsweep.table, rfl⟩
  · have hadded' : (rule'.passOver table').added ≠ 0 := hpass ▸ hadded
    have hless := rule.unseen_sweep_lt table hadded
    obtain ⟨htable, hpasses⟩ :=
      h.closeWithin (rule.sweep table).table (rule'.sweep table').table hsweep.table
    rw [closeWithin_of_added_ne_zero (by simp) hadded,
      closeWithin_of_added_ne_zero (by simp) hadded', hpass]
    exact ⟨htable, congrArg (rule'.passOver table' :: ·) hpasses⟩
termination_by rule.unseen table

/-- Rules that agree discover related sets, under the same numbers and with the same counters. -/
theorem Agree.discover (h : rule.Agree rule') :
    rule.SameSets rule' (rule.discover 0).table (rule'.discover 0).table ∧
      (rule.discover 0).stats = (rule'.discover 0).stats := by
  obtain ⟨htable, hpasses⟩ := h.closeWithin _ _ h.sameSets_ofLeaves
  refine ⟨htable, ?_⟩
  have hpasses : (rule.discover 0).passes = (rule'.discover 0).passes := hpasses
  unfold Closure.stats
  rw [hpasses]

end MatchRule

end TreePattern
