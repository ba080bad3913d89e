import TreePattern.Proofs.MixedRadix
import TreePattern.Proofs.Transitions.OperatorTable

/-!
# The entries of a table

The targets of a built table fill the numbers of the class tuples without a gap. So just the tuples
of classes have a target, and what is listed are all these tuples in their order, each with its
target. The target is the state of the set that consists of the wildcard and of the members over
the traces of the classes.

## Results

* `OperatorTable.isSome_target?_iff` — which tuples have a target.
* `OperatorTable.mem_entries_iff`    — each entry is a tuple with its target.
* `OperatorTable.pairwise_entries`   — the tuples of the entries ascend.
* `OperatorTable.exists_set_of_target?` — the set that a target is the state of.
-/

namespace TreePattern

/-- Tuples of indices come in the order of their numbers. -/
theorem Index.lex_map_mk {k : IndexKind} {digits digits' : List Nat}
    (h : List.Lex (· < ·) digits digits') :
    List.Lex (· < ·) (digits.map (Index.mk : Nat → Index k)) (digits'.map Index.mk) := by
  induction h with
  | nil => exact .nil
  | cons _ ih => exact .cons ih
  | rel hlt => exact .rel hlt

namespace OperatorTable

variable {rule : MatchRule} {table : MatchSets} {op : Symbol} {t : OperatorTable}
  {classes : List ClassId} {state : StateId}

/-- Just the tuples of classes have a target. -/
theorem isSome_target?_iff (h : build rule table op = .ok t) :
    (t.target? classes).isSome ↔ List.Forall₂ (fun c r => c.val < r) classes t.radices := by
  rw [← List.forall₂_map_left_iff (f := Index.val) (R := (· < ·)), ← MixedRadix.isSome_encode?_iff,
    target?]
  cases hn : MixedRadix.encode? t.radices (classes.map Index.val) with
  | none => exact Iff.rfl
  | some n =>
    have hlt : n < t.targets.size := size_targets_of_build h ▸ MixedRadix.encode?_lt_volume hn
    rw [Option.bind_some, Array.getElem?_eq_getElem hlt]
    exact Iff.rfl

/-- There is an entry for each tuple of classes. -/
theorem length_entries (h : build rule table op = .ok t) :
    t.entries.length = MixedRadix.volume t.radices := by
  rw [entries, List.length_mapIdx, Array.length_toList, size_targets_of_build h]

/-- The entries are the tuples that have a target, with their targets. -/
theorem mem_entries_iff (h : build rule table op = .ok t) :
    (classes, state) ∈ t.entries ↔ t.target? classes = some state := by
  refine ⟨fun hentry => ?_, mem_entries_of_target?⟩
  rw [entries] at hentry
  obtain ⟨n, hlt, hentry⟩ := List.mem_mapIdx.1 hentry
  cases hentry
  have hlt' : n < MixedRadix.volume t.radices := size_targets_of_build h ▸ hlt
  rw [target?, Index.map_val_map_mk, MixedRadix.encode?_decode hlt', Option.bind_some,
    ← Array.getElem?_toList]
  exact List.getElem?_eq_getElem hlt

/-- The tuples of the entries ascend, the leftmost class counting most. -/
theorem pairwise_entries (h : build rule table op = .ok t) :
    (t.entries.map Prod.fst).Pairwise (List.Lex (· < ·)) := by
  rw [List.pairwise_iff_getElem]
  intro m n hm hn hlt
  have hn' : n < MixedRadix.volume t.radices := by
    rwa [List.length_map, length_entries h] at hn
  simp only [entries, List.getElem_map, List.getElem_mapIdx]
  exact Index.lex_map_mk (MixedRadix.lex_decode hlt hn')

/-- A target is the state of the set that consists of the wildcard and of the members that are
rooted at the operator and whose children lie in the traces of the classes. -/
theorem exists_set_of_target? (h : build rule table op = .ok t)
    (htarget : t.target? classes = some state) : ∃ traces set,
      Choices.pick (SlotClasses.traceSlots t.slots) (classes.map Index.val) = some traces ∧
      table.idOf? set = some state ∧ set.Pairwise (· < ·) ∧
      ∀ i, i ∈ set ↔ i = rule.forest.wildcard ∨ ∃ children,
        rule.forest.node? i = some ⟨op.id, children⟩ ∧
          List.Forall₂ (· ∈ ·) children traces := by
  obtain ⟨n, hn, hstate⟩ := Option.bind_eq_some_iff.1 htarget
  have hlt : n < (Choices.nestedLoops (SlotClasses.traceSlots t.slots)).length := by
    rw [SlotClasses.length_nestedLoops_traceSlots]
    exact MixedRadix.encode?_lt_volume hn
  -- the number of the classes is a place of the nested loops, where target and traces are found
  have hplace := List.getElem?_eq_getElem hlt
  rw [radices, ← SlotClasses.map_size_traceSlots] at hn
  obtain ⟨found, hfound, hset⟩ := targets_of_build h hplace
  obtain rfl : found = state := Option.some.inj (hfound.symm.trans hstate)
  refine ⟨_, _, (Choices.getElem?_nestedLoops hn).symm.trans hplace, hset, ?_, fun i => ?_⟩
  · exact Std.TreeSet.ordered_toList.imp Index.compare_eq_lt.1
  · rw [Forest.mem_addParents_singleton_iff]
    simp only [Forest.lookup?, Numbering.idOf?_eq_some_iff, Forest.node?]

end OperatorTable

end TreePattern
