import TreePattern.Transitions.OperatorTable
import TreePattern.Proofs.MatchRule
import TreePattern.Proofs.Transitions.SlotClasses
import TreePattern.Proofs.Traversal

/-!
# The table of one operator against the matching rule

The table of an operator is read in three steps: the class of each child's state, the number of
the tuple of classes, the target at that number. The outcome is the state of the set that the
matching rule gives for the children's sets themselves. If a child has no class its trace is
empty, no member can stand over the children, and the rule gives the set of the wildcard alone.

## Results

* `OperatorTable.transition?_eq_idOf?_successor` — the table gives the state of the rule's set.
* `OperatorTable.transition?_eq_none_iff`        — when it gives none.
-/

namespace TreePattern

/-- The numbers of a list have sets exactly if each is a state. -/
theorem MatchSets.exists_mapM_get?_iff {table : MatchSets} {states : List StateId} :
    (∃ sets, states.mapM table.get? = some sets) ↔ ∀ state ∈ states, state.val < table.size := by
  constructor
  · rintro ⟨sets, hsets⟩ state hstate
    obtain ⟨set, -, hset⟩ := exists_of_mem_left (mapM_eq_some_iff.1 hsets) hstate
    exact Numbering.val_lt_size_of_get? hset
  · intro hrange
    refine exists_mapM_eq_some fun state hstate => ?_
    exact Option.isSome_iff_exists.2 ⟨_, Array.getElem?_eq_getElem (hrange state hstate)⟩

namespace OperatorTable

variable {rule : MatchRule} {table : MatchSets} {op : Symbol} {t : OperatorTable}

-- ---------------------------------------------------------------------------
-- What building leaves
-- ---------------------------------------------------------------------------

/-- A finished table: the classes are those of the slots, and the targets were found one after the
other. -/
theorem build_eq_ok (h : build rule table op = .ok t) :
    t.slots = (List.range op.arity).map (slotClasses rule table op) ∧
      List.Forall₂ (fun traces state => findTarget rule table op traces = .ok state)
        (Choices.nestedLoops (SlotClasses.traceSlots t.slots)) t.targets.toList := by
  unfold build at h
  obtain ⟨targets, htargets, h⟩ := bind_eq_ok_iff.1 h
  cases h
  refine ⟨rfl, ?_⟩
  rw [mapM_eq_ok_iff, traceTuples, Choices.toList_ofSlots] at htargets
  exact htargets

/-- There is one target for each tuple of classes. -/
theorem size_targets_of_build (h : build rule table op = .ok t) :
    t.targets.size = MixedRadix.volume t.radices := by
  rw [← Array.length_toList, ← (build_eq_ok h).2.length_eq,
    SlotClasses.length_nestedLoops_traceSlots]
  rfl

/-- A table has a slot for each child of its operator. -/
theorem arity_of_build (h : build rule table op = .ok t) : t.arity = op.arity := by
  rw [arity, (build_eq_ok h).1, List.length_map, List.length_range]

/-- A target that is found is the state of the parents of the traces. -/
theorem findTarget_eq_ok {traces : List (Array MemberId)} {state : StateId}
    (h : findTarget rule table op traces = .ok state) :
    table.idOf? (rule.forest.addParents op.id traces {rule.forest.wildcard}).members.toList =
      some state := by
  unfold findTarget at h
  dsimp only at h
  split at h
  · next q hq => cases h; exact hq
  · exact absurd h (by simp)

/-- The target of the traces that stand at place `n`. -/
theorem targets_of_build (h : build rule table op = .ok t) {n : Nat}
    {traces : List (Array MemberId)}
    (hn : (Choices.nestedLoops (SlotClasses.traceSlots t.slots))[n]? = some traces) :
    ∃ state, t.targets[n]? = some state ∧
      table.idOf? (rule.forest.addParents op.id traces {rule.forest.wildcard}).members.toList =
        some state := by
  have hall := (build_eq_ok h).2
  obtain ⟨hlt, hget⟩ := List.getElem?_eq_some_iff.1 hn
  have hlt' : n < t.targets.toList.length := hall.length_eq ▸ hlt
  have hok := hall.get hlt hlt'
  rw [List.get_eq_getElem, hget] at hok
  exact ⟨_, by rw [← Array.getElem?_toList]; exact List.getElem?_eq_getElem hlt',
    findTarget_eq_ok hok⟩

-- ---------------------------------------------------------------------------
-- The classes of a tuple of states
-- ---------------------------------------------------------------------------

/-- In the classes of a slot, a state is assigned the part of its set that is relevant there. -/
theorem slotClasses_assigns {k : Nat} {state : StateId} {set : List MemberId}
    (h : table.get? state = some set) :
    (slotClasses rule table op k).Assigns state (rule.relevance.restrict op.id k set) := by
  refine SlotClasses.assigns_ofTraces ?_
  rw [List.getElem?_map, MatchSets.toList, ← Numbering.get?_eq_getElem?_toList,
    show table.sets.get? state = some set from h]
  rfl

/-- Every state of a tuple is assigned by the relevant part of its set. -/
theorem assignsAll_slotClasses (rule : MatchRule) (op : Symbol) {states : List StateId}
    {sets : List (List MemberId)} (start : Nat)
    (h : List.Forall₂ (fun state set => table.get? state = some set) states sets) :
    SlotClasses.AssignsAll ((List.range' start states.length).map (slotClasses rule table op))
      states (sets.mapIdx fun k set => rule.relevance.restrict op.id (start + k) set) := by
  induction h generalizing start with
  | nil => exact .nil
  | cons hstate _ ih =>
    rw [List.length_cons, List.range'_succ, List.map_cons, List.mapIdx_cons]
    have hrest := ih (start + 1)
    simp only [Nat.add_assoc, Nat.add_comm 1] at hrest
    exact .cons (slotClasses_assigns hstate) hrest

/-- In the table of an operator, every state of a tuple is assigned by the relevant part of its
set. -/
theorem assignsAll_of_build (h : build rule table op = .ok t) {states : List StateId}
    {sets : List (List MemberId)} (hsets : states.mapM table.get? = some sets)
    (hlen : states.length = op.arity) : SlotClasses.AssignsAll t.slots states
      (sets.mapIdx fun k set => rule.relevance.restrict op.id k set) := by
  have hall := assignsAll_slotClasses rule op 0 (mapM_eq_some_iff.1 hsets)
  rw [hlen, ← List.range_eq_range', ← (build_eq_ok h).1] at hall
  simpa only [Nat.zero_add] using hall

/-- No slot of the table has a class for a number that is not a state's. -/
theorem classesOf?_eq_none_iff (h : build rule table op = .ok t) {states : List StateId}
    (hlen : states.length = op.arity) :
    SlotClasses.classesOf? t.slots states = none ↔ ∃ state ∈ states, table.size ≤ state.val := by
  have hslot : ∀ slot ∈ t.slots, ∀ state : StateId,
      slot.classOf[state.val]? = none ↔ table.size ≤ state.val := by
    intro slot hslot state
    rw [(build_eq_ok h).1] at hslot
    obtain ⟨k, -, rfl⟩ := List.mem_map.1 hslot
    rw [Array.getElem?_eq_none_iff, slotClasses, SlotClasses.size_classOf_ofTraces,
      List.length_map, MatchSets.toList, Numbering.length_toList, MatchSets.size]
  -- slots and states have the same length, so no state is lost in pairing them
  have hzip : (t.slots.zip states).map Prod.snd = states :=
    List.map_snd_zip (by rw [hlen, ← arity_of_build h]; exact Nat.le_refl _)
  rw [SlotClasses.classesOf?, mapM_eq_none_iff]
  constructor
  · rintro ⟨⟨slot, state⟩, hp, hnone⟩
    obtain ⟨hs, hstate⟩ := List.of_mem_zip hp
    exact ⟨state, hstate, (hslot slot hs state).1 hnone⟩
  · rintro ⟨state, hstate, hge⟩
    rw [← hzip] at hstate
    obtain ⟨⟨slot, state⟩, hp, rfl⟩ := List.mem_map.1 hstate
    exact ⟨(slot, state), hp, (hslot slot (List.of_mem_zip hp).1 state).2 hge⟩

-- ---------------------------------------------------------------------------
-- The transition
-- ---------------------------------------------------------------------------

/-- With as many states as the operator has children, only their classes decide. -/
theorem transition?_of_length (h : build rule table op = .ok t) {states : List StateId}
    (hlen : states.length = op.arity) :
    t.transition? states = (SlotClasses.classesOf? t.slots states).bind fun classes =>
      match classes.mapM id with
      | some classes => t.target? classes
      | none => some MatchSets.wildcardState := by
  rw [transition?, if_pos (hlen.trans (arity_of_build h).symm)]
  rfl

/-- A child without a class: the table answers with the wildcard's state. -/
theorem transition?_of_irrelevant (h : build rule table op = .ok t) {states : List StateId}
    (hlen : states.length = op.arity) {traces : List (List MemberId)}
    (hassigns : SlotClasses.AssignsAll t.slots states traces) (hnil : [] ∈ traces) :
    t.transition? states = some MatchSets.wildcardState := by
  obtain ⟨classes, hclasses, hnone⟩ := hassigns.none_mem
  have hmapM : classes.mapM id = none := mapM_eq_none_iff.2 ⟨none, hnone hnil, rfl⟩
  rw [transition?_of_length h hlen, hclasses, Option.bind_some, hmapM]

/-- If every child has a class, the classes have a target, which was found for the children's own
traces. -/
theorem exists_target_of_relevant (h : build rule table op = .ok t) {states : List StateId}
    {traces : List (List MemberId)} (hassigns : SlotClasses.AssignsAll t.slots states traces)
    (hne : ∀ trace ∈ traces, trace ≠ []) :
    ∃ classes state, SlotClasses.classesOf? t.slots states = some (classes.map some) ∧
      t.target? classes = some state ∧
      table.idOf? (rule.forest.addParents op.id (traces.map List.toArray)
        {rule.forest.wildcard}).members.toList = some state := by
  obtain ⟨classes, n, hclasses, hn, hpick⟩ := hassigns.classes hne
  have hplace : (Choices.nestedLoops (SlotClasses.traceSlots t.slots))[n]? =
      some (traces.map List.toArray) := by
    rw [Choices.getElem?_nestedLoops (by rw [SlotClasses.map_size_traceSlots]; exact hn), hpick]
  obtain ⟨state, htarget, hid⟩ := targets_of_build h hplace
  have hencode : MixedRadix.encode? t.radices (classes.map Index.val) = some n := hn
  exact ⟨classes, state, hclasses, by rw [target?, hencode, Option.bind_some, htarget], hid⟩

/-- Every child has a class: the transition leads to the target of the classes. -/
theorem transition?_of_relevant (h : build rule table op = .ok t) {states : List StateId}
    (hlen : states.length = op.arity) {traces : List (List MemberId)}
    (hassigns : SlotClasses.AssignsAll t.slots states traces)
    (hne : ∀ trace ∈ traces, trace ≠ []) :
    ∃ state, t.transition? states = some state ∧
      table.idOf? (rule.forest.addParents op.id (traces.map List.toArray)
        {rule.forest.wildcard}).members.toList = some state := by
  obtain ⟨classes, state, hclasses, htarget, hid⟩ := exists_target_of_relevant h hassigns hne
  have hmapM : (classes.map some).mapM id = some classes :=
    mapM_eq_some_iff.2 (List.forall₂_map_left_iff.2 (List.forall₂_same.2 fun _ _ => rfl))
  refine ⟨state, ?_, hid⟩
  rw [transition?_of_length h hlen, hclasses, Option.bind_some, hmapM]
  exact htarget

/-- A tuple of classes with a target is listed with it. -/
theorem mem_entries_of_target? {classes : List ClassId} {state : StateId}
    (h : t.target? classes = some state) : (classes, state) ∈ t.entries := by
  obtain ⟨n, hn, hstate⟩ := Option.bind_eq_some_iff.1 h
  refine List.mem_of_getElem? (i := n) ?_
  rw [entries, List.getElem?_mapIdx, Array.getElem?_toList, hstate, Option.map_some,
    MixedRadix.decode_encode? hn, Index.map_mk_map_val]

/-- Where all children are states, the transition leads to the state of the set that the rule
gives for their sets, and that set is in the table. -/
theorem transition?_eq_idOf?_successor (hw : table.wildcard = rule.forest.wildcard)
    (h : build rule table op = .ok t) {states : List StateId} {sets : List (List MemberId)}
    (hsets : states.mapM table.get? = some sets) (hlen : states.length = op.arity) :
    ∃ state, t.transition? states = some state ∧
      table.idOf? (rule.successor table.wildcard op.id sets) = some state := by
  have hassigns := assignsAll_of_build h hsets hlen
  have htraces := rule.traces_eq_map op.id sets
  -- one irrelevant set makes the node match the wildcard alone, on either side
  by_cases hnil : [] ∈ sets.mapIdx fun k set => rule.relevance.restrict op.id k set
  · have hmem : #[] ∈ rule.traces op.id sets := by
      rw [htraces]
      exact List.mem_map.2 ⟨[], hnil, rfl⟩
    refine ⟨_, transition?_of_irrelevant h hlen hassigns hnil, ?_⟩
    rw [MatchRule.successor_of_nil_mem_traces hmem]
    exact Numbering.idOf?_eq_some_iff.2 table.get?_zero
  · have hne : ∀ trace ∈ sets.mapIdx fun k set => rule.relevance.restrict op.id k set,
        trace ≠ [] := by
      intro trace ht heq
      exact hnil (heq ▸ ht)
    obtain ⟨state, hstate, hid⟩ := transition?_of_relevant h hlen hassigns hne
    refine ⟨state, hstate, ?_⟩
    rw [MatchRule.successor, MatchRule.parents, hw, htraces]
    exact hid

/-- A transition is undefined for a tuple of the wrong length or with a number that is not a
state's, and for no other. -/
theorem transition?_eq_none_iff (hw : table.wildcard = rule.forest.wildcard)
    (h : build rule table op = .ok t) {states : List StateId} :
    t.transition? states = none ↔
      states.length ≠ op.arity ∨ ∃ state ∈ states, table.size ≤ state.val := by
  by_cases hlen : states.length = op.arity
  · rw [or_iff_right (not_not_intro hlen)]
    constructor
    -- were all states known, they would have sets, and the successor of these is always found
    · intro hnone
      by_contra hall
      obtain ⟨sets, hsets⟩ := MatchSets.exists_mapM_get?_iff.2 fun state hstate =>
        Nat.lt_of_not_le fun hge => hall ⟨state, hstate, hge⟩
      obtain ⟨state, hstate, -⟩ := transition?_eq_idOf?_successor hw h hsets hlen
      rw [hnone] at hstate
      exact absurd hstate (by simp)
    · intro hout
      rw [transition?_of_length h hlen, (classesOf?_eq_none_iff h hlen).2 hout]
      rfl
  · refine iff_of_true ?_ (Or.inl hlen)
    rw [transition?, if_neg (by rw [arity_of_build h]; exact hlen)]

end OperatorTable

end TreePattern
