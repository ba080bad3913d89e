import TreePattern.Proofs.BuiltFrom
import TreePattern.Proofs.Transitions.Agreement

/-!
# Classes are relevant parts

The classes of a slot stand for the relevant parts of the sets in the table, one class for each part
that is not empty. They are numbered in the order in which their parts come up: each state that is
classified leaves the classes before it as they are, and is the first state of a class just if that
class is new. A state whose set has no relevant part gets no class, but it is counted all the same,
so that the states after it are found under their own numbers.

## Results

* `SlotClasses.First.add`      — the first state of a class remains the first.
* `SlotClasses.exists_firsts`  — each class has a first state, and these ascend with the classes.
* `Transitions.classes_stand_for_parts` — classes, traces and states of a slot of built tables.
-/

namespace TreePattern

namespace SlotClasses

variable {c : SlotClasses} {state : StateId} {id : ClassId} {trace : List MemberId}

-- ---------------------------------------------------------------------------
-- The class of one state
-- ---------------------------------------------------------------------------

/-- A state is in no class exactly if nothing of its set is relevant. -/
theorem Assigns.class?_eq_none_iff (h : c.Assigns state trace) :
    c.class? state = none ↔ trace = [] := by
  rw [class?]
  cases h with
  | irrelevant hclass => exact iff_of_true (by rw [hclass]; rfl) rfl
  | relevant hne hclass _ => exact iff_of_false (by simp [hclass]) hne

/-- The trace of the class of a state is the relevant part of its set. -/
theorem Assigns.trace?_of_class? (h : c.Assigns state trace) (hid : c.class? state = some id) :
    c.trace? id = some trace := by
  rw [class?] at hid
  cases h with
  | irrelevant hclass => simp [hclass] at hid
  | relevant _ hclass htrace =>
    rw [hclass] at hid
    cases hid
    exact htrace

/-- States with classes share their class exactly if they have the same trace. -/
theorem Assigns.eq_iff_of_class? {other : StateId} {id' : ClassId} {trace' : List MemberId}
    (h : c.Assigns state trace) (h' : c.Assigns other trace') (hid : c.class? state = some id)
    (hid' : c.class? other = some id') : id = id' ↔ trace = trace' := by
  have htrace := h.trace?_of_class? hid
  have htrace' := h'.trace?_of_class? hid'
  constructor
  · rintro rfl
    exact Option.some.inj (htrace.symm.trans htrace')
  · rintro rfl
    exact Numbering.get?_inj htrace htrace'

/-- Exactly the counted classes have a trace. -/
theorem isSome_trace?_iff : (c.trace? id).isSome ↔ id.val < c.count := by
  rw [Option.isSome_iff_exists]
  exact ⟨fun ⟨_, htrace⟩ => Numbering.val_lt_size_of_get? htrace,
    fun hlt => ⟨_, Array.getElem?_eq_getElem hlt⟩⟩

/-- Only states with an entry are in a class. -/
theorem val_lt_size_of_class? (h : c.class? state = some id) : state.val < c.classOf.size :=
  (Array.getElem?_eq_some_iff.1 (Option.join_eq_some_iff.1 h)).1

/-- The state that is classified next has the number of those before it. -/
theorem class?_add (c : SlotClasses) (trace : List MemberId) (state : StateId) :
    (c.add trace).class? state =
      if state.val = c.classOf.size then
        if trace = [] then none else some (c.traces.intern trace).1
      else c.class? state := by
  unfold add class?
  by_cases htrace : trace = []
  · rw [if_pos (List.isEmpty_iff.2 htrace), Array.getElem?_push, if_pos htrace]
    split <;> rfl
  · rw [if_neg (mt List.isEmpty_iff.1 htrace), Array.getElem?_push, if_neg htrace]
    split <;> rfl

/-- A number beyond the states is in no class. -/
theorem class?_ofTraces_of_le {traces : List (List MemberId)} (h : traces.length ≤ state.val) :
    (ofTraces traces).class? state = none := by
  refine Option.eq_none_iff_forall_ne_some.2 fun id hid => ?_
  have hlt := val_lt_size_of_class? hid
  rw [size_classOf_ofTraces] at hlt
  exact Nat.not_lt_of_le h hlt

/-- A state without relevant part opens no class. -/
theorem count_add_of_nil (c : SlotClasses) : (c.add []).count = c.count := rfl

/-- Nor does a state whose trace is known. -/
theorem count_add_of_contains (h : c.traces.contains trace) : (c.add trace).count = c.count := by
  unfold add count
  split
  · rfl
  · exact congrArg Numbering.size (Numbering.insert_of_contains h)

/-- A trace that has no class gets the next one. -/
theorem count_add_of_new (htrace : trace ≠ []) (hnew : c.traces.idOf? trace = none) :
    (c.add trace).count = c.count + 1 ∧ (c.traces.intern trace).1 = ⟨c.count⟩ := by
  unfold add count
  rw [if_neg (mt List.isEmpty_iff.1 htrace), Numbering.intern, hnew]
  exact ⟨Numbering.size_insert_of_idOf?_eq_none hnew, rfl⟩

-- ---------------------------------------------------------------------------
-- First states
-- ---------------------------------------------------------------------------

/-- The state is in the class, and no state before it is. -/
structure First (c : SlotClasses) (id : ClassId) (state : StateId) : Prop where
  class?_eq : c.class? state = some id
  le : ∀ other, c.class? other = some id → state ≤ other

/-- The first states of the classes, by class, ascend. -/
structure Firsts (c : SlotClasses) (firsts : List StateId) : Prop where
  length_eq : firsts.length = c.count
  ascending : firsts.Pairwise (· < ·)
  first : ∀ id state, firsts[id.val]? = some state → c.First id state

/-- The first state of a class stays the first when states are added after it. -/
theorem First.add (h : c.First id state) (trace : List MemberId) :
    (c.add trace).First id state := by
  have hlt := val_lt_size_of_class? h.class?_eq
  refine ⟨by rw [class?_add, if_neg (Nat.ne_of_lt hlt), h.class?_eq], fun other hother => ?_⟩
  rw [class?_add] at hother
  split at hother
  · next hlast => exact Nat.le_of_lt (hlast ▸ hlt)
  · exact h.le other hother

/-- A state that finds its class leaves the first states as they are. -/
theorem Firsts.add_of_count_eq {firsts : List StateId} (h : c.Firsts firsts)
    (hcount : (c.add trace).count = c.count) : (c.add trace).Firsts firsts where
  length_eq := h.length_eq.trans hcount.symm
  ascending := h.ascending
  first id state hfirst := (h.first id state hfirst).add trace

/-- A state with a new trace is the first of a new class. -/
theorem Firsts.add_of_new {firsts : List StateId} (h : c.Firsts firsts) (htrace : trace ≠ [])
    (hnew : c.traces.idOf? trace = none)
    (hrange : ∀ state id, c.class? state = some id → id.val < c.count) :
    (c.add trace).Firsts (firsts ++ [⟨c.classOf.size⟩]) := by
  obtain ⟨hcount, hid⟩ := count_add_of_new htrace hnew
  refine ⟨?_, List.pairwise_append.2 ⟨h.ascending, List.pairwise_singleton .., ?_⟩, ?_⟩
  · rw [List.length_append, h.length_eq, hcount, List.length_singleton]
  -- the earlier first states have entries, and the new state takes the entry after all of them
  · intro state hstate last hlast
    obtain ⟨i, hi⟩ := List.mem_iff_getElem?.1 hstate
    rw [List.mem_singleton.1 hlast]
    exact val_lt_size_of_class? (h.first ⟨i⟩ state hi).class?_eq
  · intro id state hfirst
    rw [List.getElem?_append] at hfirst
    split at hfirst
    · exact (h.first id state hfirst).add trace
    · next hge =>
      obtain ⟨hlen, rfl⟩ := List.getElem?_eq_some_iff.1 hfirst
      rw [List.length_singleton] at hlen
      have hval : id.val = firsts.length := by omega
      have hclass : id = ⟨c.count⟩ := Index.ext_iff.2 (hval.trans h.length_eq)
      simp only [hval, Nat.sub_self, List.getElem_cons_zero]
      refine ⟨by rw [class?_add, if_pos rfl, if_neg htrace, hid, hclass], fun other hother => ?_⟩
      rw [class?_add] at hother
      split at hother
      · next hlast => exact Nat.le_of_eq hlast.symm
      · -- the class is new, so no state before this one is in it
        have hlt := hrange other id hother
        rw [hclass] at hlt
        exact absurd hlt (Nat.lt_irrefl _)

/-- Each class has a first state, and the classes are numbered in the order of these. -/
theorem exists_firsts (traces : List (List MemberId)) :
    ∃ firsts, (ofTraces traces).Firsts firsts := by
  induction traces using List.reverseRecOn with
  | nil => exact ⟨[], rfl, .nil, fun id state h => absurd h (by simp)⟩
  | append_singleton traces trace ih =>
    obtain ⟨firsts, hfirsts⟩ := ih
    rw [ofTraces, List.foldl_concat, ← ofTraces]
    -- a state without relevant part, one of a known class, one that opens a class
    by_cases htrace : trace = []
    · subst htrace
      exact ⟨firsts, hfirsts.add_of_count_eq (count_add_of_nil _)⟩
    · cases hnew : (ofTraces traces).traces.idOf? trace with
      | some id =>
        have hknown : (ofTraces traces).traces.contains trace = true := by
          rw [Numbering.contains, hnew]
          rfl
        exact ⟨firsts, hfirsts.add_of_count_eq (count_add_of_contains hknown)⟩
      | none =>
        exact ⟨_, hfirsts.add_of_new htrace hnew fun state id h => val_lt_count_of_class? h⟩

/-- The classes of states are the numbers below the count. -/
theorem exists_class?_iff {traces : List (List MemberId)} :
    (∃ state, (ofTraces traces).class? state = some id) ↔ id.val < (ofTraces traces).count := by
  refine ⟨fun ⟨_, hclass⟩ => val_lt_count_of_class? hclass, fun hlt => ?_⟩
  obtain ⟨firsts, hfirsts⟩ := exists_firsts traces
  have hlt : id.val < firsts.length := hfirsts.length_eq ▸ hlt
  exact ⟨_, (hfirsts.first id _ (List.getElem?_eq_getElem hlt)).class?_eq⟩

end SlotClasses

-- ---------------------------------------------------------------------------
-- The slots of built tables
-- ---------------------------------------------------------------------------

namespace Transitions

variable {rule : MatchRule} {table : MatchSets} {tables : Transitions} {op : Symbol} {k : Nat}

/-- The states of a slot are assigned by the relevant parts of their sets. -/
theorem exists_slot (h : build rule table = .ok tables) (hop : op ∈ rule.signature.operators)
    (hk : k < op.arity) : ∃ traces, tables.slot? op.id k = some (SlotClasses.ofTraces traces) ∧
      traces.length = table.size ∧ ∀ state set, table.get? state = some set →
        (SlotClasses.ofTraces traces).Assigns state (rule.relevance.restrict op.id k set) :=
  ⟨_, slot?_of_mem h hop hk, by
    rw [List.length_map]
    exact Numbering.length_toList table.sets,
    fun _ _ hset => OperatorTable.slotClasses_assigns hset⟩

/-- Take a slot of an operator of built tables. A state has no class there exactly if its set has no
relevant part, and the trace of its class is that part; so two states with classes share their
class exactly if their sets have the same relevant part. What is no state has no class. The
classes are the numbers below their count: just these have a trace, and just these are the class of
some state. They are numbered in the order of the first states that they have. -/
theorem classes_stand_for_parts (h : build rule table = .ok tables)
    (hop : op ∈ rule.signature.operators) (hk : k < op.arity) :
    (∀ a s, table.get? a = some s →
      (tables.class? op.id k a = none ↔ rule.relevance.restrict op.id k s = []) ∧
      (∀ c, tables.class? op.id k a = some c →
        tables.trace? op.id k c = some (rule.relevance.restrict op.id k s)) ∧
      ∀ b s', table.get? b = some s' → ∀ c d, tables.class? op.id k a = some c →
        tables.class? op.id k b = some d →
        (c = d ↔ rule.relevance.restrict op.id k s = rule.relevance.restrict op.id k s')) ∧
    (∀ a, table.size ≤ a.val → tables.class? op.id k a = none) ∧
    (∀ c, (tables.trace? op.id k c).isSome ↔ c.val < tables.classCount op.id k) ∧
    (∀ c, (∃ a, tables.class? op.id k a = some c) ↔ c.val < tables.classCount op.id k) ∧
    ∃ firsts : List StateId, firsts.length = tables.classCount op.id k ∧
      firsts.Pairwise (· < ·) ∧ ∀ (c : ClassId) first, firsts[c.val]? = some first →
        tables.class? op.id k first = some c ∧
          ∀ a, tables.class? op.id k a = some c → first ≤ a := by
  obtain ⟨traces, hslot, hlength, hassigns⟩ := exists_slot h hop hk
  have hclass : ∀ a, tables.class? op.id k a = (SlotClasses.ofTraces traces).class? a := fun a => by
    rw [class?, hslot, Option.bind_some]
  have htrace : ∀ c, tables.trace? op.id k c = (SlotClasses.ofTraces traces).trace? c := fun c => by
    rw [trace?, hslot, Option.bind_some]
  have hcount : tables.classCount op.id k = (SlotClasses.ofTraces traces).count := by
    rw [classCount, hslot, Option.map_some, Option.getD_some]
  obtain ⟨firsts, hfirsts⟩ := SlotClasses.exists_firsts traces
  -- everything is now about the classes of one slot
  simp only [hclass, htrace, hcount]
  refine ⟨fun a s ha => ⟨?_, ?_, ?_⟩, fun a ha => ?_, ?_, ?_, firsts, ?_, ?_, ?_⟩
  · exact (hassigns a s ha).class?_eq_none_iff
  · exact fun c hc => (hassigns a s ha).trace?_of_class? hc
  · exact fun b s' hb c d hc hd => (hassigns a s ha).eq_iff_of_class? (hassigns b s' hb) hc hd
  · exact SlotClasses.class?_ofTraces_of_le (hlength ▸ ha)
  · exact fun c => SlotClasses.isSome_trace?_iff
  · exact fun c => SlotClasses.exists_class?_iff
  · exact hfirsts.length_eq
  · exact hfirsts.ascending
  · intro c first hc
    have hfirst := hfirsts.first c first hc
    exact ⟨hfirst.class?_eq, hfirst.le⟩

/-- With the pattern `f(a, *)`, a tree that only the wildcard matches has no class in the first slot
of `f`, but the leaf `a` has one, and that class has a first state. -/
theorem classes_stand_for_parts_of_pair : ∃ (rule : MatchRule) (tables : Transitions),
    rule.BuiltFrom [.node "f" [Tree.leaf "a", Tree.wildcard]] ∧
      build rule (rule.discover 0).table = .ok tables ∧
      ∃ op ∈ rule.signature.operators, 0 < op.arity ∧
        tables.class? op.id 0 MatchSets.wildcardState = none ∧
        ∃ c first, tables.class? op.id 0 first = some c ∧
          ∀ a, tables.class? op.id 0 a = some c → first ≤ a := by
  have hcomputed : (MatchRule.ofPatterns [.node "f" [Tree.leaf "a", Tree.wildcard]]).toOption.any
      (fun rule =>
        (build rule (rule.discover 0).table).toOption.isSome &&
        decide (⟨⟨1⟩, "f", 2⟩ ∈ rule.signature.operators) &&
        decide (rule.relevance.restrict ⟨1⟩ 0 [(rule.discover 0).table.wildcard] = []) &&
        ((rule.discover 0).table.get? ⟨1⟩).any fun s =>
          decide (rule.relevance.restrict ⟨1⟩ 0 s ≠ [])) = true := by
    decide +kernel
  obtain ⟨rule, hrule, hcomputed⟩ := MatchRule.exists_builtFrom_of_any hcomputed
  simp only [Bool.and_eq_true, decide_eq_true_eq] at hcomputed
  obtain ⟨⟨⟨hbuilds, hop⟩, hwildcard⟩, hleaf⟩ := hcomputed
  obtain ⟨s, hs, hpart⟩ := (Option.any_eq_true ..).1 hleaf
  obtain ⟨tables, htables⟩ := exists_eq_ok_of_isSome hbuilds
  obtain ⟨hstates, -, -, hclasses, firsts, hlength, -, hfirsts⟩ :=
    classes_stand_for_parts htables hop (k := 0) Nat.two_pos
  -- the first terminal is relevant in the slot, so its state has a class
  obtain ⟨c, hc⟩ := Option.ne_none_iff_exists'.1
    (mt (hstates ⟨1⟩ s hs).1.1 (of_decide_eq_true hpart))
  have hlt : c.val < firsts.length := hlength ▸ (hclasses c).1 ⟨_, hc⟩
  exact ⟨rule, tables, hrule, htables, _, hop, Nat.two_pos,
    (hstates _ _ (rule.discover 0).table.get?_zero).1.2 hwildcard, c, _,
    hfirsts c _ (List.getElem?_eq_getElem hlt)⟩

end Transitions

end TreePattern
