import TreePattern.Transitions.SlotClasses
import TreePattern.Proofs.Enumeration.NestedLoops
import Mathlib.Data.List.Induction

/-!
# Which class a state gets

After all states have been classified, a state with an empty trace has no class, and any other
state has the class that stands for its trace. For a tuple of states, one for each slot, the
classes are then the digits under which the tuple of traces is reached by the nested loops over
all traces.

## Results

* `SlotClasses.assigns_ofTraces`     — every state is assigned by its own trace.
* `SlotClasses.mem_of_mem_traces`    — every class stands for the trace of a state.
* `SlotClasses.AssignsAll.classes`   — the classes of relevant states pick their traces.
-/

namespace TreePattern

namespace SlotClasses

/-- The state, whose trace is given, got its class by that trace. -/
inductive Assigns (c : SlotClasses) (state : StateId) : List MemberId → Prop
  | irrelevant : c.classOf[state.val]? = some none → Assigns c state []
  | relevant {trace : List MemberId} {id : ClassId} : trace ≠ [] →
      c.classOf[state.val]? = some (some id) → c.traces.get? id = some trace → Assigns c state trace

-- ---------------------------------------------------------------------------
-- One slot
-- ---------------------------------------------------------------------------

/-- A state with a relevant part has a class, and the part is the trace of that class. -/
theorem Assigns.exists_trace? {c : SlotClasses} {state : StateId} {trace : List MemberId}
    (h : c.Assigns state trace) (hne : trace ≠ []) : ∃ id, c.trace? id = some trace := by
  cases h with
  | irrelevant => exact absurd rfl hne
  | relevant _ _ htrace => exact ⟨_, htrace⟩

/-- Every state takes one entry, whether it is in a class or not. -/
theorem size_classOf_add (c : SlotClasses) (trace : List MemberId) :
    (c.add trace).classOf.size = c.classOf.size + 1 := by
  unfold add
  split
  · exact Array.size_push ..
  · exact Array.size_push ..

/-- Classifying one more state does not touch the ones before it. -/
theorem Assigns.add {c : SlotClasses} {state : StateId} {trace : List MemberId}
    (h : c.Assigns state trace) (new : List MemberId) : (c.add new).Assigns state trace := by
  have hkeep : ∀ {o}, c.classOf[state.val]? = some o →
      (c.add new).classOf[state.val]? = some o := by
    intro o ho
    -- a new entry goes to the end, so the entry of an earlier state stays where it is
    have hne := Nat.ne_of_lt (Array.getElem?_eq_some_iff.1 ho).1
    unfold SlotClasses.add
    split
    · rw [Array.getElem?_push, if_neg hne]; exact ho
    · rw [Array.getElem?_push, if_neg hne]; exact ho
  cases h with
  | irrelevant hc => exact .irrelevant (hkeep hc)
  | relevant hne hc ht =>
    refine .relevant hne (hkeep hc) ?_
    unfold SlotClasses.add
    split
    · exact ht
    · exact Numbering.get?_insert_of_get? ht

/-- A state is assigned the trace it is added with. -/
theorem assigns_add_self (c : SlotClasses) (trace : List MemberId) :
    (c.add trace).Assigns ⟨c.classOf.size⟩ trace := by
  by_cases h : trace = []
  · subst h
    exact .irrelevant (by simp [add])
  · have hne : trace.isEmpty = false := by simp [h]
    have hclass : (c.add trace).classOf[c.classOf.size]? =
        some (some (c.traces.intern trace).1) := by
      simp [add, hne]
    refine .relevant h hclass ?_
    rw [← Numbering.idOf?_eq_some_iff]
    simp only [add, hne]
    exact Numbering.idOf?_insert_self ..

/-- There is an entry for each state. -/
theorem size_classOf_ofTraces (traces : List (List MemberId)) :
    (ofTraces traces).classOf.size = traces.length := by
  induction traces using List.reverseRecOn with
  | nil => rfl
  | append_singleton traces trace ih =>
    rw [ofTraces, List.foldl_concat, size_classOf_add, ← ofTraces, ih, List.length_append]
    rfl

/-- A state is assigned its trace, whatever states come after it. -/
theorem assigns_ofTraces {traces : List (List MemberId)} {state : StateId}
    {trace : List MemberId} (h : traces[state.val]? = some trace) :
    (ofTraces traces).Assigns state trace := by
  induction traces using List.reverseRecOn with
  | nil => exact absurd h (by simp)
  | append_singleton traces last ih =>
    rw [ofTraces, List.foldl_concat, ← ofTraces]
    rw [List.getElem?_append] at h
    split at h
    · exact (ih h).add last
    · next hge =>
      -- the last state: its number is the number of states before it
      have hval : state.val = traces.length := by
        have := (List.getElem?_eq_some_iff.1 h).1
        rw [List.length_singleton] at this
        omega
      have hstate : state = ⟨(ofTraces traces).classOf.size⟩ :=
        Index.ext_iff.2 (by rw [size_classOf_ofTraces]; exact hval)
      rw [hval, Nat.sub_self] at h
      obtain rfl : last = trace := Option.some.inj h
      rw [hstate]
      exact assigns_add_self ..

/-- Only traces of states are stored. -/
theorem mem_of_mem_traces {traces : List (List MemberId)} {trace : List MemberId}
    (h : trace ∈ (ofTraces traces).traces.toList) : trace ∈ traces := by
  induction traces using List.reverseRecOn with
  | nil => exact h
  | append_singleton traces last ih =>
    rw [ofTraces, List.foldl_concat, ← ofTraces, add] at h
    rw [List.mem_append, List.mem_singleton]
    split at h
    · exact Or.inl (ih h)
    · have h : trace ∈ ((ofTraces traces).traces.insert last).toList := h
      rw [Numbering.toList_insert] at h
      split at h
      · exact Or.inl (ih h)
      · exact (List.mem_append.1 h).imp ih List.mem_singleton.1

/-- A class that a state is in is one of those counted. -/
theorem val_lt_count_of_class? {traces : List (List MemberId)} {state : StateId} {id : ClassId}
    (h : (ofTraces traces).class? state = some id) : id.val < (ofTraces traces).count := by
  have hclass : (ofTraces traces).classOf[state.val]? = some (some id) :=
    Option.join_eq_some_iff.1 h
  have hlt := (Array.getElem?_eq_some_iff.1 hclass).1
  rw [size_classOf_ofTraces] at hlt
  -- the state has an entry, so it is one of those the traces were made from
  obtain ⟨trace, htrace⟩ : ∃ trace, traces[state.val]? = some trace :=
    ⟨_, List.getElem?_eq_getElem hlt⟩
  cases assigns_ofTraces htrace with
  | irrelevant hnone =>
    rw [hclass] at hnone
    exact absurd hnone (by simp)
  | relevant hne hsome htrace =>
    rw [hclass] at hsome
    obtain rfl := Option.some.inj (Option.some.inj hsome)
    exact Numbering.val_lt_size_of_get? htrace

-- ---------------------------------------------------------------------------
-- One state for each slot
-- ---------------------------------------------------------------------------

/-- Slots, states and traces stand side by side, each state assigned by its trace. -/
inductive AssignsAll : List SlotClasses → List StateId → List (List MemberId) → Prop
  | nil : AssignsAll [] [] []
  | cons {c : SlotClasses} {state : StateId} {trace : List MemberId} {cs : List SlotClasses}
      {states : List StateId} {traces : List (List MemberId)} :
      c.Assigns state trace → AssignsAll cs states traces →
      AssignsAll (c :: cs) (state :: states) (trace :: traces)

/-- The traces of all classes of each slot. -/
def traceSlots (slots : List SlotClasses) : List (Array (Array MemberId)) :=
  slots.map fun c => c.traces.values.map List.toArray

/-- There is a choice for each class of a slot. -/
theorem map_size_traceSlots (slots : List SlotClasses) :
    (traceSlots slots).map Array.size = slots.map count := by
  rw [traceSlots, List.map_map]
  exact List.map_congr_left fun c _ => Array.size_map

/-- There are as many tuples of traces as of classes. -/
theorem length_nestedLoops_traceSlots (slots : List SlotClasses) :
    (Choices.nestedLoops (traceSlots slots)).length = MixedRadix.volume (slots.map count) := by
  rw [Choices.length_nestedLoops, map_size_traceSlots]

/-- If every state is relevant, the classes are the digits of a tuple, and the nested loops
reach the states' own traces under that tuple. -/
theorem AssignsAll.classes {slots : List SlotClasses} {states : List StateId}
    {traces : List (List MemberId)} (h : AssignsAll slots states traces)
    (hne : ∀ trace ∈ traces, trace ≠ []) :
    ∃ (classes : List ClassId) (n : Nat),
      classesOf? slots states = some (classes.map some) ∧
      MixedRadix.encode? (slots.map count) (classes.map Index.val) = some n ∧
      Choices.pick (traceSlots slots) (classes.map Index.val) =
        some (traces.map List.toArray) := by
  induction h with
  | nil => exact ⟨[], 0, rfl, rfl, rfl⟩
  | @cons c state trace cs states traces ha _ ih =>
    -- the classes of the later slots come from the induction; this slot has one as its trace is not
    -- empty
    obtain ⟨classes, n, hclasses, hn, hpick⟩ := ih fun t ht => hne t (List.mem_cons_of_mem _ ht)
    cases ha with
    | irrelevant => exact absurd rfl (hne [] List.mem_cons_self)
    | @relevant _ id _ hclass htrace =>
      have hlt : id.val < c.count := Numbering.val_lt_size_of_get? htrace
      have hget : (c.traces.values.map List.toArray)[id.val]? = some trace.toArray := by
        rw [Array.getElem?_map, show c.traces.values[id.val]? = some trace from htrace]
        rfl
      refine ⟨id :: classes, id.val * MixedRadix.volume (cs.map count) + n, ?_, ?_, ?_⟩
      · rw [classesOf?, List.zip_cons_cons, List.mapM_cons]
        unfold classesOf? at hclasses
        simp [hclass, hclasses]
      · rw [List.map_cons, List.map_cons, MixedRadix.encode?, if_pos hlt, hn]
        rfl
      · rw [traceSlots] at hpick ⊢
        rw [List.map_cons, List.map_cons, Choices.pick, hget]
        simp [hpick]

/-- If a state is irrelevant in its slot, it has no class there. -/
theorem AssignsAll.none_mem {slots : List SlotClasses} {states : List StateId}
    {traces : List (List MemberId)} (h : AssignsAll slots states traces) :
    ∃ classes, classesOf? slots states = some classes ∧ ([] ∈ traces → none ∈ classes) := by
  induction h with
  | nil => exact ⟨[], rfl, by simp⟩
  | cons ha _ ih =>
    obtain ⟨classes, hclasses, hmem⟩ := ih
    unfold classesOf? at hclasses
    cases ha with
    | irrelevant hclass =>
      refine ⟨none :: classes, ?_, fun _ => List.mem_cons_self⟩
      rw [classesOf?, List.zip_cons_cons, List.mapM_cons]
      simp [hclass, hclasses]
    | @relevant _ id hne hclass _ =>
      refine ⟨some id :: classes, ?_, fun hnil => ?_⟩
      · rw [classesOf?, List.zip_cons_cons, List.mapM_cons]
        simp [hclass, hclasses]
      -- this trace is not empty, so the empty one is among the others
      · rcases List.mem_cons.1 hnil with heq | hnil
        · exact absurd heq.symm hne
        · exact List.mem_cons_of_mem _ (hmem hnil)

end SlotClasses

end TreePattern
