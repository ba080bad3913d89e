import TreePattern.Proofs.Renumbering.Discovery
import TreePattern.Proofs.Transitions.Totals

/-!
# Transition tables over two forests

Over related tables of match sets, rules that agree build the same transition tables: each slot
of an operator sorts the states into the same classes, which stand for related traces, and each
tuple of classes has the same target. The tables of the operators stand under the operators'
numbers, which differ, so totals over all of them are compared operator by operator, by name.

## Results

* `MatchRule.Agree.sameTable_build` — the tables of an operator are the same.
* `MatchRule.Agree.sameTables_build` — so all tables read alike, and have the same totals.
* `MatchRule.Agree.entries_eq`      — the projections are equally large.
-/

namespace TreePattern

namespace MatchRule

variable {rule rule' : MatchRule} {table table' : MatchSets} {op op' : Symbol}

-- ---------------------------------------------------------------------------
-- Classes
-- ---------------------------------------------------------------------------

/-- Slots that sort the states into the same classes, which stand for related traces. -/
structure SameClasses (rule rule' : MatchRule) (c c' : SlotClasses) : Prop where
  classOf : c.classOf = c'.classOf
  traces : List.Forall₂ (rule.SameTrees rule') c.traces.toList c'.traces.toList

/-- Related slots have the same number of classes. -/
theorem SameClasses.count_eq {c c' : SlotClasses} (h : rule.SameClasses rule' c c') :
    c.count = c'.count :=
  Numbering.size_eq_of_forall₂ h.traces

/-- Related sets are empty together. -/
theorem SameTrees.isEmpty_eq {s s' : List MemberId} (h : rule.SameTrees rule' s s') :
    s.isEmpty = s'.isEmpty := by
  rw [Bool.eq_iff_iff, List.isEmpty_iff, List.isEmpty_iff, ← List.length_eq_zero_iff,
    ← List.length_eq_zero_iff, h.length_eq]

/-- States with related traces fall into the same class. -/
theorem SameClasses.add {c c' : SlotClasses} (h : rule.SameClasses rule' c c')
    {s s' : List MemberId} (hs : rule.SameTrees rule' s s') :
    rule.SameClasses rule' (c.add s) (c'.add s') := by
  have hunique := biUnique_sameTrees rule rule'
  unfold SlotClasses.add
  rw [← hs.isEmpty_eq]
  split
  · exact ⟨congrArg (·.push none) h.classOf, h.traces⟩
  · refine ⟨?_, Numbering.forall₂_insert hunique h.traces hs⟩
    show c.classOf.push (some (c.traces.intern s).1) =
      c'.classOf.push (some (c'.traces.intern s').1)
    rw [h.classOf, Numbering.fst_intern_eq_of_forall₂ hunique h.traces hs]

/-- A slot of an operator sorts the states alike. -/
theorem Agree.sameClasses_slotClasses (h : rule.Agree rule') (ht : rule.SameSets rule' table table')
    (hop : rule.SameOperator rule' op op') {k : Nat} (hk : k < op.arity) :
    rule.SameClasses rule' (OperatorTable.slotClasses rule table op k)
      (OperatorTable.slotClasses rule' table' op' k) := by
  have htraces : List.Forall₂ (rule.SameTrees rule')
      (table.toList.map (rule.relevance.restrict op.id k))
      (table'.toList.map (rule'.relevance.restrict op'.id k)) :=
    List.rel_map (fun _ _ hs => h.sameTrees_restrict hop hk hs) ht.sets
  refine List.rel_foldl ?_ ⟨rfl, .nil⟩ htraces
  intro c c' hc s s' hs
  exact SameClasses.add hc hs

-- ---------------------------------------------------------------------------
-- The table of one operator
-- ---------------------------------------------------------------------------

/-- Tables of an operator with the same classes and the same targets. -/
structure SameTable (rule rule' : MatchRule) (t t' : OperatorTable) : Prop where
  slots : List.Forall₂ (rule.SameClasses rule') t.slots t'.slots
  targets : t.targets = t'.targets

/-- Related traces have the same target. -/
theorem Agree.findTarget_eq (h : rule.Agree rule') (ht : rule.SameSets rule' table table')
    (hop : rule.SameOperator rule' op op') {traces traces' : List (Array MemberId)}
    (htraces : List.Forall₂ (rule.SameSlot rule') traces traces') {q q' : StateId}
    (hq : OperatorTable.findTarget rule table op traces = .ok q)
    (hq' : OperatorTable.findTarget rule' table' op' traces' = .ok q') : q = q' := by
  have hparents := (h.sameTrees_addParents hop htraces (sameTree_wildcard rule rule')).1
  have hid := ht.idOf?_eq hparents
  rw [OperatorTable.findTarget_eq_ok hq, OperatorTable.findTarget_eq_ok hq'] at hid
  exact Option.some.inj hid

/-- The traces that tuples are chosen from are related. -/
theorem forall₂_traceSlots {slots slots' : List SlotClasses}
    (h : List.Forall₂ (rule.SameClasses rule') slots slots') :
    List.Forall₂ (fun slot slot' => List.Forall₂ (rule.SameSlot rule') slot.toList slot'.toList)
      (SlotClasses.traceSlots slots) (SlotClasses.traceSlots slots') := by
  refine List.rel_map ?_ h
  intro c c' hc
  rw [Array.toList_map, Array.toList_map]
  exact List.forall₂_map_left_iff.2 (List.forall₂_map_right_iff.2 hc.traces)

/-- Rules that agree build the same table for an operator. -/
theorem Agree.sameTable_build (h : rule.Agree rule') (ht : rule.SameSets rule' table table')
    (hop : rule.SameOperator rule' op op') {t t' : OperatorTable}
    (hb : OperatorTable.build rule table op = .ok t)
    (hb' : OperatorTable.build rule' table' op' = .ok t') : rule.SameTable rule' t t' := by
  obtain ⟨hslots, htargets⟩ := OperatorTable.build_eq_ok hb
  obtain ⟨hslots', htargets'⟩ := OperatorTable.build_eq_ok hb'
  have hsame : List.Forall₂ (rule.SameClasses rule') t.slots t'.slots := by
    rw [hslots, hslots', ← hop.same.arity, List.forall₂_map_left_iff,
      List.forall₂_map_right_iff, List.forall₂_same]
    intro k hk
    exact h.sameClasses_slotClasses ht hop (List.mem_range.1 hk)
  refine ⟨hsame, Array.toList_inj.1 ?_⟩
  -- each target on the right stands beside traces that are related to those of its place
  have hplaces := Choices.forall₂_nestedLoops (forall₂_traceSlots hsame)
  have hright : List.Forall₂ (fun traces q' => ∃ traces',
      List.Forall₂ (rule.SameSlot rule') traces traces' ∧
        OperatorTable.findTarget rule' table' op' traces' = .ok q')
      (Choices.nestedLoops (SlotClasses.traceSlots t.slots)) t'.targets.toList :=
    forall₂_trans_of_mem hplaces htargets' fun _ _ traces' _ hsame hq' => ⟨traces', hsame, hq'⟩
  refine eq_of_forall₂ htargets.flip hright.flip ?_
  intro q _ traces q' hq hq'
  obtain ⟨traces', htraces, hq'⟩ := hq'
  exact h.findTarget_eq ht hop htraces hq hq'

namespace SameTable

variable {t t' : OperatorTable}

theorem arity_eq (h : rule.SameTable rule' t t') : t.arity = t'.arity :=
  h.slots.length_eq

theorem radices_eq (h : rule.SameTable rule' t t') : t.radices = t'.radices :=
  map_eq_of_forall₂ h.slots fun _ _ hc => hc.count_eq

theorem classCount_eq (h : rule.SameTable rule' t t') : t.classCount = t'.classCount :=
  congrArg total h.radices_eq

/-- Related tables have the same number of entries. -/
theorem length_entries_eq (h : rule.SameTable rule' t t') :
    t.entries.length = t'.entries.length := by
  rw [OperatorTable.entries, OperatorTable.entries, List.length_mapIdx, List.length_mapIdx,
    h.targets]

theorem target?_eq (h : rule.SameTable rule' t t') (classes : List ClassId) :
    t.target? classes = t'.target? classes := by
  rw [OperatorTable.target?, OperatorTable.target?, h.radices_eq, h.targets]

/-- Related slots put states into the same classes. -/
theorem classesOf?_eq {slots slots' : List SlotClasses}
    (h : List.Forall₂ (rule.SameClasses rule') slots slots') (states : List StateId) :
    SlotClasses.classesOf? slots states = SlotClasses.classesOf? slots' states := by
  induction h generalizing states with
  | nil => rfl
  | cons hc _ ih =>
    cases states with
    | nil => rfl
    | cons q states =>
      have hrest := ih states
      unfold SlotClasses.classesOf? at hrest ⊢
      rw [List.zip_cons_cons, List.zip_cons_cons, List.mapM_cons, List.mapM_cons, hrest]
      dsimp only
      rw [hc.classOf]

theorem transition?_eq (h : rule.SameTable rule' t t') (states : List StateId) :
    t.transition? states = t'.transition? states := by
  unfold OperatorTable.transition?
  simp only [h.arity_eq, classesOf?_eq h.slots states, h.target?_eq]

end SameTable

-- ---------------------------------------------------------------------------
-- The tables of all operators
-- ---------------------------------------------------------------------------

/-- Tables that read alike for every symbol, and have equal totals. -/
structure SameTables (rule rule' : MatchRule) (tables tables' : Transitions) : Prop where
  operator? : ∀ s s', rule.SameSymbol rule' s s' →
    Option.Rel (rule.SameTable rule') (tables.operator? s.id) (tables'.operator? s'.id)
  totalClasses : tables.totalClasses = tables'.totalClasses
  totalEntries : tables.totalEntries = tables'.totalEntries

section Building

variable {tables tables' : Transitions}

/-- A symbol without children has no table. -/
theorem operator?_eq_none_of_arity (hb : Transitions.build rule table = .ok tables) {s : Symbol}
    (hs : rule.signature.find? s.name = some s) (harity : s.arity = 0) :
    tables.operator? s.id = none := by
  refine Transitions.operator?_eq_none_of_forall hb ?_
  intro o ho heq
  obtain ⟨ho, hne⟩ := Signature.mem_operators_iff.1 ho
  obtain rfl := Signature.eq_of_id_eq ho hs heq
  exact hne harity

/-- A symbol has the same table in both, or is no operator in either. -/
theorem Agree.rel_operator? (h : rule.Agree rule') (ht : rule.SameSets rule' table table')
    (hb : Transitions.build rule table = .ok tables)
    (hb' : Transitions.build rule' table' = .ok tables') {s s' : Symbol}
    (hs : rule.SameSymbol rule' s s') :
    Option.Rel (rule.SameTable rule') (tables.operator? s.id) (tables'.operator? s'.id) := by
  -- only operators have tables, and the symbols are operators together
  by_cases harity : s.arity = 0
  · rw [operator?_eq_none_of_arity hb hs.found harity,
      operator?_eq_none_of_arity hb' hs.found' (hs.same.arity ▸ harity)]
    exact .none
  · have hop : rule.SameOperator rule' s s' :=
      ⟨hs.same, Signature.mem_operators_iff.2 ⟨hs.found, harity⟩,
        Signature.mem_operators_iff.2 ⟨hs.found', hs.same.arity ▸ harity⟩⟩
    obtain ⟨t, htable, hfound⟩ := Transitions.operator?_of_mem hb hop.mem
    obtain ⟨t', htable', hfound'⟩ := Transitions.operator?_of_mem hb' hop.mem'
    rw [hfound, hfound']
    exact .some (h.sameTable_build ht hop htable htable')

/-- A total over the tables of all operators, if what it adds up is read off each table. -/
theorem Agree.total_tables_eq (h : rule.Agree rule') (ht : rule.SameSets rule' table table')
    (hb : Transitions.build rule table = .ok tables)
    (hb' : Transitions.build rule' table' = .ok tables') {g : OperatorTable → Nat}
    (hg : ∀ t t', rule.SameTable rule' t t' → g t = g t') :
    total (tables.operators.toList.map fun entry => g entry.2) =
      total (tables'.operators.toList.map fun entry => g entry.2) := by
  obtain ⟨built, hfst, hok, htotal⟩ := Transitions.exists_total_eq hb
  obtain ⟨built', hfst', hok', htotal'⟩ := Transitions.exists_total_eq hb'
  -- the tables were made in the order of the names, which both sides share
  have hpaired : List.Forall₂ (fun e e' => rule.SameOperator rule' e.1 e'.1) built built' := by
    have hops := h.forall₂_operators
    rwa [← hfst, ← hfst', List.forall₂_map_left_iff, List.forall₂_map_right_iff] at hops
  have hsame : List.Forall₂ (fun e e' => rule.SameTable rule' e.2 e'.2) built built' :=
    forall₂_imp_of_mem hpaired fun e he e' he' hop =>
      h.sameTable_build ht hop (hok e he) (hok' e' he')
  rw [htotal, htotal']
  exact congrArg total (map_eq_of_forall₂ hsame fun e e' hee => hg e.2 e'.2 hee)

/-- Rules that agree build the same tables. -/
theorem Agree.sameTables_build (h : rule.Agree rule') (ht : rule.SameSets rule' table table')
    (hb : Transitions.build rule table = .ok tables)
    (hb' : Transitions.build rule' table' = .ok tables') : rule.SameTables rule' tables tables' :=
  ⟨fun _ _ hs => h.rel_operator? ht hb hb' hs,
    h.total_tables_eq ht hb hb' fun _ _ htt => htt.classCount_eq,
    h.total_tables_eq ht hb hb' fun _ _ htt => htt.length_entries_eq⟩

end Building

namespace SameTables

variable {tables tables' : Transitions} {s s' : Symbol}

theorem transition?_eq (h : rule.SameTables rule' tables tables')
    (hs : rule.SameSymbol rule' s s') (states : List StateId) :
    tables.transition? s.id states = tables'.transition? s'.id states :=
  bind_eq_of_rel (h.operator? s s' hs) fun _ _ htt => htt.transition?_eq states

theorem target?_eq (h : rule.SameTables rule' tables tables')
    (hs : rule.SameSymbol rule' s s') (classes : List ClassId) :
    tables.target? s.id classes = tables'.target? s'.id classes :=
  bind_eq_of_rel (h.operator? s s' hs) fun _ _ htt => htt.target?_eq classes

/-- Slots of the same operator are there on both sides or on neither. -/
theorem rel_slot? (h : rule.SameTables rule' tables tables') (hs : rule.SameSymbol rule' s s')
    (k : Nat) :
    Option.Rel (rule.SameClasses rule') (tables.slot? s.id k) (tables'.slot? s'.id k) :=
  rel_bind (h.operator? s s' hs) fun _ _ htt => rel_getElem? htt.slots k

theorem class?_eq (h : rule.SameTables rule' tables tables') (hs : rule.SameSymbol rule' s s')
    (k : Nat) (state : StateId) : tables.class? s.id k state = tables'.class? s'.id k state := by
  refine bind_eq_of_rel (h.rel_slot? hs k) ?_
  intro c c' hc
  rw [SlotClasses.class?, SlotClasses.class?, hc.classOf]

theorem classCount_eq (h : rule.SameTables rule' tables tables')
    (hs : rule.SameSymbol rule' s s') (k : Nat) :
    tables.classCount s.id k = tables'.classCount s'.id k := by
  rw [Transitions.classCount, Transitions.classCount, Option.map_eq_bind, Option.map_eq_bind]
  refine congrArg (·.getD 0) (bind_eq_of_rel (h.rel_slot? hs k) ?_)
  intro c c' hc
  exact congrArg some hc.count_eq

end SameTables

-- ---------------------------------------------------------------------------
-- Projections
-- ---------------------------------------------------------------------------

/-- The slots of an operator have as many relevant members. -/
theorem Agree.map_size_slotsOf_eq (h : rule.Agree rule') (hop : rule.SameOperator rule' op op') :
    (Relevance.slotsOf rule.forest op).map Std.TreeSet.size =
      (Relevance.slotsOf rule'.forest op').map Std.TreeSet.size := by
  rw [Relevance.slotsOf, Relevance.slotsOf, ← hop.same.arity, List.map_map, List.map_map]
  refine List.map_congr_left ?_
  intro k _
  have hlength := (h.sameTrees_childrenAt hop k).length_eq
  rwa [Index.sorted, Index.sorted, Std.TreeSet.length_toList, Std.TreeSet.length_toList] at hlength

/-- The projections have as many entries. -/
theorem Agree.entries_eq (h : rule.Agree rule') :
    rule.relevance.entries = rule'.relevance.entries := by
  have hentries : ∀ {rule : MatchRule} {P : List Tree}, rule.BuiltFrom P →
      rule.relevance.entries = total (rule.signature.operators.map fun op =>
        total ((Relevance.slotsOf rule.forest op).map Std.TreeSet.size)) := by
    intro rule P hP
    have hdistinct := rule.signature.pairwise_operators
    rw [Relevance.entries, Relevance.ofForest_eq_ok hP.relevance, total_toList_ofList,
      List.map_map]
    · rfl
    · rw [List.pairwise_map]
      exact hdistinct
  obtain ⟨P, Q, hP, hQ, -⟩ := id h
  rw [hentries hP, hentries hQ]
  refine congrArg total (map_eq_of_forall₂ h.forall₂_operators ?_)
  intro op op' hop
  exact congrArg total (h.map_size_slotsOf_eq hop)

end MatchRule

end TreePattern
