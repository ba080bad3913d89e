import TreePattern.Transitions.Grid
import TreePattern.Proofs.Transitions.Entries

/-!
# A grid is the table of its operator

The counter runs through more tuples than there are cells, but those that are not skipped come in
the order of their numbers, and none is missing. So the cells are filled from the first to the last,
each once, and with what the table of the operator has there; where no target is found, both fail
with the same error. A cell is then found by the number of its tuple and listed with the tuple of
its number, so that a grid answers as the table does.

## Results

* `Grid.tracesOf?_eq`      — the traces of a tuple stand at its number among all choices of traces.
* `Grid.foldlM_fillCell`   — one count fills the cells, each with the target at its number.
* `Grid.build_eq`          — a grid is built just if the table is, and holds the same targets.
* `Grid.target?_ofTable`, `Grid.entries_ofTable` — and both are read alike.
* `Grid.complete_ofTable`  — so all tuples of classes have their targets, in order.
-/

namespace TreePattern

namespace Grid

variable {rule : MatchRule} {table : MatchSets} {op : Symbol} {slots : List SlotClasses}

-- ---------------------------------------------------------------------------
-- The tuples that are not skipped
-- ---------------------------------------------------------------------------

/-- The first class is read in the first slot, the others in the others. -/
theorem tracesOf?_cons (c : SlotClasses) (slots : List SlotClasses) (i : ClassId)
    (classes : List ClassId) : tracesOf? (c :: slots) (i :: classes) =
      (c.trace? i).bind fun trace => (tracesOf? slots classes).map (trace :: ·) := by
  rw [tracesOf?, List.zip_cons_cons, List.mapM_cons, ← tracesOf?]
  dsimp only
  cases c.trace? i with
  | none => rfl
  | some trace => cases tracesOf? slots classes <;> rfl

/-- The traces of a tuple of classes are what a tuple of the same digits picks. -/
theorem map_toArray_tracesOf? {digits : List Nat} (hlen : digits.length = slots.length) :
    (tracesOf? slots (digits.map Index.mk)).map (List.map List.toArray) =
      Choices.pick (SlotClasses.traceSlots slots) digits := by
  induction slots generalizing digits with
  | nil =>
    obtain rfl : digits = [] := List.length_eq_zero_iff.1 hlen
    rfl
  | cons c slots ih =>
    cases digits with
    | nil => exact absurd hlen (by simp)
    | cons d ds =>
      have hrest := ih (Nat.succ.inj hlen)
      have hget : (c.traces.values.map List.toArray)[d]? = (c.trace? ⟨d⟩).map List.toArray :=
        Array.getElem?_map
      rw [SlotClasses.traceSlots] at hrest ⊢
      rw [List.map_cons, List.map_cons, Choices.pick, ← hrest, tracesOf?_cons, hget]
      cases c.trace? ⟨d⟩ with
      | none => rfl
      | some trace => cases tracesOf? slots (ds.map Index.mk) <;> rfl

/-- The traces of a tuple stand, among all choices of traces, at the place of its number. -/
theorem tracesOf?_eq {digits : List Nat} (hlen : digits.length = slots.length) :
    (tracesOf? slots (digits.map Index.mk)).map (List.map List.toArray) =
      (MixedRadix.encode? (slots.map SlotClasses.count) digits).bind fun n =>
        (Choices.nestedLoops (SlotClasses.traceSlots slots))[n]? := by
  rw [map_toArray_tracesOf? hlen, ← SlotClasses.map_size_traceSlots]
  cases hn : MixedRadix.encode? ((SlotClasses.traceSlots slots).map Array.size) digits with
  | none => exact Choices.pick_eq_none (by rw [hlen, SlotClasses.traceSlots, List.length_map]) hn
  | some n => exact (Choices.getElem?_nestedLoops hn).symm

-- ---------------------------------------------------------------------------
-- Filling cell by cell
-- ---------------------------------------------------------------------------

/-- Enters the target of the choice of traces at place `n` into the cell with that number. -/
def fillAt (rule : MatchRule) (table : MatchSets) (op : Symbol)
    (choices : List (List (Array MemberId))) (cells : Array (Option StateId)) (n : Nat) :
    Except BuildError (Array (Option StateId)) :=
  match choices[n]? with
  | none => .ok cells
  | some traces => do
    let target ← OperatorTable.findTarget rule table op traces
    putAt cells n (some target)

/-- A tuple without a number is skipped. -/
theorem fillCell_of_encode?_eq_none {digits : List Nat} (hlen : digits.length = slots.length)
    (hn : MixedRadix.encode? (slots.map SlotClasses.count) digits = none)
    (cells : Array (Option StateId)) :
    fillCell rule table.states op slots cells digits = .ok cells := by
  have htraces := tracesOf?_eq hlen
  rw [hn, Option.bind_none, Option.map_eq_none_iff] at htraces
  rw [fillCell, htraces]

/-- Any other tuple fills the cell of its number. -/
theorem fillCell_of_encode?_eq_some {digits : List Nat} {n : Nat}
    (hlen : digits.length = slots.length)
    (hn : MixedRadix.encode? (slots.map SlotClasses.count) digits = some n)
    (cells : Array (Option StateId)) : fillCell rule table.states op slots cells digits =
      fillAt rule table op (Choices.nestedLoops (SlotClasses.traceSlots slots)) cells n := by
  have htraces := tracesOf?_eq hlen
  rw [hn, Option.bind_some] at htraces
  rw [fillCell, MixedRadix.offset?_eq_encode?, hn, fillAt, ← htraces]
  cases tracesOf? slots (digits.map Index.mk) with
  | none => rfl
  | some traces => rfl

/-- The cells when the first of them hold the given targets and `m` are still empty. -/
def partlyFilled (targets : List StateId) (m : Nat) : Array (Option StateId) :=
  (targets.map some ++ List.replicate m none).toArray

/-- Writing the next target moves the border between filled and empty cells by one. -/
theorem set_partlyFilled (targets : List StateId) (m : Nat) (target : StateId)
    (h : targets.length < (partlyFilled targets (m + 1)).size) :
    (partlyFilled targets (m + 1)).set targets.length (some target) =
      partlyFilled (targets ++ [target]) m := by
  refine Array.toList_inj.1 ?_
  rw [Array.toList_set]
  have hlen : targets.length = (targets.map some).length := (List.length_map _).symm
  simp only [partlyFilled, List.replicate_succ, List.map_append, List.append_assoc]
  rw [hlen, List.set_append_right _ _ (Nat.le_refl _), Nat.sub_self]
  rfl

/-- Filled and empty cells together. -/
theorem size_partlyFilled (targets : List StateId) (m : Nat) :
    (partlyFilled targets m).size = targets.length + m := by
  simp [partlyFilled]

/-- The first empty cell takes the target of the choice at its place. -/
theorem fillAt_partlyFilled {choices : List (List (Array MemberId))} {targets : List StateId}
    {traces : List (Array MemberId)} (m : Nat) (h : choices[targets.length]? = some traces) :
    fillAt rule table op choices (partlyFilled targets (m + 1)) targets.length =
      (OperatorTable.findTarget rule table op traces).map fun target =>
        partlyFilled (targets ++ [target]) m := by
  have hsize : targets.length < (partlyFilled targets (m + 1)).size := by
    rw [size_partlyFilled]
    omega
  simp only [fillAt, h, putAt_of_lt hsize, set_partlyFilled]
  cases OperatorTable.findTarget rule table op traces <;> rfl

/-- From the first empty cell on, the cells are filled with the targets that are still to be
found. -/
theorem foldlM_fillAt (done rest : List (List (Array MemberId))) (targets : List StateId)
    (hlen : targets.length = done.length) :
    (List.range' targets.length rest.length).foldlM (fillAt rule table op (done ++ rest))
        (partlyFilled targets rest.length) =
      (rest.mapM (OperatorTable.findTarget rule table op)).map fun found =>
        partlyFilled (targets ++ found) 0 := by
  induction rest generalizing done targets with
  | nil =>
    rw [List.mapM_nil]
    show Except.ok (partlyFilled targets 0) = Except.ok (partlyFilled (targets ++ []) 0)
    rw [List.append_nil]
  | cons traces rest ih =>
    have hget : (done ++ traces :: rest)[targets.length]? = some traces := by
      rw [hlen, List.getElem?_append_right (Nat.le_refl _), Nat.sub_self]
      rfl
    rw [List.length_cons, List.range'_succ, List.foldlM_cons, List.mapM_cons,
      fillAt_partlyFilled _ hget]
    -- both sides stop at the first target that is missing
    cases OperatorTable.findTarget rule table op traces with
    | error e => rfl
    | ok target =>
      have hrest := ih (done ++ [traces]) (targets ++ [target]) (by simp [hlen])
      rw [List.length_append, List.append_assoc] at hrest
      refine hrest.trans ?_
      cases rest.mapM (OperatorTable.findTarget rule table op) with
      | error e => rfl
      | ok found =>
        show Except.ok (partlyFilled (targets ++ [target] ++ found) 0) =
          Except.ok (partlyFilled (targets ++ target :: found) 0)
        rw [List.append_assoc]
        rfl

-- ---------------------------------------------------------------------------
-- A grid is a table
-- ---------------------------------------------------------------------------

/-- The grid that holds the targets of a table. -/
def ofTable (t : OperatorTable) : Grid := ⟨t.op, t.slots, t.targets.map some⟩

/-- One count through the tuples finds all targets and fills all cells. -/
theorem foldlM_fillCell (rule : MatchRule) (table : MatchSets) (op : Symbol)
    (slots : List SlotClasses) : Enumeration.foldlM (fillCell rule table.states op slots)
        (Array.replicate (MixedRadix.volume (slots.map SlotClasses.count)) none)
        (TupleCounter.ofBase ((slots.map SlotClasses.count).foldr max 0) slots.length) =
      ((OperatorTable.traceTuples slots).mapM (OperatorTable.findTarget rule table op)).map
        fun targets => (targets.map some).toArray := by
  have hmax : ∀ r ∈ slots.map SlotClasses.count, r ≤ (slots.map SlotClasses.count).foldr max 0 :=
    fun _ hr => List.le_max_of_le' 0 hr le_rfl
  have hnumbers := Choices.filterMap_encode?_tuples hmax
  have hvolume := SlotClasses.length_nestedLoops_traceSlots slots
  rw [List.length_map, ← hvolume, List.range_eq_range'] at hnumbers
  have hlen : ∀ digits ∈ Enumeration.toList (TupleCounter.ofBase
      ((slots.map SlotClasses.count).foldr max 0) slots.length), digits.length = slots.length :=
    fun digits hdigits => (TupleCounter.isTuple_of_mem_toList _ digits hdigits).1
  -- tuples with a digit out of range write nothing, and the others are the cell numbers in order
  rw [Enumeration.foldlM_eq_foldlM_toList, foldlM_eq_foldlM_filterMap
    (fun digits hdigits hn => fillCell_of_encode?_eq_none (hlen digits hdigits) hn)
    fun digits hdigits _ hn => fillCell_of_encode?_eq_some (hlen digits hdigits) hn,
    TupleCounter.toList_ofBase, hnumbers, ← hvolume, OperatorTable.traceTuples,
    Choices.toList_ofSlots]
  refine (foldlM_fillAt [] (Choices.nestedLoops (SlotClasses.traceSlots slots)) [] rfl).trans ?_
  refine congrArg (Except.map · _) (funext fun found => ?_)
  simp [partlyFilled]

/-- The classes of a grid are those of the table of the same states. -/
theorem slotClasses_states (rule : MatchRule) (table : MatchSets) (op : Symbol) :
    slotClasses rule table.states op = OperatorTable.slotClasses rule table op := rfl

/-- A grid is built just if the table is, holds the same targets, and fails as the table does. -/
theorem build_eq (rule : MatchRule) (table : MatchSets) (op : Symbol) :
    build rule table op = (OperatorTable.build rule table op).map ofTable := by
  have hcells := foldlM_fillCell rule table op
    ((List.range op.arity).map (OperatorTable.slotClasses rule table op))
  rw [List.length_map, List.length_range] at hcells
  simp only [build, make, slotClasses_states, hcells, OperatorTable.build]
  cases (OperatorTable.traceTuples _).mapM (OperatorTable.findTarget rule table op) with
  | error e => rfl
  | ok targets => simp [Except.map, ofTable, bind, Except.bind, pure, Except.pure]

-- ---------------------------------------------------------------------------
-- Reading a filled grid
-- ---------------------------------------------------------------------------

/-- A cell holds the target that the table gives for its classes. -/
theorem target?_ofTable (t : OperatorTable) (classes : List ClassId) :
    (ofTable t).target? classes = t.target? classes := by
  rw [target?, MixedRadix.offset?_eq_encode?, OperatorTable.target?]
  refine Option.bind_congr fun n _ => ?_
  show (t.targets.map some)[n]?.join = t.targets[n]?
  rw [Array.getElem?_map]
  cases t.targets[n]? <;> rfl

/-- A grid that is filled like a table lists the entries of the table. -/
theorem entries_ofTable {t : OperatorTable} (h : OperatorTable.build rule table op = .ok t) :
    (ofTable t).entries = t.entries := by
  have hcell : ∀ cell ∈ t.targets.toList.zipIdx,
      MixedRadix.digitsOf t.radices cell.2 = MixedRadix.decode t.radices cell.2 := by
    intro cell hcell
    have hlt : cell.2 < t.targets.size := (List.mem_zipIdx' hcell).1
    exact MixedRadix.digitsOf_eq_decode (OperatorTable.size_targets_of_build h ▸ hlt)
  rw [OperatorTable.entries, List.mapIdx_eq_zipIdx_map, entries, ofTable, Array.toList_map,
    List.zipIdx_map, List.filterMap_map]
  refine (List.filterMap_congr fun cell hmem => ?_).trans (congrFun List.filterMap_eq_map _)
  show some ((MixedRadix.digitsOf t.radices cell.2).map Index.mk, cell.1) = _
  rw [hcell cell hmem]
  rfl

/-- A grid filled like a table has a cell for each tuple of classes. -/
theorem size_cells_ofTable {t : OperatorTable} (h : OperatorTable.build rule table op = .ok t) :
    (ofTable t).cells.size = MixedRadix.volume (ofTable t).radices := by
  rw [ofTable, Array.size_map]
  exact OperatorTable.size_targets_of_build h

/-- Where there is a cell, each place of its tuple has digits, so no division fails. -/
theorem listing_eq {g : Grid} (h : g.cells.size = MixedRadix.volume g.radices) :
    g.listing = .ok g.entries := by
  have hentries : g.entries = g.filled.map fun entry =>
      ((MixedRadix.digitsOf g.radices entry.1).map Index.mk, entry.2) := by
    rw [entries, filled, List.map_filterMap]
    refine List.filterMap_congr fun (target, n) _ => ?_
    cases target with
    | none => rfl
    | some state => rfl
  rw [hentries]
  refine mapM_eq_ok_iff.2 (List.forall₂_map_right_iff.2 (List.forall₂_same.2 fun entry hentry => ?_))
  obtain ⟨cell, hcell, hfound⟩ := List.mem_filterMap.1 hentry
  obtain ⟨state, -, rfl⟩ := Option.map_eq_some_iff.1 hfound
  -- the number of a cell is below the volume, so it has digits
  have hlt : cell.2 < g.cells.size := (List.mem_zipIdx' hcell).1
  rw [h] at hlt
  exact bind_eq_ok_iff.2 ⟨_, found_eq_ok_iff.2 (MixedRadix.digitsOf?_eq_some hlt), rfl⟩

/-- The cell of a tuple with a number is there. -/
theorem cellOf_eq {g : Grid} (h : g.cells.size = MixedRadix.volume g.radices)
    (classes : List ClassId) : g.cellOf classes = .ok (g.target? classes) := by
  rw [cellOf, target?]
  cases hn : MixedRadix.offset? g.radices (classes.map Index.val) with
  | none => rfl
  | some n =>
    rw [MixedRadix.offset?_eq_encode?] at hn
    have hlt : n < g.cells.size := h ▸ MixedRadix.encode?_lt_volume hn
    have hcell := Array.getElem?_eq_getElem hlt
    dsimp only
    rw [hcell, Option.bind_some, hcell]
    rfl

/-- A grid answers for states as its table does, and no look-up fails. -/
theorem transition_ofTable {t : OperatorTable} (h : OperatorTable.build rule table op = .ok t)
    (states : List StateId) : (ofTable t).transition states = .ok (t.transition? states) := by
  have hslots : (ofTable t).slots = t.slots := rfl
  rw [transition, OperatorTable.transition?, hslots]
  by_cases hlen : states.length = t.slots.length
  · rw [if_pos hlen, if_pos (show states.length = t.arity from hlen)]
    -- a state is unknown, or is in no class of its slot, or all of them name a cell
    cases SlotClasses.classesOf? t.slots states with
    | none => rfl
    | some classes =>
      rw [Option.bind_eq_bind, Option.bind_some]
      dsimp only
      cases classes.mapM id with
      | none => rfl
      | some classes =>
        dsimp only
        rw [cellOf_eq (size_cells_ofTable h), target?_ofTable]
  · rw [if_neg hlen, if_neg (show ¬ states.length = t.arity from hlen)]

/-- The grid has the slots of the table, and every look-up in it finds what the table has. -/
structure Records (g : Grid) (t : OperatorTable) : Prop where
  slots_eq : g.slots = t.slots
  listing_eq : g.listing = .ok t.entries
  transition_eq : ∀ states, g.transition states = .ok (t.transition? states)

/-- A finished table is what its grid records. -/
theorem records_ofTable {t : OperatorTable} (h : OperatorTable.build rule table op = .ok t) :
    (ofTable t).Records t where
  slots_eq := rfl
  listing_eq := by rw [listing_eq (size_cells_ofTable h), entries_ofTable h]
  transition_eq := transition_ofTable h

/-- What the grid of an operator holds. -/
structure Complete (rule : MatchRule) (table : MatchSets) (op : Symbol) (g : Grid) : Prop where
  /-- Each slot has the classes of the states there. -/
  slots_eq : g.slots = (List.range op.arity).map (OperatorTable.slotClasses rule table op)
  /-- Just the tuples of classes have a target. -/
  isSome_target?_iff : ∀ classes, (g.target? classes).isSome ↔
    List.Forall₂ (fun c r => c.val < r) classes g.radices
  /-- Each is listed with its target. -/
  mem_entries_iff : ∀ classes state, (classes, state) ∈ g.entries ↔ g.target? classes = some state
  /-- The tuples that are listed ascend, the leftmost class counting most. -/
  ascending : (g.entries.map Prod.fst).Pairwise (List.Lex (· < ·))
  /-- There are as many as the numbers of classes multiply to. -/
  length_entries : g.entries.length = MixedRadix.volume g.radices
  /-- A target is the state of the set that consists of the wildcard and of the members that are
  rooted at the operator and whose children lie in the traces of the classes. -/
  target : ∀ classes state, g.target? classes = some state → ∃ traces set,
    tracesOf? g.slots classes = some traces ∧ table.idOf? set = some state ∧
      set.Pairwise (· < ·) ∧ ∀ i, i ∈ set ↔ i = rule.forest.wildcard ∨ ∃ children,
        rule.forest.node? i = some ⟨op.id, children⟩ ∧ List.Forall₂ (· ∈ ·) children traces

/-- The grid of a built table has all that it should. -/
theorem complete_ofTable {t : OperatorTable} (h : OperatorTable.build rule table op = .ok t) :
    (ofTable t).Complete rule table op := by
  have hentries := entries_ofTable h
  refine ⟨(OperatorTable.build_eq_ok h).1, fun classes => ?_, fun classes state => ?_, ?_, ?_, ?_⟩
  · rw [target?_ofTable]
    exact OperatorTable.isSome_target?_iff h
  · rw [hentries, target?_ofTable]
    exact OperatorTable.mem_entries_iff h
  · rw [hentries]
    exact OperatorTable.pairwise_entries h
  · rw [hentries]
    exact OperatorTable.length_entries h
  · intro classes state htarget
    rw [target?_ofTable] at htarget
    obtain ⟨picked, set, hpick, hset, hascending, hmem⟩ :=
      OperatorTable.exists_set_of_target? h htarget
    have hlen : (classes.map Index.val).length = t.slots.length := by
      have hclasses := (OperatorTable.isSome_target?_iff h).1 (Option.isSome_of_eq_some htarget)
      rw [List.length_map, hclasses.length_eq, OperatorTable.radices, List.length_map]
    -- the table speaks of picked arrays, the grid of the traces behind them
    rw [← map_toArray_tracesOf? hlen, Index.map_mk_map_val] at hpick
    obtain ⟨traces, htraces, rfl⟩ := Option.map_eq_some_iff.1 hpick
    refine ⟨traces, set, htraces, hset, hascending, fun i => ?_⟩
    simp only [hmem, List.forall₂_map_right_iff, List.mem_toArray]

end Grid

end TreePattern
