import TreePattern.Proofs.BuiltFrom
import TreePattern.Relevance.Collect

/-!
# The projection, slot by slot and member by member

Asking for each slot what stands there, or entering the children of one member after the other, is
the same: a slot gets its members in the same order either way. So both ways to the projection have
the same result, and they fail over the same forests, namely if some member has more children than
its operator has slots. The result is exact: a slot is there for every position of an operator and
nowhere else, and holds what stands at that position under some member.

## Results

* `Relevance.foldlM_enter`         — what the slots hold after some rows of children.
* `Relevance.collectSlots_eq`      — the slots of one operator.
* `Relevance.collect_eq_ofForest`  — both ways to the projection.
* `Relevance.exact_ofForest`       — the projection is exact.
-/

namespace TreePattern

namespace Relevance

-- ---------------------------------------------------------------------------
-- Entering rows of children
-- ---------------------------------------------------------------------------

/-- A row of children that fits adds to each slot the child at its position, if there is one. -/
theorem enter_of_le {slots : List (Std.TreeSet MemberId)} {row : List MemberId}
    (h : row.length ≤ slots.length) :
    enter slots row = .ok (slots.mapIdx fun k slot => slot.insertMany row[k]?.toList) := by
  induction slots generalizing row with
  | nil =>
    obtain rfl := List.length_eq_zero_iff.1 (Nat.le_zero.1 h)
    rw [enter]
    rfl
  | cons slot slots ih =>
    -- a row that ends early leaves the other slots as they are
    cases row with
    | nil =>
      rw [enter]
      refine congrArg Except.ok (List.ext_getElem (by simp) fun k _ _ => ?_)
      rw [List.getElem_mapIdx, List.getElem?_nil]
      exact Std.TreeSet.insertMany_nil.symm
    | cons child row =>
      rw [enter, ih (Nat.le_of_succ_le_succ h), List.mapIdx_cons]
      simp only [List.getElem?_cons_zero, List.getElem?_cons_succ, Option.toList_some,
        Std.TreeSet.insertMany_list_singleton]
      rfl

/-- A row that is too long has no place for its last child. -/
theorem enter_of_lt {slots : List (Std.TreeSet MemberId)} {row : List MemberId}
    (h : slots.length < row.length) : enter slots row = .error .outOfRange := by
  induction slots generalizing row with
  | nil =>
    cases row with
    | nil => exact absurd h (Nat.lt_irrefl _)
    | cons child row => rw [enter]
  | cons slot slots ih =>
    cases row with
    | nil => exact absurd h (Nat.not_lt_zero _)
    | cons child row =>
      rw [enter, ih (Nat.lt_of_succ_lt_succ h)]
      rfl

/-- After rows of children that fit, a slot has in addition what stands at its position in them, in
the order of the rows. -/
theorem foldlM_enter {slots : List (Std.TreeSet MemberId)} {rows : List (List MemberId)}
    (h : ∀ row ∈ rows, row.length ≤ slots.length) :
    rows.foldlM enter slots =
      .ok (slots.mapIdx fun k slot => slot.insertMany (rows.filterMap (·[k]?))) := by
  induction rows generalizing slots with
  | nil => exact congrArg Except.ok (List.ext_getElem (by simp) fun k _ _ => by simp)
  | cons row rows ih =>
    refine foldlM_cons_eq_ok_iff.2 ⟨_, enter_of_le (h row List.mem_cons_self), ?_⟩
    rw [ih fun r hr => by simpa using h r (List.mem_cons_of_mem _ hr), List.mapIdx_mapIdx]
    refine congrArg Except.ok (congrArg (List.mapIdx · slots) (funext₂ fun k slot => ?_))
    -- the first row reaches this slot, or it does not
    cases hk : row[k]? with
    | none => simp [hk]
    | some child =>
      have hrows : (row :: rows).filterMap (·[k]?) = child :: rows.filterMap (·[k]?) :=
        List.filterMap_cons_some hk
      rw [hrows, Std.TreeSet.insertMany_cons]
      exact congrArg (Std.TreeSet.insertMany · _) Std.TreeSet.insertMany_list_singleton

/-- A row that is longer than there are slots ends the collection. -/
theorem foldlM_enter_of_lt {slots : List (Std.TreeSet MemberId)} {rows : List (List MemberId)}
    (h : ∃ row ∈ rows, slots.length < row.length) :
    rows.foldlM enter slots = .error .outOfRange := by
  induction rows generalizing slots with
  | nil => exact absurd h (by simp)
  | cons row rows ih =>
    rw [List.foldlM_cons]
    rcases Nat.lt_or_ge slots.length row.length with hlt | hge
    · rw [enter_of_lt hlt]
      rfl
    · rw [enter_of_le hge]
      refine ih ?_
      rw [List.exists_mem_cons_iff] at h
      rw [List.length_mapIdx]
      exact h.resolve_left (Nat.not_lt_of_ge hge)

-- ---------------------------------------------------------------------------
-- Collecting
-- ---------------------------------------------------------------------------

variable {sig : Signature} {f : Forest} {r : Relevance}

/-- The members with a given root have nodes, so their rows of children are read without fail. -/
theorem exists_rows (f : Forest) (op : SymbolId) : ∃ rows : List (List MemberId),
    List.Forall₂ (fun i row => ∃ node, f.node? i = some node ∧ node.children = row)
      (f.withRoot op) rows := by
  have hnodes : ∀ i ∈ f.withRoot op, ∃ row, f.childrenOf i = .ok row := by
    intro i hi
    obtain ⟨node, hnode, -⟩ := Forest.mem_withRoot_iff.1 hi
    exact ⟨node.children, bind_eq_ok_iff.2 ⟨node, found_eq_ok_iff.2 hnode, rfl⟩⟩
  obtain ⟨rows, hrows⟩ := exists_mapM_eq_ok hnodes
  refine ⟨rows, (mapM_eq_ok_iff.1 hrows).imp fun i row hrow => ?_⟩
  obtain ⟨node, hnode, hchildren⟩ := bind_eq_ok_iff.1 hrow
  exact ⟨node, found_eq_ok_iff.1 hnode, Except.ok.inj hchildren⟩

/-- Collecting the slots of one operator is asking for each of them, as long as there are enough. -/
theorem collectSlots_eq (f : Forest) (op : Symbol) :
    collectSlots f op = if fits f op then .ok (slotsOf f op) else .error .outOfRange := by
  obtain ⟨rows, hrows⟩ := exists_rows f op.id
  have hcollect : collectSlots f op = rows.foldlM enter (List.replicate op.arity ∅) := by
    unfold collectSlots
    generalize List.replicate op.arity (∅ : Std.TreeSet MemberId) = slots
    generalize f.withRoot op.id = members at hrows
    induction hrows generalizing slots with
    | nil => rfl
    | cons hrow _ ih =>
      obtain ⟨node, hnode, rfl⟩ := hrow
      rw [List.foldlM_cons, List.foldlM_cons, Forest.childrenOf, hnode]
      exact congrArg _ (funext ih)
  -- whether the children fit can be asked of the members or of their rows
  have hfits : fits f op = true ↔ ∀ row ∈ rows, row.length ≤ op.arity := by
    rw [fits, List.all_eq_true]
    constructor
    · intro h row hrow
      obtain ⟨i, hi, node, hnode, rfl⟩ := exists_of_mem_right hrows hrow
      simpa [hnode] using h i hi
    · intro h i hi
      obtain ⟨row, hrow, node, hnode, rfl⟩ := exists_of_mem_left hrows hi
      simpa [hnode] using h _ hrow
  have hchildren : ∀ k, childrenAt f op.id k = rows.filterMap (·[k]?) := by
    intro k
    rw [childrenAt]
    clear hcollect hfits
    generalize f.withRoot op.id = members at hrows ⊢
    induction hrows with
    | nil => rfl
    | cons hrow _ ih =>
      obtain ⟨node, hnode, rfl⟩ := hrow
      rw [List.filterMap_cons, List.filterMap_cons, ih, hnode, Option.bind_some]
  rw [hcollect]
  -- rows that fit fill the slots, and one that does not makes both sides fail
  by_cases hall : fits f op = true
  · rw [if_pos hall, foldlM_enter (by simpa using hfits.1 hall)]
    refine congrArg Except.ok (List.ext_getElem (by simp [slotsOf]) fun k hk hk' => ?_)
    simp [slotsOf, hchildren, Std.TreeSet.ofList_eq_insertMany_empty]
  · rw [if_neg hall]
    refine foldlM_enter_of_lt ?_
    rw [hfits] at hall
    simpa using hall

/-- Both ways to the projection have the same result, or fail with the same error. -/
theorem collect_eq_ofForest (sig : Signature) (f : Forest) : collect sig f = ofForest sig f := by
  have hentries (ops : List Symbol) :
      (ops.mapM fun op => do return (op.id, ← collectSlots f op)) =
        if ops.all (fits f) then .ok (ops.map fun op => (op.id, slotsOf f op))
        else (.error .outOfRange : Except BuildError _) := by
    -- on both sides one operator that does not fit spoils the result
    induction ops with
    | nil => rfl
    | cons op ops ih =>
      rw [List.mapM_cons, ih, collectSlots_eq, List.all_cons]
      cases fits f op with
      | false => rfl
      | true =>
        cases ops.all (fits f) with
        | false => rfl
        | true => rfl
  rw [collect, hentries, ofForest]
  split
  · rfl
  · rfl

-- ---------------------------------------------------------------------------
-- Exact projections
-- ---------------------------------------------------------------------------

/-- The slots are the positions of the operators, and each holds the members that stand there. -/
structure Exact (sig : Signature) (f : Forest) (r : Relevance) : Prop where
  isSome_slot?_iff : ∀ op k, (r.slot? op k).isSome ↔
    ∃ o ∈ sig.operators, o.id = op ∧ k < o.arity
  mem_slot?_iff : ∀ op k members, r.slot? op k = some members → ∀ i, i ∈ members ↔
    ∃ j node, f.node? j = some node ∧ node.symbol = op ∧ node.children[k]? = some i

/-- What stands in a child slot, read off the nodes. -/
theorem mem_childrenAt_iff_node {op : SymbolId} {k : Nat} {i : MemberId} :
    i ∈ childrenAt f op k ↔
      ∃ j node, f.node? j = some node ∧ node.symbol = op ∧ node.children[k]? = some i := by
  rw [mem_childrenAt_iff]
  exact exists_congr fun j => Forest.exists_lookup?_iff

/-- A slot that is there belongs to an operator and holds what stands at its position. -/
theorem exists_of_slot? (h : ofForest sig f = .ok r) {op : SymbolId} {k : Nat}
    {members : Std.TreeSet MemberId} (hslot : r.slot? op k = some members) :
    ∃ o ∈ sig.operators, o.id = op ∧ k < o.arity ∧
      members = Std.TreeSet.ofList (childrenAt f op k) := by
  obtain ⟨slots, hslots, hk⟩ := Option.bind_eq_some_iff.1 hslot
  rw [ofForest_eq_ok h] at hslots
  obtain ⟨o, ho, hentry⟩ := List.mem_map.1
    ((getElem?_ofList_iff (List.pairwise_map.2 sig.pairwise_operators)).1 hslots)
  cases hentry
  have hlt : k < o.arity := by
    simpa [slotsOf] using (List.getElem?_eq_some_iff.1 hk).1
  refine ⟨o, ho, rfl, hlt, ?_⟩
  rw [slotsOf, List.getElem?_map, List.getElem?_range hlt] at hk
  exact (Option.some.inj hk).symm

/-- The projection lists exactly the children of each slot. -/
theorem exact_ofForest (h : ofForest sig f = .ok r) : Exact sig f r := by
  refine ⟨fun op k => ⟨fun hsome => ?_, ?_⟩, fun op k members hmembers i => ?_⟩
  · obtain ⟨members, hmembers⟩ := Option.isSome_iff_exists.1 hsome
    obtain ⟨o, ho, hid, hk, -⟩ := exists_of_slot? h hmembers
    exact ⟨o, ho, hid, hk⟩
  · rintro ⟨o, ho, rfl, hk⟩
    rw [slot?_of_mem_operators h ho hk]
    rfl
  · obtain ⟨o, -, -, -, rfl⟩ := exists_of_slot? h hmembers
    rw [Std.TreeSet.mem_ofList, List.contains_iff_mem, mem_childrenAt_iff_node]

end Relevance

end TreePattern
