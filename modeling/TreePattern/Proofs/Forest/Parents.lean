import TreePattern.Forest
import TreePattern.Sublists
import TreePattern.Proofs.Enumeration.NestedLoops

/-!
# Parents of a choice of children

Looking one member up for every choice of children finds exactly the members with the wanted
root whose children all lie in their slots. A look at every member finds the same, with one look
per member instead of one per choice.

## Results

* `Forest.mem_members_addParents_iff` — which members are found.
* `Forest.tried_addParents`           — how many choices are tried.
* `Forest.addParents_eq_scan`         — the same members as by looking at all of them.
-/

namespace TreePattern

namespace Forest

-- ---------------------------------------------------------------------------
-- Members by their nodes
-- ---------------------------------------------------------------------------

/-- A choice of children that has a parent is what the parent's node says. -/
theorem exists_lookup?_iff {f : Forest} {op : SymbolId} {P : List MemberId → Prop}
    {i : MemberId} :
    (∃ cs, f.lookup? op cs = some i ∧ P cs) ↔
      ∃ node, f.node? i = some node ∧ node.symbol = op ∧ P node.children := by
  constructor
  · rintro ⟨cs, hcs, hP⟩
    exact ⟨⟨op, cs⟩, Numbering.idOf?_eq_some_iff.1 hcs, rfl, hP⟩
  · rintro ⟨node, hnode, rfl, hP⟩
    exact ⟨node.children, Numbering.idOf?_eq_some_iff.2 hnode, hP⟩

theorem mem_withRoot_iff {f : Forest} {symbol : SymbolId} {i : MemberId} :
    i ∈ f.withRoot symbol ↔ ∃ node, f.node? i = some node ∧ node.symbol = symbol := by
  rw [withRoot, List.mem_filter, Option.any_eq_true]
  constructor
  · rintro ⟨-, node, hnode, hsymbol⟩
    exact ⟨node, hnode, of_decide_eq_true hsymbol⟩
  · rintro ⟨node, hnode, hsymbol⟩
    exact ⟨Index.mem_range.2 (Numbering.val_lt_size_of_get? hnode), node, hnode,
      decide_eq_true hsymbol⟩

-- ---------------------------------------------------------------------------
-- Trying every choice
-- ---------------------------------------------------------------------------

/-- A single choice adds the one member that has these children. -/
theorem mem_members_tryChildren {f : Forest} {op : SymbolId} {found : Parents}
    {children : List MemberId} {i : MemberId} :
    i ∈ (f.tryChildren op found children).members ↔
      i ∈ found.members ∨ f.lookup? op children = some i := by
  unfold tryChildren
  cases h : f.lookup? op children with
  | none => simp
  | some j =>
    simp only [Std.TreeSet.mem_insert, Std.LawfulEqCmp.compare_eq_iff_eq, Option.some.injEq]
    exact or_comm

private theorem mem_members_foldl {f : Forest} {op : SymbolId} {choices : List (List MemberId)}
    {found : Parents} {i : MemberId} :
    i ∈ (choices.foldl (f.tryChildren op) found).members ↔
      i ∈ found.members ∨ ∃ cs ∈ choices, f.lookup? op cs = some i := by
  induction choices generalizing found with
  | nil => simp
  | cons cs choices ih =>
    rw [List.foldl_cons, ih, mem_members_tryChildren, List.exists_mem_cons_iff, or_assoc]

theorem mem_members_addParents_iff {f : Forest} {op : SymbolId} {slots : List (Array MemberId)}
    {into : Std.TreeSet MemberId} {i : MemberId} :
    i ∈ (f.addParents op slots into).members ↔
      i ∈ into ∨ ∃ cs, f.lookup? op cs = some i ∧ List.Forall₂ (· ∈ ·) cs slots := by
  rw [addParents, Enumeration.foldl_eq_foldl_toList, Choices.toList_ofSlots, mem_members_foldl]
  simp only [Choices.mem_nestedLoops, and_comm]

theorem mem_addParents_singleton_iff {f : Forest} {op : SymbolId}
    {slots : List (Array MemberId)} {wildcard i : MemberId} :
    i ∈ (f.addParents op slots {wildcard}).members.toList ↔
      i = wildcard ∨ ∃ cs, f.lookup? op cs = some i ∧ List.Forall₂ (· ∈ ·) cs slots := by
  have hsingleton : i ∈ ({wildcard} : Std.TreeSet MemberId) ↔ i = wildcard := by
    show i ∈ (∅ : Std.TreeSet MemberId).insert wildcard ↔ _
    rw [Std.TreeSet.mem_insert, Std.LawfulEqCmp.compare_eq_iff_eq,
      or_iff_left Std.TreeSet.not_mem_emptyc, eq_comm]
  rw [Std.TreeSet.mem_toList, mem_members_addParents_iff, hsingleton]

private theorem tried_foldl {f : Forest} {op : SymbolId} {choices : List (List MemberId)}
    {found : Parents} :
    (choices.foldl (f.tryChildren op) found).tried = found.tried + choices.length := by
  induction choices generalizing found with
  | nil => rfl
  | cons cs choices ih =>
    have hstep : (f.tryChildren op found cs).tried = found.tried + 1 := rfl
    rw [List.foldl_cons, ih, hstep, List.length_cons]
    omega

/-- Every choice of one element for each slot is tried. -/
theorem tried_addParents {f : Forest} {op : SymbolId} {slots : List (Array MemberId)}
    {into : Std.TreeSet MemberId} :
    (f.addParents op slots into).tried = MixedRadix.volume (slots.map Array.size) := by
  rw [addParents, Enumeration.foldl_eq_foldl_toList, Choices.toList_ofSlots, tried_foldl,
    Choices.length_nestedLoops, Nat.zero_add]

-- ---------------------------------------------------------------------------
-- Looking at every member
-- ---------------------------------------------------------------------------

/-- The members with root `op` that have one child for each slot, each of them in its slot. -/
def scanParents (f : Forest) (op : SymbolId) (slots : List (Array MemberId)) : List MemberId :=
  f.members.filter fun i => (f.node? i).any fun node =>
    node.symbol = op && node.children.length = slots.length &&
      (node.children.zip slots).all fun (child, slot) => slot.contains child

theorem mem_scanParents_iff {f : Forest} {op : SymbolId} {slots : List (Array MemberId)}
    {i : MemberId} :
    i ∈ f.scanParents op slots ↔ ∃ node, f.node? i = some node ∧ node.symbol = op ∧
      List.Forall₂ (· ∈ ·) node.children slots := by
  -- the test of the scan is that the children are in the slots, one for each
  have hfits (node : Node .member) :
      (decide (node.symbol = op) && decide (node.children.length = slots.length) &&
        (node.children.zip slots).all fun (child, slot) => slot.contains child) = true ↔
      node.symbol = op ∧ List.Forall₂ (· ∈ ·) node.children slots := by
    rw [List.forall₂_iff_zip, Bool.and_eq_true, Bool.and_eq_true, decide_eq_true_eq,
      decide_eq_true_eq, List.all_eq_true, and_assoc]
    simp only [Array.contains_iff_mem, Prod.forall]
  rw [scanParents, List.mem_filter, Option.any_eq_true]
  simp only [hfits]
  refine and_iff_right_of_imp ?_
  rintro ⟨node, hnode, -⟩
  exact Index.mem_range.2 (Numbering.val_lt_size_of_get? hnode)

/-- Trying every choice of children adds exactly the members that a look at every member finds, in
whatever way the slots overlap, repeat members or hold none. It takes one try for each choice. -/
theorem addParents_eq_scan (f : Forest) (op : SymbolId) (slots : List (Array MemberId))
    (into : Std.TreeSet MemberId) :
    (∀ i, i ∈ (f.addParents op slots into).members ↔ i ∈ into ∨
      ∃ node, f.node? i = some node ∧ node.symbol = op ∧
        List.Forall₂ (· ∈ ·) node.children slots) ∧
    (f.addParents op slots into).members.toList =
      Index.sorted (into.toList ++ f.scanParents op slots) ∧
    (f.addParents op slots into).tried = MixedRadix.volume (slots.map Array.size) := by
  have hmem (i : MemberId) : i ∈ (f.addParents op slots into).members ↔ i ∈ into ∨
      ∃ node, f.node? i = some node ∧ node.symbol = op ∧
        List.Forall₂ (· ∈ ·) node.children slots := by
    rw [mem_members_addParents_iff, exists_lookup?_iff]
  refine ⟨hmem, ?_, tried_addParents⟩
  refine eq_of_ascending (Std.TreeSet.ordered_toList.imp Index.compare_eq_lt.1)
    (Index.sorted_pairwise _) fun i => ?_
  rw [Index.mem_sorted, List.mem_append, mem_scanParents_iff, Std.TreeSet.mem_toList,
    Std.TreeSet.mem_toList, hmem]

end Forest

end TreePattern
