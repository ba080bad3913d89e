import TreePattern.Forest
import TreePattern.Proofs.Traversal
import Mathlib.Data.List.Induction

/-!
# Numberings of nodes as sets of trees

A numbering of nodes, each with numbered children, stands for a set of trees: a tree is in it
if its root is, over the numbers of its children. Such a number determines its tree, and
numbering more nodes takes no tree away.

## Results

* `Numbering.mem_toList_ofList`       — the values of a list are numbered, and nothing else.
* `Numbering.toList_ofList_of_nodup`  — distinct values are numbered in their order.
* `Numbering.idOf?_eq_of_forall₂`     — values side by side have the same number.
* `Numbering.idOfTree?_node_iff`      — when a tree has a number.
* `Numbering.idOfTree?_inj`           — different trees have different numbers.
-/

namespace TreePattern

namespace Numbering

-- ---------------------------------------------------------------------------
-- Extensions and lists
-- ---------------------------------------------------------------------------

section Values

variable {k : IndexKind} {α : Type} [Ord α]

/-- No number is used twice. -/
theorem nodup_ids (n : Numbering k α) : n.ids.Nodup :=
  (Index.pairwise_range ..).imp fun hlt heq => Nat.ne_of_lt hlt (Index.ext_iff.1 heq)

/-- Different values have different numbers. -/
theorem idOf?_inj {n : Numbering k α} {a b : α} {i : Index k} (ha : n.idOf? a = some i)
    (hb : n.idOf? b = some i) : a = b := by
  rw [idOf?_eq_some_iff] at ha hb
  exact Option.some.inj (ha.symm.trans hb)

/-- What is numbered keeps its number. -/
def Extends (n n' : Numbering k α) : Prop := ∀ i a, n.get? i = some a → n'.get? i = some a

/-- A numbering extends itself. -/
theorem Extends.refl (n : Numbering k α) : n.Extends n := fun _ _ h => h

/-- Extensions can be chained. -/
theorem Extends.trans {n n' n'' : Numbering k α} (h : n.Extends n') (h' : n'.Extends n'') :
    n.Extends n'' :=
  fun i a ha => h' i a (h i a ha)

variable [Std.TransOrd α] [Std.LawfulEqOrd α]

/-- Adding an entry keeps every number. -/
theorem extends_insert (n : Numbering k α) (a : α) : n.Extends (n.insert a) :=
  fun _ _ => get?_insert_of_get?

/-- So does adding a list of entries. -/
theorem extends_foldl_insert (n : Numbering k α) (l : List α) : n.Extends (l.foldl insert n) :=
  List.foldlRecOn l insert (Extends.refl n) fun m h a _ => h.trans (extends_insert m a)

/-- An entry after an addition was there before or is the one that was added. -/
theorem get?_insert_eq_some {n : Numbering k α} {a b : α} {i : Index k}
    (h : (n.insert a).get? i = some b) : n.get? i = some b ∨ b = a ∧ i = (n.intern a).1 := by
  by_cases hb : b ∈ n.toList
  · obtain ⟨j, hj⟩ := mem_toList_iff.1 hb
    exact Or.inl (get?_inj (get?_insert_of_get? hj) h ▸ hj)
  · have hmem : b ∈ (n.insert a).toList := mem_toList_iff.2 ⟨i, h⟩
    rw [toList_insert] at hmem
    split at hmem
    · exact absurd hmem hb
    · obtain rfl : b = a := by simpa [hb] using hmem
      have hid := idOf?_eq_some_iff.2 h
      rw [idOf?_insert_self] at hid
      exact Or.inr ⟨rfl, (Option.some.inj hid).symm⟩

/-- The last element of a list is numbered last. -/
theorem ofList_concat (l : List α) (a : α) :
    (ofList (l ++ [a]) : Numbering k α) = (ofList l).insert a := by
  rw [ofList, List.foldl_concat, ← ofList]

/-- A numbering of a list has the elements of the list. -/
theorem mem_toList_ofList {l : List α} {a : α} :
    a ∈ (ofList l : Numbering k α).toList ↔ a ∈ l := by
  induction l using List.reverseRecOn with
  | nil => exact Iff.rfl
  | append_singleton l b ih =>
    rw [ofList_concat, toList_insert, List.mem_append, List.mem_singleton]
    split
    · next h =>
      rw [ih]
      refine (or_iff_left_of_imp ?_).symm
      rintro rfl
      exact ih.1 (contains_iff.1 h)
    · rw [List.mem_append, List.mem_singleton, ih]

/-- Elements without repetition are numbered in their order. -/
theorem toList_ofList_of_nodup {l : List α} (h : l.Nodup) :
    (ofList l : Numbering k α).toList = l := by
  induction l using List.reverseRecOn with
  | nil => rfl
  | append_singleton l b ih =>
    obtain ⟨hl, -, hdisjoint⟩ := List.nodup_append.1 h
    have hb : b ∉ l := fun hb => hdisjoint b hb b (List.mem_singleton_self b) rfl
    have ih := ih hl
    rw [ofList_concat, toList_insert, if_neg, ih]
    rw [contains_iff, ih]
    exact hb

end Values

-- ---------------------------------------------------------------------------
-- New values
-- ---------------------------------------------------------------------------

section NewValues

variable {k : IndexKind} {α : Type} [Ord α] [Std.TransOrd α] [Std.LawfulEqOrd α]
  {n : Numbering k α} {a : α}

/-- A new entry takes the next number, and the others keep theirs. -/
theorem idOf?_insert_of_new (h : n.idOf? a = none) (b : α) :
    (n.insert a).idOf? b = if compare a b = .eq then some ⟨n.size⟩ else n.idOf? b := by
  rw [insert, dif_pos h]
  exact Std.TreeMap.getElem?_insert

/-- A new entry comes last. -/
theorem toList_insert_of_new (h : n.idOf? a = none) : (n.insert a).toList = n.toList ++ [a] := by
  rw [toList_insert, contains, h]
  rfl

/-- A new entry adds one number. -/
theorem ids_insert_of_new (h : n.idOf? a = none) : (n.insert a).ids = n.ids ++ [⟨n.size⟩] := by
  rw [ids, ids, size_insert_of_idOf?_eq_none h, Index.range, Index.range, List.range_succ,
    List.map_append, List.map_singleton]

/-- The next number is that of the new entry. -/
theorem get?_insert_last (h : n.idOf? a = none) : (n.insert a).get? ⟨n.size⟩ = some a := by
  rw [get?_eq_getElem?_toList, toList_insert_of_new h, ← length_toList]
  exact List.getElem?_concat_length

end NewValues

-- ---------------------------------------------------------------------------
-- Numberings side by side
-- ---------------------------------------------------------------------------

section SideBySide

variable {k : IndexKind} {α β : Type} [Ord α] [Ord β] {R : α → β → Prop}
  {n : Numbering k α} {n' : Numbering k β}

/-- Numberings of related entries have the same size. -/
theorem size_eq_of_forall₂ (h : List.Forall₂ R n.toList n'.toList) : n.size = n'.size := by
  rw [← length_toList, ← length_toList, h.length_eq]

/-- If values side by side determine each other, they have the same number. -/
theorem idOf?_eq_of_forall₂ (hR : Relator.BiUnique R) (h : List.Forall₂ R n.toList n'.toList)
    {a : α} {b : β} (hab : R a b) : n.idOf? a = n'.idOf? b := by
  refine Option.ext ?_
  intro i
  simp only [idOf?_eq_some_iff, get?_eq_getElem?_toList]
  constructor
  · intro ha
    obtain ⟨b', hb', hab'⟩ := exists_getElem?_of_forall₂ h ha
    rw [hb', hR.2 hab' hab]
  · intro hb
    obtain ⟨a', ha', hab'⟩ := exists_getElem?_of_forall₂ h.flip hb
    rw [ha', hR.1 hab' hab]

variable [Std.TransOrd α] [Std.LawfulEqOrd α] [Std.TransOrd β] [Std.LawfulEqOrd β]

/-- Inserting values side by side keeps the numberings side by side. -/
theorem forall₂_insert (hR : Relator.BiUnique R) (h : List.Forall₂ R n.toList n'.toList)
    {a : α} {b : β} (hab : R a b) : List.Forall₂ R (n.insert a).toList (n'.insert b).toList := by
  rw [toList_insert, toList_insert, contains, contains, idOf?_eq_of_forall₂ hR h hab]
  split
  · exact h
  · exact List.rel_append h (.cons hab .nil)

/-- Numberings of related entries give related entries the same number. -/
theorem fst_intern_eq_of_forall₂ (hR : Relator.BiUnique R)
    (h : List.Forall₂ R n.toList n'.toList) {a : α} {b : β} (hab : R a b) :
    (n.intern a).1 = (n'.intern b).1 := by
  rw [intern, intern, idOf?_eq_of_forall₂ hR h hab, size_eq_of_forall₂ h]

end SideBySide

-- ---------------------------------------------------------------------------
-- The number of a tree
-- ---------------------------------------------------------------------------

section Trees

variable {k : IndexKind} {sig : Signature} {nodes : Numbering k (Node k)}

/-- The number of a tree, if all its nodes are numbered. -/
def idOfTree? (sig : Signature) (nodes : Numbering k (Node k)) : Tree → Option (Index k) :=
  Tree.fold fun s children => do
    let symbol ← sig.idOf? s
    let children ← children.mapM id
    nodes.idOf? ⟨symbol, children⟩

/-- A tree is stored exactly if its symbol is known, its children are stored, and so is the node of
these. -/
theorem idOfTree?_node_iff {s : String} {ts : List Tree} {i : Index k} :
    idOfTree? sig nodes (.node s ts) = some i ↔
      ∃ symbol children, sig.idOf? s = some symbol ∧
        List.Forall₂ (fun t c => idOfTree? sig nodes t = some c) ts children ∧
        nodes.get? i = some ⟨symbol, children⟩ := by
  rw [idOfTree?, Tree.fold_node, ← idOfTree?]
  constructor
  · intro h
    obtain ⟨symbol, hsymbol, h⟩ := Option.bind_eq_some_iff.1 h
    obtain ⟨children, hchildren, h⟩ := Option.bind_eq_some_iff.1 h
    rw [mapM_eq_some_iff, List.forall₂_map_left_iff] at hchildren
    exact ⟨symbol, children, hsymbol, hchildren, idOf?_eq_some_iff.1 h⟩
  · rintro ⟨symbol, children, hsymbol, hchildren, hget⟩
    have hmapM : (ts.map (idOfTree? sig nodes)).mapM id = some children :=
      mapM_eq_some_iff.2 (List.forall₂_map_left_iff.2 hchildren)
    refine Option.bind_eq_some_iff.2 ⟨symbol, hsymbol, ?_⟩
    exact Option.bind_eq_some_iff.2 ⟨children, hmapM, idOf?_eq_some_iff.2 hget⟩

/-- Over children with numbers, a tree has the number of its root. -/
theorem idOfTree?_node_iff_get? {s : String} {symbol : SymbolId} {ts : List Tree}
    {children : List (Index k)} {i : Index k} (hsymbol : sig.idOf? s = some symbol)
    (hchildren : List.Forall₂ (fun t c => idOfTree? sig nodes t = some c) ts children) :
    idOfTree? sig nodes (.node s ts) = some i ↔ nodes.get? i = some ⟨symbol, children⟩ := by
  constructor
  · intro h
    obtain ⟨symbol', children', hsymbol', hchildren', hget⟩ := idOfTree?_node_iff.1 h
    rw [← mapM_eq_some_iff] at hchildren hchildren'
    obtain rfl : symbol = symbol' := Option.some.inj (hsymbol.symm.trans hsymbol')
    obtain rfl : children = children' := Option.some.inj (hchildren.symm.trans hchildren')
    exact hget
  · exact fun hget => idOfTree?_node_iff.2 ⟨symbol, children, hsymbol, hchildren, hget⟩

/-- Only a tree whose root symbol is known has a number. -/
theorem isSome_idOf?_symbol {t : Tree} {i : Index k} (h : idOfTree? sig nodes t = some i) :
    (sig.idOf? t.symbol).isSome := by
  obtain ⟨s, ts⟩ := t
  obtain ⟨symbol, children, hsymbol, -, -⟩ := idOfTree?_node_iff.1 h
  exact Option.isSome_iff_exists.2 ⟨symbol, hsymbol⟩

/-- A stored tree has one of the numbers. -/
theorem val_lt_size_of_idOfTree? {t : Tree} {i : Index k} (h : idOfTree? sig nodes t = some i) :
    i.val < nodes.size := by
  obtain ⟨s, ts⟩ := t
  obtain ⟨symbol, children, -, -, hget⟩ := idOfTree?_node_iff.1 h
  exact val_lt_size_of_get? hget

/-- Different trees have different numbers. -/
theorem idOfTree?_inj {t u : Tree} {i : Index k} (ht : idOfTree? sig nodes t = some i)
    (hu : idOfTree? sig nodes u = some i) : t = u := by
  induction t generalizing u i with
  | node s ts ih =>
    obtain ⟨r, us⟩ := u
    obtain ⟨a, cs, ha, hcs, hget⟩ := idOfTree?_node_iff.1 ht
    obtain ⟨b, ds, hb, hds, hget'⟩ := idOfTree?_node_iff.1 hu
    rw [hget, Option.some.injEq, Node.mk.injEq] at hget'
    obtain ⟨rfl, rfl⟩ := hget'
    have hs : s = r := idOf?_inj ha hb
    have hts : ts = us := eq_of_forall₂ hcs hds fun t ht _ _ => ih t ht
    rw [hs, hts]

/-- A tree has one number, and a number one tree. -/
theorem biUnique_idOfTree? (sig : Signature) (nodes : Numbering k (Node k)) :
    Relator.BiUnique fun t i => idOfTree? sig nodes t = some i :=
  ⟨fun _ _ _ => idOfTree?_inj, fun _ _ _ h h' => Option.some.inj (h.symm.trans h')⟩

/-- Stored trees keep their numbers. -/
theorem idOfTree?_of_extends {nodes' : Numbering k (Node k)} (h : nodes.Extends nodes')
    {t : Tree} {i : Index k} (ht : idOfTree? sig nodes t = some i) :
    idOfTree? sig nodes' t = some i := by
  induction t generalizing i with
  | node s ts ih =>
    obtain ⟨a, cs, ha, hcs, hget⟩ := idOfTree?_node_iff.1 ht
    exact idOfTree?_node_iff.2
      ⟨a, cs, ha, forall₂_imp_of_mem hcs fun t ht _ _ => ih t ht, h _ _ hget⟩

/-- With a tree, all its subtrees are numbered. -/
theorem isSome_idOfTree?_of_mem_preOrder {t : Tree} (ht : (idOfTree? sig nodes t).isSome) :
    ∀ u ∈ t.preOrder, (idOfTree? sig nodes u).isSome := by
  induction t with
  | node s ts ih =>
    intro u hu
    rw [Tree.preOrder_eq, Tree.children] at hu
    rcases List.mem_cons.1 hu with rfl | hu
    · exact ht
    · obtain ⟨c, hc, hu⟩ := List.mem_flatMap.1 hu
      refine ih c hc ?_ u hu
      obtain ⟨i, hi⟩ := Option.isSome_iff_exists.1 ht
      obtain ⟨a, cs, -, hcs, -⟩ := idOfTree?_node_iff.1 hi
      obtain ⟨j, -, hj⟩ := exists_of_mem_left hcs hc
      exact Option.isSome_iff_exists.2 ⟨j, hj⟩

end Trees

end Numbering

end TreePattern
