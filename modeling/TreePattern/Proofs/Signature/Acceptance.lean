import TreePattern.Proofs.FirstAppearance
import TreePattern.Proofs.Signature.Vocabulary

/-!
# Which patterns are accepted

A list of nodes is recorded node by node, and each is compared with what the signature knows by
then. What it knows by then is what it knew at first and, of the other symbols, the number of
children of the first node that has the symbol. So whether a node is accepted can be told from the
whole list, and so can everything that is recorded.

## Results

* `Signature.foldlM_record_cases` — a list of nodes is recorded, or refused for its first wrong node.
* `Signature.exists_foldlM_record_iff` — it is recorded if the child counts are consistent.
* `Signature.exists_foldlM_register_iff` — which lists of patterns are accepted as a whole.
-/

namespace TreePattern

/-- The number of children of the first node with the given symbol. -/
def firstCount (nodes : List Tree) (name : String) : Option Nat :=
  (nodes.find? fun node => node.symbol = name).map Tree.arity

/-- A node at the end counts only if its symbol has not come before. -/
theorem firstCount_concat (nodes : List Tree) (node : Tree) (name : String) :
    firstCount (nodes ++ [node]) name =
      (firstCount nodes name).or (if node.symbol = name then some node.arity else none) := by
  rw [firstCount, List.find?_append, Option.map_or, List.find?_singleton, firstCount]
  by_cases h : node.symbol = name <;> simp [h]

/-- The first count is that of some node. -/
theorem exists_of_firstCount {nodes : List Tree} {name : String} {n : Nat}
    (h : firstCount nodes name = some n) : ∃ node ∈ nodes, node.symbol = name ∧ node.arity = n := by
  obtain ⟨node, hnode, harity⟩ := Option.map_eq_some_iff.1 h
  have hsymbol := List.find?_some hnode
  exact ⟨node, List.mem_of_find?_eq_some hnode, of_decide_eq_true hsymbol, harity⟩

/-- The symbol of a node has a first count. -/
theorem exists_firstCount {nodes : List Tree} {node : Tree} (h : node ∈ nodes) :
    ∃ n, firstCount nodes node.symbol = some n := by
  rw [← Option.isSome_iff_exists, firstCount, Option.isSome_map, List.find?_isSome]
  exact ⟨node, h, decide_eq_true rfl⟩

/-- Any two nodes with the same symbol have equally many children. -/
def Consistent (nodes : List Tree) : Prop :=
  ∀ a ∈ nodes, ∀ b ∈ nodes, a.symbol = b.symbol → a.arity = b.arity

namespace Signature

variable {sig sig' : Signature} {nodes : List Tree} {node : Tree} {name : String}

/-- A symbol has an arity as soon as it has a number. -/
theorem idOf?_eq_none_iff : sig.idOf? name = none ↔ sig.arityOf? name = none := by
  rw [← find?_eq_none_iff, arityOf?, Option.map_eq_none_iff]

/-- A new symbol gets its arity, and the others keep theirs. -/
theorem arityOf?_add {arity : Nat} (h : sig.idOf? name = none) (m : String) :
    (sig.add name arity h).arityOf? m =
      (sig.arityOf? m).or (if name = m then some arity else none) := by
  by_cases hm : name = m
  · subst hm
    rw [idOf?_eq_none_iff.1 h, Option.none_or, if_pos rfl]
    exact arityOf?_eq_some_iff.2 ⟨_, find?_add_self h, rfl⟩
  · rw [if_neg hm, Option.or_none]
    refine Option.ext fun n => ?_
    rw [arityOf?_eq_some_iff, arityOf?_eq_some_iff]
    refine exists_congr fun s => and_congr_left fun _ => ⟨fun hs => ?_, extends_add h m s⟩
    exact (find?_add_eq_some h hs).resolve_right fun heq => hm heq.1.symm

-- ---------------------------------------------------------------------------
-- What is expected of a node, and what is new
-- ---------------------------------------------------------------------------

/-- The number of children that any of the nodes has to have if its symbol is the given one. -/
def expected? (sig : Signature) (nodes : List Tree) (name : String) : Option Nat :=
  (sig.arityOf? name).or (firstCount nodes name)

/-- The symbols of the nodes that are unknown, each with its number of children. -/
def newSymbols (sig : Signature) (nodes : List Tree) : List (String × Nat) :=
  ((nodes.filter fun node => sig.idOf? node.symbol = none).map
    fun node => (node.symbol, node.arity)).eraseDups

/-- A node at the end sets the arity only of a symbol that has none yet. -/
theorem expected?_concat (sig : Signature) (nodes : List Tree) (node : Tree) (name : String) :
    sig.expected? (nodes ++ [node]) name =
      (sig.expected? nodes name).or (if node.symbol = name then some node.arity else none) := by
  rw [expected?, firstCount_concat, expected?, Option.or_assoc]

/-- What is expected does not depend on what follows. -/
theorem expected?_concat_of_some {n : Nat} (h : sig.expected? nodes name = some n) (node : Tree) :
    sig.expected? (nodes ++ [node]) name = some n := by
  rw [expected?_concat, h, Option.some_or]

/-- The new symbols are those of nodes that the signature does not know. -/
theorem mem_newSymbols_iff {entry : String × Nat} :
    entry ∈ sig.newSymbols nodes ↔
      ∃ node ∈ nodes, sig.idOf? node.symbol = none ∧ (node.symbol, node.arity) = entry := by
  simp only [newSymbols, List.mem_eraseDups, List.mem_map, List.mem_filter, decide_eq_true_eq,
    and_assoc]

/-- A node at the end adds its symbol if this is new. -/
theorem newSymbols_concat (sig : Signature) (nodes : List Tree) (node : Tree) :
    sig.newSymbols (nodes ++ [node]) =
      if sig.idOf? node.symbol = none ∧ (node.symbol, node.arity) ∉ sig.newSymbols nodes
      then sig.newSymbols nodes ++ [(node.symbol, node.arity)] else sig.newSymbols nodes := by
  by_cases hknown : sig.idOf? node.symbol = none
  · have hmem : (node.symbol, node.arity) ∈ sig.newSymbols nodes ↔
        (node.symbol, node.arity) ∈ (nodes.filter fun node => sig.idOf? node.symbol = none).map
          fun node => (node.symbol, node.arity) := List.mem_eraseDups
    rw [newSymbols, List.filter_append, List.map_append, List.filter_singleton, hknown]
    simp only [decide_true, cond_true, List.map_cons, List.map_nil, eraseDups_concat, true_and,
      hmem, ite_not]
    rfl
  · rw [if_neg fun h => hknown h.1, newSymbols, List.filter_append, List.filter_singleton,
      decide_eq_false hknown]
    simp [newSymbols]

/-- A signature that has recorded the nodes, starting from `sig`. -/
structure Recorded (sig : Signature) (nodes : List Tree) (sig' : Signature) : Prop where
  arityOf?_eq : ∀ name, sig'.arityOf? name = sig.expected? nodes name
  names_eq : sig'.names.toList = sig.names.toList ++ (sig.newSymbols nodes).map Prod.fst
  arities_eq : sig'.arities.toList = sig.arities.toList ++ (sig.newSymbols nodes).map Prod.snd

namespace Recorded

/-- With no node recorded, a signature is as it was. -/
theorem refl (sig : Signature) : sig.Recorded [] sig where
  arityOf?_eq _ := (Option.or_none).symm
  names_eq := (List.append_nil _).symm
  arities_eq := (List.append_nil _).symm

/-- A node that has the symbol of an earlier one, or a known symbol, brings in nothing new. -/
theorem of_known (h : sig.Recorded nodes sig') (hnode : sig'.arityOf? node.symbol = some node.arity) :
    sig.Recorded (nodes ++ [node]) sig' := by
  rw [h.arityOf?_eq] at hnode
  have hnew : sig.newSymbols (nodes ++ [node]) = sig.newSymbols nodes := by
    rw [newSymbols_concat, if_neg]
    rintro ⟨hunknown, hmem⟩
    rw [expected?, idOf?_eq_none_iff.1 hunknown, Option.none_or] at hnode
    obtain ⟨m, hm, hsymbol, harity⟩ := exists_of_firstCount hnode
    exact hmem (mem_newSymbols_iff.2 ⟨m, hm, hsymbol ▸ hunknown, by rw [hsymbol, harity]⟩)
  refine ⟨fun name => ?_, by rw [hnew, h.names_eq], by rw [hnew, h.arities_eq]⟩
  rw [h.arityOf?_eq, expected?_concat]
  split
  · next heq => rw [← heq, hnode, Option.some_or]
  · rw [Option.or_none]

/-- A node with a symbol that is unknown by then. -/
theorem of_unknown (h : sig.Recorded nodes sig') (hnode : sig'.idOf? node.symbol = none) :
    sig.Recorded (nodes ++ [node]) (sig'.add node.symbol node.arity hnode) := by
  have hnone := idOf?_eq_none_iff.1 hnode
  rw [h.arityOf?_eq, expected?, Option.or_eq_none_iff] at hnone
  have hnew : sig.newSymbols (nodes ++ [node]) =
      sig.newSymbols nodes ++ [(node.symbol, node.arity)] := by
    rw [newSymbols_concat, if_pos]
    refine ⟨idOf?_eq_none_iff.2 hnone.1, fun hmem => ?_⟩
    -- had the symbol come before among the nodes, it would be known by now
    obtain ⟨m, hm, -, heq⟩ := mem_newSymbols_iff.1 hmem
    obtain ⟨n, hn⟩ := exists_firstCount hm
    rw [show m.symbol = node.symbol from congrArg Prod.fst heq, hnone.2] at hn
    exact absurd hn (by simp)
  refine ⟨fun name => ?_, ?_, ?_⟩
  · rw [arityOf?_add, expected?_concat, h.arityOf?_eq]
  · rw [hnew, List.map_append, ← List.append_assoc, ← h.names_eq, add, Numbering.toList_insert,
      Numbering.contains, show sig'.names.idOf? node.symbol = none from hnode]
    rfl
  · rw [hnew, List.map_append, ← List.append_assoc, ← h.arities_eq, add, Array.toList_push]
    rfl

end Recorded

-- ---------------------------------------------------------------------------
-- A list of nodes
-- ---------------------------------------------------------------------------

/-- All nodes have the number of children that is expected of them. -/
def AllExpected (sig : Signature) (all nodes : List Tree) : Prop :=
  ∀ node ∈ nodes, sig.expected? all node.symbol = some node.arity

/-- The first node that has another number of children than `expected` splits the list. -/
structure FirstWrong (sig : Signature) (nodes before : List Tree) (node : Tree) (after : List Tree)
    (expected : Nat) : Prop where
  split : nodes = before ++ node :: after
  allExpected : sig.AllExpected nodes before
  expected_eq : sig.expected? nodes node.symbol = some expected
  wrong : expected ≠ node.arity

/-- Nodes after the first wrong one do not change which it is. -/
theorem FirstWrong.concat {before after : List Tree} {expected : Nat}
    (h : sig.FirstWrong nodes before node after expected) (last : Tree) :
    sig.FirstWrong (nodes ++ [last]) before node (after ++ [last]) expected where
  split := by rw [h.split, List.append_assoc]; rfl
  allExpected m hm := expected?_concat_of_some (h.allExpected m hm) last
  expected_eq := expected?_concat_of_some h.expected_eq last
  wrong := h.wrong

/-- With a wrong node, not all are as expected. -/
theorem FirstWrong.not_allExpected {before after : List Tree} {expected : Nat}
    (h : sig.FirstWrong nodes before node after expected) : ¬ sig.AllExpected nodes nodes := by
  intro hall
  have hnode : node ∈ nodes := h.split ▸ List.mem_append_right _ List.mem_cons_self
  exact h.wrong (Option.some.inj (h.expected_eq.symm.trans (hall node hnode)))

/-- What recording does to a node after others. -/
theorem Recorded.record_cases (h : sig.Recorded nodes sig') (node : Tree) :
    (∃ sig'', sig'.record node = .ok sig'' ∧ sig.Recorded (nodes ++ [node]) sig'' ∧
      sig.expected? (nodes ++ [node]) node.symbol = some node.arity) ∨
    ∃ n, n ≠ node.arity ∧ sig.expected? (nodes ++ [node]) node.symbol = some n ∧
      sig'.record node = .error (.arityConflict node.symbol n node.arity) := by
  unfold record
  split
  · next hnone =>
    have hunknown := find?_eq_none_iff.1 hnone
    have hrecorded := h.of_unknown hunknown
    refine Or.inl ⟨_, rfl, hrecorded, ?_⟩
    rw [← hrecorded.arityOf?_eq]
    exact arityOf?_eq_some_iff.2 ⟨_, find?_add_self hunknown, rfl⟩
  -- a known symbol has the arity of the signature or of its first node, which is the expected one
  · next s hs =>
    have harity : sig'.arityOf? node.symbol = some s.arity :=
      arityOf?_eq_some_iff.2 ⟨s, hs, rfl⟩
    have hexpected : sig.expected? (nodes ++ [node]) node.symbol = some s.arity :=
      expected?_concat_of_some (h.arityOf?_eq _ ▸ harity) node
    by_cases heq : s.arity = node.arity
    · rw [if_pos heq]
      exact Or.inl ⟨sig', rfl, h.of_known (heq ▸ harity), heq ▸ hexpected⟩
    · rw [if_neg heq]
      exact Or.inr ⟨s.arity, heq, hexpected, rfl⟩

/-- Either every node has the expected number of children, and then the unknown symbols are recorded,
or the first that has not is the reason to refuse the list. -/
theorem foldlM_record_cases (sig : Signature) (nodes : List Tree) :
    (∃ sig', nodes.foldlM record sig = .ok sig' ∧ sig.Recorded nodes sig' ∧
      sig.AllExpected nodes nodes) ∨
    ∃ before node after expected, sig.FirstWrong nodes before node after expected ∧
      nodes.foldlM record sig = .error (.arityConflict node.symbol expected node.arity) := by
  induction nodes using List.reverseRecOn with
  | nil => exact Or.inl ⟨sig, rfl, .refl sig, fun node hnode => absurd hnode List.not_mem_nil⟩
  | append_singleton nodes last ih =>
    rw [List.foldlM_append]
    -- the last node is reached only if none before it is wrong
    obtain ⟨mid, hmid, hrecorded, hall⟩ | ⟨before, node, after, n, hwrong, herror⟩ := ih
    · have hkept : sig.AllExpected (nodes ++ [last]) nodes := fun m hm =>
        expected?_concat_of_some (hall m hm) last
      rw [hmid]
      obtain ⟨sig', hrecord, hrecorded', hlast⟩ | ⟨n, hne, hexpected, herror⟩ :=
        hrecorded.record_cases last
      · refine Or.inl ⟨sig', foldlM_cons_eq_ok_iff.2 ⟨sig', hrecord, rfl⟩, hrecorded', ?_⟩
        exact List.forall_mem_append.2 ⟨hkept, List.forall_mem_singleton.2 hlast⟩
      · refine Or.inr ⟨nodes, last, [], n, ⟨rfl, hkept, hexpected, hne⟩, ?_⟩
        show (last :: []).foldlM record mid = _
        rw [List.foldlM_cons, herror]
        rfl
    · rw [herror]
      exact Or.inr ⟨before, node, after ++ [last], n, hwrong.concat last, rfl⟩

-- ---------------------------------------------------------------------------
-- What is accepted
-- ---------------------------------------------------------------------------

/-- A node differs from what is expected if it differs from a known symbol or from another node. -/
theorem allExpected_iff : sig.AllExpected nodes nodes ↔
    (∀ node ∈ nodes, ∀ n, sig.arityOf? node.symbol = some n → node.arity = n) ∧
      Consistent nodes := by
  constructor
  · refine fun h => ⟨fun node hnode n hn => ?_, fun a ha b hb heq => ?_⟩
    · have hexpected := h node hnode
      rw [expected?, hn, Option.some_or] at hexpected
      exact (Option.some.inj hexpected).symm
    · exact Option.some.inj ((h a ha).symm.trans (heq ▸ h b hb))
  · rintro ⟨hknown, hconsistent⟩ node hnode
    cases hn : sig.arityOf? node.symbol with
    | some n => rw [expected?, hn, Option.some_or, hknown node hnode n hn]
    | none =>
      -- a symbol that is new gets the arity of its first node, and the others agree with that
      obtain ⟨n, hfirst⟩ := exists_firstCount hnode
      obtain ⟨m, hm, hsymbol, rfl⟩ := exists_of_firstCount hfirst
      rw [expected?, hn, Option.none_or, hfirst, hconsistent m hm node hnode hsymbol]

/-- Recording succeeds exactly if every node is as expected. -/
theorem exists_foldlM_record_iff (sig : Signature) (nodes : List Tree) :
    (∃ sig', nodes.foldlM record sig = .ok sig') ↔ sig.AllExpected nodes nodes := by
  obtain ⟨sig', hrecord, -, hall⟩ | ⟨before, node, after, n, hwrong, herror⟩ :=
    sig.foldlM_record_cases nodes
  · exact iff_of_true ⟨sig', hrecord⟩ hall
  · refine iff_of_false ?_ hwrong.not_allExpected
    rintro ⟨sig', hrecord⟩
    rw [herror] at hrecord
    cases hrecord

/-- Registering patterns one by one records all their nodes in order. -/
theorem foldlM_register_eq (sig : Signature) (P : List Tree) :
    P.foldlM register sig = (P.flatMap Tree.preOrder).foldlM record sig := by
  induction P generalizing sig with
  | nil => rfl
  | cons p P ih =>
    rw [List.foldlM_cons, List.flatMap_cons, List.foldlM_append]
    exact bind_congr ih

/-- At first only the wildcard has an arity. -/
theorem arityOf?_empty_iff {n : Nat} :
    empty.arityOf? name = some n ↔ name = wildcardSymbol ∧ n = 0 := by
  rw [arityOf?_eq_some_iff]
  constructor
  · rintro ⟨s, hs, rfl⟩
    obtain rfl := name_of_find?_empty hs
    rw [find?_wildcardSymbol] at hs
    cases hs
    exact ⟨rfl, rfl⟩
  · rintro ⟨rfl, rfl⟩
    exact ⟨_, empty.find?_wildcardSymbol, rfl⟩

/-- All patterns of a list are accepted if no symbol has two child counts in it and no wildcard has
children. -/
theorem exists_foldlM_register_iff (P : List Tree) :
    (∃ sig, P.foldlM register empty = .ok sig) ↔
      Consistent (P.flatMap Tree.preOrder) ∧
        ∀ node ∈ P.flatMap Tree.preOrder, node.symbol = wildcardSymbol → node.arity = 0 := by
  rw [foldlM_register_eq, exists_foldlM_record_iff, allExpected_iff, and_comm]
  refine and_congr_right fun _ => forall₂_congr fun node _ => ⟨fun h hw => ?_, fun h n hn => ?_⟩
  · exact h 0 (arityOf?_empty_iff.2 ⟨hw, rfl⟩)
  · obtain ⟨hw, rfl⟩ := arityOf?_empty_iff.1 hn
    exact h hw

end Signature

end TreePattern
