import TreePattern.Proofs.Signature.Lexicon
import Mathlib.Data.List.Sort

/-!
# A lexicon after any calls

Patterns are handed to a new lexicon in any order, and some are accepted and some refused. Whatever
they were, the stores of the lexicon are in step: names and numbers belong to each other one to one,
every number has its arity, and the lists by kind divide the numbers. What was accepted keeps to the
arities, since no arity is ever changed. And whether all patterns of a list are accepted is a question
about their nodes, so their order has no say in it.

## Results

* `Lexicon.Records.ofKind`       — the list of a kind, and that no number is looked up in vain.
* `Lexicon.Records.sound`        — what holds of a lexicon that records a signature.
* `Lexicon.allAccepted_iff`      — which lists are accepted as a whole.
* `Lexicon.sound_after_any_calls` — what holds after any calls.
-/

namespace TreePattern

/-- A check that fails nowhere filters. -/
theorem filterM_map_eq_ok {α β ε : Type} {f : β → Except ε Bool} {g : α → β} {p : α → Bool}
    {as : List α} (h : ∀ a ∈ as, f (g a) = .ok (p a)) :
    (as.map g).filterM f = .ok ((as.filter p).map g) := by
  -- the filter collects in reverse, so the induction is on what it has kept so far
  suffices haux : ∀ kept, (as.map g).filterAuxM f kept =
      .ok (((as.filter p).map g).reverse ++ kept) by
    rw [List.filterM, haux, List.append_nil]
    exact congrArg Except.ok (List.reverse_reverse _)
  induction as with
  | nil => exact fun kept => rfl
  | cons a as ih =>
    obtain ⟨ha, has⟩ := List.forall_mem_cons.1 h
    intro kept
    rw [List.map_cons, List.filterAuxM, ha, List.filter_cons]
    show (as.map g).filterAuxM f (cond (p a) (g a :: kept) kept) = _
    rw [ih has]
    cases p a with
    | false => rfl
    | true => simp

namespace Signature

variable {sig : Signature} {s : Symbol}

/-- The symbols are those that can be looked up by their number. -/
theorem mem_symbols_iff : s ∈ sig.symbols ↔ sig.symbol? s.id = some s := by
  rw [symbols, List.mem_filterMap]
  constructor
  · rintro ⟨id, -, hs⟩
    obtain ⟨rfl, -⟩ := symbol?_eq_some_iff.1 hs
    exact hs
  · intro hs
    have hget := (symbol?_eq_some_iff.1 hs).2.1
    exact ⟨s.id, Index.mem_range.2 (Numbering.val_lt_size_of_get? hget), hs⟩

/-- The symbols by number are those numbers, one after the other. -/
theorem map_id_symbols (sig : Signature) : sig.symbols.map Symbol.id = sig.names.ids := by
  rw [symbols, List.map_filterMap]
  refine (List.filterMap_congr fun id hid => ?_).trans List.filterMap_some
  obtain ⟨name, hname⟩ : ∃ name, sig.names.get? id = some name :=
    ⟨_, Array.getElem?_eq_getElem (Index.mem_range.1 hid)⟩
  obtain ⟨s, hs⟩ := Option.isSome_iff_exists.1 (symbol?_isSome hname)
  rw [hs, Option.map_some, (symbol?_eq_some_iff.1 hs).1]

/-- No symbol is listed twice. -/
theorem nodup_symbols (sig : Signature) : sig.symbols.Nodup :=
  List.Nodup.of_map Symbol.id (sig.map_id_symbols ▸ sig.names.nodup_ids)

/-- Nor is one when they are listed by name. -/
theorem nodup_byName (sig : Signature) : sig.byName.Nodup :=
  sig.pairwise_byName.imp fun hne heq => hne (congrArg Symbol.id heq)

/-- Sorting the symbols changes their order only. -/
theorem symbols_perm_byName (sig : Signature) : sig.symbols.Perm sig.byName :=
  (List.perm_ext_iff_of_nodup sig.nodup_symbols sig.nodup_byName).2 fun s => by
    rw [mem_symbols_iff, mem_byName_iff, find?_eq_some_iff, and_iff_right rfl]

/-- Every number belongs to a symbol. -/
theorem mem_ids_iff {id : SymbolId} :
    id ∈ sig.names.ids ↔ ∃ s, sig.find? s.name = some s ∧ s.id = id := by
  rw [← map_id_symbols, List.mem_map]
  simp only [mem_symbols_iff, find?_eq_some_iff, true_and]

/-- The first number is that of the wildcard alone. -/
theorem id_eq_wildcardId_iff (hs : sig.find? s.name = some s) :
    s.id = Symbol.wildcardId ↔ s.name = wildcardSymbol := by
  refine ⟨fun heq => ?_, fun heq => ?_⟩
  · rw [eq_of_id_eq hs sig.find?_wildcardSymbol heq]
  · rw [heq, sig.find?_wildcardSymbol] at hs
    rw [← Option.some.inj hs]

/-- The wildcard has no children. -/
theorem arity_of_name_eq (hs : sig.find? s.name = some s) (hname : s.name = wildcardSymbol) :
    s.arity = 0 := by
  rw [hname, sig.find?_wildcardSymbol] at hs
  rw [← Option.some.inj hs]

/-- The operators are the symbols with children. -/
theorem mem_operatorIds_iff {id : SymbolId} : id ∈ sig.operators.map Symbol.id ↔
    ∃ s, (sig.find? s.name = some s ∧ s.id = id) ∧ s.arity ≠ 0 := by
  simp only [List.mem_map, mem_operators_iff, and_right_comm]

/-- The terminals are the symbols without, apart from the wildcard. -/
theorem mem_terminalIds_iff {id : SymbolId} : id ∈ sig.terminals.map Symbol.id ↔
    ∃ s, (sig.find? s.name = some s ∧ s.id = id) ∧ s.name ≠ wildcardSymbol ∧ s.arity = 0 := by
  simp only [List.mem_map, mem_terminals_iff, and_right_comm]

/-- Every number is that of the wildcard, of an operator or of a terminal. -/
theorem mem_kinds_iff {id : SymbolId} :
    id ∈ Symbol.wildcardId :: (sig.operators.map Symbol.id ++ sig.terminals.map Symbol.id) ↔
      id ∈ sig.names.ids := by
  rw [List.mem_cons, List.mem_append, mem_operatorIds_iff, mem_terminalIds_iff, mem_ids_iff]
  constructor
  · rintro (rfl | ⟨s, hs, -⟩ | ⟨s, hs, -⟩)
    · exact ⟨⟨Symbol.wildcardId, wildcardSymbol, 0⟩, sig.find?_wildcardSymbol, rfl⟩
    · exact ⟨s, hs⟩
    · exact ⟨s, hs⟩
  · rintro ⟨s, hs, rfl⟩
    by_cases hname : s.name = wildcardSymbol
    · exact Or.inl ((id_eq_wildcardId_iff hs).2 hname)
    · by_cases harity : s.arity = 0
      · exact Or.inr (Or.inr ⟨s, ⟨hs, rfl⟩, hname, harity⟩)
      · exact Or.inr (Or.inl ⟨s, ⟨hs, rfl⟩, harity⟩)

/-- No number is that of two of them, or listed twice. -/
theorem nodup_kinds (sig : Signature) :
    (Symbol.wildcardId :: (sig.operators.map Symbol.id ++ sig.terminals.map Symbol.id)).Nodup := by
  refine List.nodup_cons.2 ⟨fun hmem => ?_, List.nodup_append.2
    ⟨List.pairwise_map.2 (sig.pairwise_byName.filter _),
      List.pairwise_map.2 (sig.pairwise_byName.filter _), fun id hop id' hterm heq => ?_⟩⟩
  · rw [List.mem_append, mem_operatorIds_iff, mem_terminalIds_iff] at hmem
    obtain ⟨s, ⟨hs, hid⟩, harity⟩ | ⟨s, ⟨hs, hid⟩, hname, -⟩ := hmem
    · exact harity (arity_of_name_eq hs ((id_eq_wildcardId_iff hs).1 hid))
    · exact hname ((id_eq_wildcardId_iff hs).1 hid)
  · obtain ⟨s, ⟨hs, rfl⟩, harity⟩ := mem_operatorIds_iff.1 hop
    obtain ⟨t, ⟨ht, rfl⟩, -, harity'⟩ := mem_terminalIds_iff.1 hterm
    rw [eq_of_id_eq hs ht heq] at harity
    exact harity harity'

/-- The three kinds divide the numbers among them. -/
theorem kinds_perm (sig : Signature) :
    (Symbol.wildcardId :: (sig.operators.map Symbol.id ++ sig.terminals.map Symbol.id)).Perm
      sig.names.ids :=
  (List.perm_ext_iff_of_nodup sig.nodup_kinds sig.names.nodup_ids).2 fun _ => mem_kinds_iff

end Signature

namespace Lexicon

variable {x : Lexicon} {sig : Signature}

-- ---------------------------------------------------------------------------
-- The symbols of a kind
-- ---------------------------------------------------------------------------

/-- The kind of a number is that of its symbol. -/
theorem Records.kindOf_eq (h : x.Records sig) {s : Symbol} (hs : s ∈ sig.symbols) :
    x.kindOf s.id = .ok s.kind := by
  have hs := Signature.mem_symbols_iff.1 hs
  have hwildcard : s.id = x.wildcard ↔ s.name = wildcardSymbol := by
    rw [h.wildcard_eq]
    exact Signature.id_eq_wildcardId_iff (Signature.find?_eq_some_iff.2 ⟨rfl, hs⟩)
  rw [kindOf, Symbol.kind, if_congr hwildcard rfl rfl, h.arityOf_eq hs]
  by_cases hname : s.name = wildcardSymbol
  · rw [if_pos hname, if_pos hname]
  · rw [if_neg hname, if_neg hname]
    rfl

/-- So is its name. -/
theorem Records.nameOf_eq (h : x.Records sig) {s : Symbol} (hs : s ∈ sig.symbols) :
    x.nameOf s.id = .ok s.name := by
  have hget := (Signature.symbol?_eq_some_iff.1 (Signature.mem_symbols_iff.1 hs)).2.1
  rw [nameOf, h.name?_eq, hget, found]

/-- A symbol's name with its number. -/
def named (s : Symbol) : String × SymbolId := (s.name, s.id)

/-- Sorting symbols by the bytes of their names lists them as the signature does. -/
theorem mergeSort_named (sig : Signature) (kept : Symbol → Bool) :
    ((sig.symbols.filter kept).map named).mergeSort (fun a b => utf8 a.1 ≤ utf8 b.1) =
      (sig.byName.filter kept).map named := by
  set sorted := ((sig.symbols.filter kept).map named).mergeSort fun a b => utf8 a.1 ≤ utf8 b.1
  have hperm : sorted.Perm ((sig.byName.filter kept).map named) :=
    (List.mergeSort_perm ..).trans ((sig.symbols_perm_byName.filter kept).map named)
  have hsorted : sorted.Pairwise fun a b => utf8 a.1 ≤ utf8 b.1 := by
    refine (List.pairwise_mergeSort (fun a b c hab hbc => ?_) (fun a b => ?_) _).imp
      of_decide_eq_true
    · exact decide_eq_true (List.le_trans (of_decide_eq_true hab) (of_decide_eq_true hbc))
    · rw [Bool.or_eq_true, decide_eq_true_eq, decide_eq_true_eq]
      exact List.le_total ..
  have hbyName : ((sig.byName.filter kept).map named).Pairwise fun a b => utf8 a.1 ≤ utf8 b.1 := by
    have hnames := List.pairwise_map.1 sig.pairwise_name_byName
    exact List.pairwise_map.2 ((hnames.filter kept).imp fun hlt =>
      List.le_of_lt (utf8_lt_iff.2 hlt))
  -- two sorted lists of the same entries are equal, as no two entries have the same bytes
  refine hperm.eq_of_pairwise (fun a b ha hb hab hba => ?_) hsorted hbyName
  obtain ⟨s, hs, rfl⟩ := List.mem_map.1 (hperm.mem_iff.1 ha)
  obtain ⟨t, ht, rfl⟩ := List.mem_map.1 hb
  have hname : s.name = t.name := utf8_injective (List.le_antisymm hab hba)
  have hs := Signature.mem_byName_iff.1 (List.mem_of_mem_filter hs)
  have ht := Signature.mem_byName_iff.1 (List.mem_of_mem_filter ht)
  rw [hname, ht] at hs
  rw [Option.some.inj hs]

/-- The symbols of a kind come by the bytes of their names, as the signature lists them. -/
theorem Records.ofKind (h : x.Records sig) (kind : SymbolKind) :
    x.ofKind kind = .ok ((sig.byName.filter (·.kind = kind)).map Symbol.id) := by
  set kept := sig.symbols.filter (·.kind = kind)
  have hids : x.symbols.ids.filterM (fun id => return (← x.kindOf id) = kind) =
      .ok (kept.map Symbol.id) := by
    have hall : x.symbols.ids = sig.symbols.map Symbol.id := by
      rw [sig.map_id_symbols, NameTable.ids, show x.symbols.size = sig.names.size from h.size_eq]
      rfl
    rw [hall]
    refine filterM_map_eq_ok fun s hs => ?_
    rw [h.kindOf_eq hs]
    rfl
  have hnamed : (kept.map Symbol.id).mapM (fun id => return (← x.nameOf id, id)) =
      .ok (kept.map named) := by
    refine mapM_eq_ok_iff.2 (List.forall₂_map_left_iff.2 (List.forall₂_map_right_iff.2 ?_))
    refine List.forall₂_same.2 fun s hs => ?_
    rw [h.nameOf_eq (List.mem_of_mem_filter hs)]
    rfl
  rw [Lexicon.ofKind, hids]
  show ((kept.map Symbol.id).mapM (fun id => return (← x.nameOf id, id)) >>= _) = _
  rw [hnamed]
  show Except.ok (((kept.map named).mergeSort fun a b => utf8 a.1 ≤ utf8 b.1).map Prod.snd) = _
  rw [mergeSort_named, List.map_map]
  rfl

/-- The operators in the order of the bytes of their names are those in the order of names. -/
theorem Records.operators_eq (h : x.Records sig) :
    x.operators = .ok (sig.operators.map Symbol.id) := h.ofKind .operator

/-- The same for the terminals. -/
theorem Records.terminals_eq (h : x.Records sig) :
    x.terminals = .ok (sig.terminals.map Symbol.id) := h.ofKind .terminal

-- ---------------------------------------------------------------------------
-- The stores in step
-- ---------------------------------------------------------------------------

/-- The numbers are those of names that ascend by their bytes. -/
def Ascending (x : Lexicon) (ids : List SymbolId) : Prop :=
  ∃ names, ids.mapM x.nameOf = .ok names ∧ (names.map utf8).Pairwise (· < ·)

/-- The stores of the lexicon are in step, the wildcard is the symbol number 0, and the lists by kind
divide the numbers. -/
structure Sound (x : Lexicon) : Prop where
  nameOf_iff : ∀ id, (∃ name, x.nameOf id = .ok name) ↔ id.val < x.size
  arityOf_iff : ∀ id, (∃ arity, x.arityOf id = .ok arity) ↔ id.val < x.size
  idOf?_iff : ∀ name id, x.idOf? name = some id ↔ x.nameOf id = .ok name
  wildcard_eq : x.wildcard = ⟨0⟩
  wildcard_name : x.nameOf ⟨0⟩ = .ok wildcardSymbol
  wildcard_arity : x.arityOf ⟨0⟩ = .ok 0
  kinds : ∃ operators terminals, x.operators = .ok operators ∧ x.terminals = .ok terminals ∧
    x.Ascending operators ∧ x.Ascending terminals ∧
    (x.wildcard :: (operators ++ terminals)).Perm x.symbols.ids ∧
    ∀ id arity, x.arityOf id = .ok arity → (id ∈ operators ↔ 1 ≤ arity)

theorem nameOf_eq_ok_iff {name : String} {id : SymbolId} :
    x.nameOf id = .ok name ↔ x.symbols.name? id = some name := found_eq_ok_iff

theorem arityOf_eq_ok_iff {arity : Nat} {id : SymbolId} :
    x.arityOf id = .ok arity ↔ x.arities[id.val]? = some arity := found_eq_ok_iff

/-- A number with an arity is that of a symbol with that arity. -/
theorem Records.exists_symbol (h : x.Records sig) {id : SymbolId} {arity : Nat}
    (harity : x.arityOf id = .ok arity) :
    ∃ s, sig.find? s.name = some s ∧ s.id = id ∧ s.arity = arity := by
  have hget : sig.arities[id.val]? = some arity := h.arities_eq ▸ arityOf_eq_ok_iff.1 harity
  have hlt : id.val < sig.names.size := sig.size_arities ▸ (Array.getElem?_eq_some_iff.1 hget).1
  obtain ⟨s, hs, rfl⟩ := Signature.mem_ids_iff.1 (Index.mem_range.2 hlt)
  have harity' := h.arityOf_eq (Signature.find?_eq_some_iff.1 hs).2
  exact ⟨s, hs, rfl, Except.ok.inj (harity'.symm.trans harity)⟩

/-- A listing by name ascends in the bytes of the names. -/
theorem Records.ascending (h : x.Records sig) (kept : Symbol → Bool) :
    x.Ascending ((sig.byName.filter kept).map Symbol.id) := by
  refine ⟨(sig.byName.filter kept).map Symbol.name, ?_, ?_⟩
  · refine mapM_eq_ok_iff.2 (List.forall₂_map_left_iff.2 (List.forall₂_map_right_iff.2 ?_))
    refine List.forall₂_same.2 fun s hs => h.nameOf_eq ?_
    exact sig.symbols_perm_byName.mem_iff.2 (List.mem_of_mem_filter hs)
  · have hnames := List.pairwise_map.1 sig.pairwise_name_byName
    exact List.pairwise_map.2 (List.pairwise_map.2 ((hnames.filter kept).imp utf8_lt_iff.2))

/-- Stores that record a signature are sound. -/
theorem Records.sound (h : x.Records sig) : x.Sound := by
  refine ⟨fun id => ?_, fun id => ?_, fun name id => ?_, h.wildcard_eq, ?_, ?_, ?_⟩
  · simp only [nameOf_eq_ok_iff, ← Option.isSome_iff_exists]
    exact Iff.of_eq (isSome_getElem? ..)
  · simp only [arityOf_eq_ok_iff, ← Option.isSome_iff_exists, h.arities_eq, h.size_eq]
    rw [isSome_getElem?, sig.size_arities]
    rfl
  · rw [h.idOf?_iff, nameOf_eq_ok_iff]
  · rw [nameOf_eq_ok_iff, h.name?_eq]
    exact sig.wildcard_name
  · rw [arityOf_eq_ok_iff, h.arities_eq]
    exact sig.wildcard_arity
  -- the kinds are listed without error, in order, and share the numbers out
  · refine ⟨_, _, h.operators_eq, h.terminals_eq, h.ascending _, h.ascending _, ?_, ?_⟩
    · rw [h.wildcard_eq, NameTable.ids, show x.symbols.size = sig.names.size from h.size_eq]
      exact sig.kinds_perm
    · intro id arity harity
      obtain ⟨s, hs, rfl, rfl⟩ := h.exists_symbol harity
      rw [Signature.mem_operatorIds_iff]
      constructor
      · rintro ⟨t, ⟨ht, hid⟩, hne⟩
        rw [← Signature.eq_of_id_eq ht hs hid]
        exact Nat.pos_of_ne_zero hne
      · exact fun hpos => ⟨s, ⟨hs, rfl⟩, Nat.ne_of_gt hpos⟩

-- ---------------------------------------------------------------------------
-- Any calls
-- ---------------------------------------------------------------------------

def AllAccepted (calls : List Tree) : Prop :=
  ∀ answer ∈ (empty.registerAll calls).1, answer = .ok ()

/-- A list is accepted as a whole by a lexicon if it is by the signature. -/
theorem Records.forall_accepted_iff (h : x.Records sig) (calls : List Tree) :
    (∀ answer ∈ (x.registerAll calls).1, answer = .ok ()) ↔
      ∃ sig', calls.foldlM Signature.register sig = .ok sig' := by
  induction calls generalizing x sig with
  | nil => exact iff_of_true (List.forall_mem_nil _) ⟨sig, rfl⟩
  | cons p calls ih =>
    rw [Lexicon.registerAll, List.foldlM_cons]
    obtain ⟨e, hregister, hrefused⟩ | ⟨mid, x', hregister, haccepted, hmid⟩ := register_records h p
    · rw [hrefused, hregister]
      refine iff_of_false (fun hall => ?_) ?_
      · cases hall _ List.mem_cons_self
      · rintro ⟨sig', hsig'⟩
        cases hsig'
    · rw [haccepted, hregister]
      exact List.forall_mem_cons.trans ((and_iff_right rfl).trans (ih hmid))

/-- A list of patterns is accepted exactly if symbols agree on their arity throughout. -/
theorem allAccepted_iff (calls : List Tree) : AllAccepted calls ↔
    Consistent (calls.flatMap Tree.preOrder) ∧
      ∀ node ∈ calls.flatMap Tree.preOrder, node.symbol = wildcardSymbol → node.arity = 0 :=
  (records_empty.forall_accepted_iff calls).trans (Signature.exists_foldlM_register_iff calls)

/-- Calls in two lists are calls in one. -/
theorem registerAll_append (x : Lexicon) (calls calls' : List Tree) :
    (x.registerAll (calls ++ calls')).2 = ((x.registerAll calls).2.registerAll calls').2 := by
  induction calls generalizing x with
  | nil => rfl
  | cons p calls ih => exact ih (x.register p).2

/-- An accepted pattern keeps to the arities for ever. -/
theorem arityOfName_of_accepted {before rest : List Tree} {p : Tree}
    (h : ((after before).register p).1 = .ok ()) {node : Tree} (hnode : node ∈ p.preOrder) :
    (after (before ++ p :: rest)).arityOfName node.symbol = .ok (some node.arity) := by
  obtain ⟨sig, hsig⟩ := exists_records before
  obtain ⟨e, -, hrefused⟩ | ⟨mid, x', hregister, haccepted, hmid⟩ := register_records hsig p
  · rw [hrefused] at h
    cases h
  · obtain ⟨sig', hsig', hextends⟩ := hmid.registerAll rest
    have hafter : after (before ++ p :: rest) = (x'.registerAll rest).2 := by
      rw [after, registerAll_append, registerAll, ← after, haccepted]
    rw [hafter, hsig'.arityOfName_eq]
    exact congrArg _ (((Signature.register_eq_ok hregister).2 node hnode).of_extends hextends)

/-- After any calls the stores of a lexicon are in step, and every pattern that was accepted at its
time keeps to the arities. A list is accepted as a whole if no symbol stands in it with two different
numbers of children and the wildcard never has any, so its order does not matter. -/
theorem sound_after_any_calls (calls : List Tree) :
    (after calls).Sound ∧
    (∀ before p rest, calls = before ++ p :: rest → ((after before).register p).1 = .ok () →
      ∀ node ∈ p.preOrder, (after calls).arityOfName node.symbol = .ok (some node.arity)) ∧
    (AllAccepted calls ↔
      (∀ a ∈ calls.flatMap Tree.preOrder, ∀ b ∈ calls.flatMap Tree.preOrder,
        a.symbol = b.symbol → a.arity = b.arity) ∧
      ∀ node ∈ calls.flatMap Tree.preOrder, node.symbol = wildcardSymbol → node.arity = 0) ∧
    ∀ calls', calls'.Perm calls → (AllAccepted calls' ↔ AllAccepted calls) := by
  refine ⟨?_, ?_, allAccepted_iff calls, fun calls' hperm => ?_⟩
  · obtain ⟨sig, hsig⟩ := exists_records calls
    exact hsig.sound
  · rintro before p rest rfl haccepted node hnode
    exact arityOfName_of_accepted haccepted hnode
  · have hmem (node : Tree) : node ∈ calls'.flatMap Tree.preOrder ↔
        node ∈ calls.flatMap Tree.preOrder := (hperm.flatMap_right _).mem_iff
    simp only [allAccepted_iff, Consistent, hmem]

end Lexicon

end TreePattern
