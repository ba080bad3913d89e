import TreePattern.Signature

/-!
# The symbols of a signature

A signature knows a symbol by its number and by its name, and both ways lead to the same
symbol. The operators and the terminals are read off this: they are the known symbols with and
without children, the wildcard left out, each listed once.

## Results

* `Signature.find?_eq_some_iff`   — a name leads to the symbol that carries it.
* `Signature.mem_operators_iff`   — the operators are the known symbols with children.
* `Signature.mem_terminals_iff`   — the terminals are the others, without the wildcard.
* `Signature.pairwise_operators`  — no operator is listed twice.
-/

namespace TreePattern

/-- A map made from a list of distinct numbers finds what the list holds under a number. -/
theorem getElem?_ofList_iff {k : IndexKind} {β : Type} {l : List (Index k × β)}
    (h : l.Pairwise fun e e' => e.1 ≠ e'.1) {i : Index k} {b : β} :
    (Std.TreeMap.ofList l)[i]? = some b ↔ (i, b) ∈ l := by
  have hfound : ∀ b', (i, b') ∈ l → (Std.TreeMap.ofList l)[i]? = some b' := fun b' hb' =>
    Std.TreeMap.getElem?_ofList_of_mem (by simp)
      (h.imp fun hne heq => hne (Std.LawfulEqCmp.compare_eq_iff_eq.1 heq)) hb'
  refine ⟨fun hb => ?_, hfound b⟩
  by_cases hmem : i ∈ l.map Prod.fst
  · obtain ⟨⟨i', b'⟩, hb', heq⟩ := List.mem_map.1 hmem
    obtain rfl : i' = i := heq
    rwa [Option.some.inj (hb.symm.trans (hfound b' hb'))]
  · have hnone : (Std.TreeMap.ofList l)[i]? = none :=
      Std.TreeMap.getElem?_ofList_of_contains_eq_false (by simpa using hmem)
    exact absurd (hnone.symm.trans hb) (by simp)

namespace Signature

-- ---------------------------------------------------------------------------
-- Symbols by number and by name
-- ---------------------------------------------------------------------------

/-- A symbol is put together from the name and the arity under its number. -/
theorem symbol?_eq_some_iff {sig : Signature} {id : SymbolId} {s : Symbol} :
    sig.symbol? id = some s ↔
      s.id = id ∧ sig.names.get? id = some s.name ∧ sig.arities[id.val]? = some s.arity := by
  unfold symbol?
  split
  · next name arity hname harity =>
    rw [hname, harity]
    constructor
    · intro h
      cases h
      exact ⟨rfl, rfl, rfl⟩
    · rintro ⟨rfl, hn, ha⟩
      cases hn
      cases ha
      rfl
  · next hnone =>
    constructor
    · exact fun h => absurd h (by simp)
    · rintro ⟨-, hn, ha⟩
      exact absurd ha (hnone _ _ hn)

/-- A name finds the symbol that has it. -/
theorem find?_eq_some_iff {sig : Signature} {name : String} {s : Symbol} :
    sig.find? name = some s ↔ s.name = name ∧ sig.symbol? s.id = some s := by
  rw [find?, idOf?, Option.bind_eq_some_iff]
  constructor
  · rintro ⟨id, hid, hs⟩
    obtain ⟨rfl, hname, -⟩ := symbol?_eq_some_iff.1 hs
    rw [Numbering.idOf?_eq_some_iff, hname] at hid
    exact ⟨Option.some.inj hid, hs⟩
  · rintro ⟨rfl, hs⟩
    obtain ⟨-, hname, -⟩ := symbol?_eq_some_iff.1 hs
    exact ⟨s.id, Numbering.idOf?_eq_some_iff.2 hname, hs⟩

/-- A known number belongs to a known symbol. -/
theorem exists_find?_of_idOf? {sig : Signature} {name : String} {id : SymbolId}
    (h : sig.idOf? name = some id) : ∃ s, sig.find? name = some s ∧ s.id = id := by
  have hget := Numbering.idOf?_eq_some_iff.1 h
  obtain ⟨s, hs⟩ := Option.isSome_iff_exists.1 (symbol?_isSome hget)
  refine ⟨s, ?_, (symbol?_eq_some_iff.1 hs).1⟩
  rw [find?, h, Option.bind_some, hs]

/-- The number of a name is that of its symbol. -/
theorem idOf?_of_find? {sig : Signature} {name : String} {s : Symbol}
    (h : sig.find? name = some s) : sig.idOf? name = some s.id := by
  obtain ⟨rfl, hs⟩ := find?_eq_some_iff.1 h
  exact Numbering.idOf?_eq_some_iff.2 (symbol?_eq_some_iff.1 hs).2.1

/-- A name has a number exactly if it finds a symbol. -/
theorem idOf?_eq_map_find? (sig : Signature) (name : String) :
    sig.idOf? name = (sig.find? name).map Symbol.id := by
  cases h : sig.find? name with
  | none => exact find?_eq_none_iff.1 h
  | some s => exact idOf?_of_find? h

/-- No number belongs to two symbols. -/
theorem eq_of_id_eq {sig : Signature} {m n : String} {s t : Symbol} (hs : sig.find? m = some s)
    (ht : sig.find? n = some t) (h : s.id = t.id) : s = t := by
  have hs := (find?_eq_some_iff.1 hs).2
  have ht := (find?_eq_some_iff.1 ht).2
  rw [h, ht] at hs
  exact (Option.some.inj hs).symm

/-- The wildcard is in every signature. -/
theorem find?_wildcardSymbol (sig : Signature) :
    sig.find? wildcardSymbol = some ⟨Symbol.wildcardId, wildcardSymbol, 0⟩ :=
  find?_eq_some_iff.2 ⟨rfl, symbol?_eq_some_iff.2 ⟨rfl, sig.wildcard_name, sig.wildcard_arity⟩⟩

/-- It has the first number. -/
theorem idOf?_wildcardSymbol (sig : Signature) :
    sig.idOf? wildcardSymbol = some Symbol.wildcardId :=
  idOf?_of_find? sig.find?_wildcardSymbol

/-- The arity of a name is that of its symbol. -/
theorem arityOf?_eq_some_iff {sig : Signature} {name : String} {n : Nat} :
    sig.arityOf? name = some n ↔ ∃ s, sig.find? name = some s ∧ s.arity = n := by
  rw [arityOf?, Option.map_eq_some_iff]

-- ---------------------------------------------------------------------------
-- Operators and terminals
-- ---------------------------------------------------------------------------

/-- The listing by name has every symbol that can be found. -/
theorem mem_byName_iff {sig : Signature} {s : Symbol} :
    s ∈ sig.byName ↔ sig.find? s.name = some s := by
  rw [byName, List.mem_filterMap]
  constructor
  · rintro ⟨⟨name, id⟩, -, hs⟩
    have hs : sig.symbol? id = some s := hs
    obtain rfl : s.id = id := (symbol?_eq_some_iff.1 hs).1
    exact find?_eq_some_iff.2 ⟨rfl, hs⟩
  · intro h
    refine ⟨(s.name, s.id), ?_, (find?_eq_some_iff.1 h).2⟩
    rw [Std.TreeMap.mem_toList_iff_getElem?_eq_some]
    exact idOf?_of_find? h

/-- The list by name holds each symbol once. -/
theorem pairwise_byName (sig : Signature) : sig.byName.Pairwise fun s t => s.id ≠ t.id := by
  rw [byName, List.pairwise_filterMap]
  refine (Std.TreeMap.ordered_keys_toList (t := sig.names.numbers)).imp_of_mem ?_
  rintro ⟨m, i⟩ ⟨n, j⟩ hm hn hlt s hs t ht
  obtain ⟨rfl, hsn, -⟩ := symbol?_eq_some_iff.1 hs
  obtain ⟨rfl, htn, -⟩ := symbol?_eq_some_iff.1 ht
  rw [Std.TreeMap.mem_toList_iff_getElem?_eq_some] at hm hn
  have hm : sig.names.idOf? m = some s.id := hm
  have hn : sig.names.idOf? n = some t.id := hn
  intro heq
  rw [heq, Numbering.idOf?_eq_some_iff] at hm
  rw [Numbering.idOf?_eq_some_iff, hm] at hn
  obtain rfl : m = n := Option.some.inj hn
  exact absurd hlt (by simp)

/-- An operator is a symbol with children. -/
theorem mem_operators_iff {sig : Signature} {s : Symbol} :
    s ∈ sig.operators ↔ sig.find? s.name = some s ∧ s.arity ≠ 0 := by
  rw [operators, List.mem_filter, mem_byName_iff]
  refine and_congr_right ?_
  intro h
  rw [Symbol.isOperator, Symbol.kind, decide_eq_true_eq]
  by_cases hw : s.name = wildcardSymbol
  · -- the wildcard has arity 0, so it is on neither side
    rw [hw, find?_wildcardSymbol] at h
    cases h
    simp
  · by_cases ha : s.arity = 0
    · simp [hw, ha]
    · simp [hw, ha]

/-- A terminal is a symbol without, other than the wildcard. -/
theorem mem_terminals_iff {sig : Signature} {s : Symbol} :
    s ∈ sig.terminals ↔ sig.find? s.name = some s ∧ s.name ≠ wildcardSymbol ∧ s.arity = 0 := by
  rw [terminals, List.mem_filter, mem_byName_iff]
  refine and_congr_right ?_
  intro _
  rw [Symbol.isTerminal, Symbol.kind, decide_eq_true_eq]
  by_cases hw : s.name = wildcardSymbol
  · simp [hw]
  · by_cases ha : s.arity = 0
    · simp [hw, ha]
    · simp [hw, ha]

/-- Different operators have different numbers. -/
theorem pairwise_operators (sig : Signature) : sig.operators.Pairwise fun s t => s.id ≠ t.id :=
  sig.pairwise_byName.filter _

/-- Entries for the operators have distinct keys. -/
theorem pairwise_keys_of_operators {sig : Signature} {α : Type} {l : List (Symbol × α)}
    (h : l.map Prod.fst = sig.operators) :
    (l.map fun entry => (entry.1.id, entry.2)).Pairwise fun e e' => e.1 ≠ e'.1 := by
  have hpair := sig.pairwise_operators
  rw [← h, List.pairwise_map] at hpair
  rw [List.pairwise_map]
  exact hpair

end Signature

end TreePattern
