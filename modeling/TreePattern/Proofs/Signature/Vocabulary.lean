import TreePattern.Proofs.Numbering
import TreePattern.Proofs.Signature.Registration
import Mathlib.Data.List.Sort
import Mathlib.Data.String.Basic

/-!
# Vocabularies

What a list of patterns leaves in its signature, apart from the numbers, are the symbols of its
subpatterns and their arities. So lists with the same subpatterns are both accepted or both
refused, and their signatures list the same symbols by name, whatever the order in which the
patterns were registered and however often.

## Results

* `Signature.symbol_of_foldlM_register`  — every symbol stands in some pattern.
* `Signature.exists_signature_of_same`  — the same subpatterns leave the same arities.
* `Signature.forall₂_byName`            — the same arities list the same symbols.
* `Signature.forall₂_operators`, `Signature.forall₂_terminals` — and so with the kinds.
-/

namespace TreePattern

/-- The wildcard, or a subtree of one of the patterns. -/
def Tree.IsSubpattern (patterns : List Tree) (t : Tree) : Prop :=
  t = wildcard ∨ ∃ p ∈ patterns, t ∈ p.preOrder

/-- Neither the order of the patterns nor a repetition changes their subpatterns. -/
theorem Tree.isSubpattern_iff_of_mem_iff {P Q : List Tree} (h : ∀ p, p ∈ P ↔ p ∈ Q) (t : Tree) :
    IsSubpattern P t ↔ IsSubpattern Q t :=
  or_congr_right (exists_congr fun p => and_congr_left fun _ => h p)

namespace Symbol

/-- Two symbols that differ in their numbers at most. -/
structure Same (s s' : Symbol) : Prop where
  name : s.name = s'.name
  arity : s.arity = s'.arity

/-- Symbols with the same name and arity are of the same kind. -/
theorem Same.kind {s s' : Symbol} (h : s.Same s') : s.kind = s'.kind := by
  unfold Symbol.kind
  rw [h.name, h.arity]

theorem Same.isOperator {s s' : Symbol} (h : s.Same s') : s.isOperator = s'.isOperator := by
  unfold Symbol.isOperator
  rw [h.kind]

theorem Same.isTerminal {s s' : Symbol} (h : s.Same s') : s.isTerminal = s'.isTerminal := by
  unfold Symbol.isTerminal
  rw [h.kind]

end Symbol

namespace Signature

variable {sig ref : Signature} {P Q : List Tree}

/-- Every symbol of the first signature is one of the second, with the same arity. The numbers
may differ. -/
def Within (sig ref : Signature) : Prop :=
  ∀ name n, sig.arityOf? name = some n → ref.arityOf? name = some n

-- ---------------------------------------------------------------------------
-- Registering a known vocabulary
-- ---------------------------------------------------------------------------

/-- The only name that the empty signature knows is the wildcard's. -/
theorem name_of_find?_empty {name : String} {s : Symbol} (hs : empty.find? name = some s) :
    name = wildcardSymbol := by
  obtain ⟨rfl, hid⟩ := find?_eq_some_iff.1 hs
  have hname : s.name ∈ empty.names.toList :=
    Numbering.mem_toList_iff.2 ⟨_, (symbol?_eq_some_iff.1 hid).2.1⟩
  have hnames : empty.names.toList = [wildcardSymbol] := rfl
  rw [hnames] at hname
  exact List.mem_singleton.1 hname

/-- A new signature knows the wildcard only, which every signature does. -/
theorem within_empty (ref : Signature) : empty.Within ref := by
  intro name n hn
  obtain ⟨s, hs, rfl⟩ := arityOf?_eq_some_iff.1 hn
  obtain rfl := name_of_find?_empty hs
  rw [find?_wildcardSymbol] at hs
  cases hs
  exact arityOf?_eq_some_iff.2 ⟨_, ref.find?_wildcardSymbol, rfl⟩

/-- After an addition a symbol was there before or is the one added. -/
theorem find?_add_eq_some {name m : String} {arity : Nat} {s : Symbol}
    (h : sig.idOf? name = none) (hs : (sig.add name arity h).find? m = some s) :
    sig.find? m = some s ∨ m = name ∧ s.arity = arity := by
  obtain ⟨rfl, hid⟩ := find?_eq_some_iff.1 hs
  by_cases hm : s.name = name
  · rw [hm, find?_add_self] at hs
    cases hs
    exact Or.inr ⟨hm, rfl⟩
  · obtain ⟨-, hget, harity⟩ := symbol?_eq_some_iff.1 hid
    rcases Numbering.get?_insert_eq_some hget with hold | ⟨heq, -⟩
    · have hlt : s.id.val < sig.arities.size :=
        sig.size_arities ▸ Numbering.val_lt_size_of_get? hold
      rw [add, Array.getElem?_push, if_neg (Nat.ne_of_lt hlt)] at harity
      exact Or.inl (find?_eq_some_iff.2 ⟨rfl, symbol?_eq_some_iff.2 ⟨rfl, hold, harity⟩⟩)
    · exact absurd heq hm

/-- A node of a known vocabulary is accepted, and adds nothing to it. -/
theorem exists_record (h : sig.Within ref) {node : Tree} (hfits : ref.Fits node) :
    ∃ sig', sig.record node = .ok sig' ∧ sig'.Within ref := by
  unfold record
  split
  · next hnone =>
    refine ⟨_, rfl, ?_⟩
    intro name n hn
    obtain ⟨s, hs, rfl⟩ := arityOf?_eq_some_iff.1 hn
    rcases find?_add_eq_some _ hs with hold | ⟨rfl, harity⟩
    · exact h name _ (arityOf?_eq_some_iff.2 ⟨s, hold, rfl⟩)
    · rw [harity]
      exact hfits
  · next s hs =>
    have harity : ref.arityOf? node.symbol = some s.arity :=
      h _ _ (arityOf?_eq_some_iff.2 ⟨s, hs, rfl⟩)
    have heq : s.arity = node.arity := Option.some.inj (harity.symm.trans hfits)
    rw [if_pos heq]
    exact ⟨sig, rfl, h⟩

/-- Nodes that fit a larger signature can be recorded. -/
theorem exists_register (h : sig.Within ref) {nodes : List Tree}
    (hfits : ∀ node ∈ nodes, ref.Fits node) :
    ∃ sig', nodes.foldlM record sig = .ok sig' ∧ sig'.Within ref := by
  induction nodes generalizing sig with
  | nil => exact ⟨sig, rfl, h⟩
  | cons node nodes ih =>
    obtain ⟨mid, hmid, hwithin⟩ := exists_record h (hfits node List.mem_cons_self)
    obtain ⟨sig', hsig', hwithin'⟩ := ih hwithin fun n hn => hfits n (List.mem_cons_of_mem _ hn)
    exact ⟨sig', foldlM_cons_eq_ok_iff.2 ⟨mid, hmid, hsig'⟩, hwithin'⟩

/-- Patterns of a known vocabulary are all accepted, and add nothing to it. -/
theorem exists_foldlM_register (h : sig.Within ref)
    (hfits : ∀ p ∈ P, ∀ node ∈ p.preOrder, ref.Fits node) :
    ∃ sig', P.foldlM register sig = .ok sig' ∧ sig'.Within ref := by
  induction P generalizing sig with
  | nil => exact ⟨sig, rfl, h⟩
  | cons p P ih =>
    obtain ⟨mid, hmid, hwithin⟩ := exists_register h (hfits p List.mem_cons_self)
    obtain ⟨sig', hsig', hwithin'⟩ := ih hwithin fun q hq => hfits q (List.mem_cons_of_mem _ hq)
    exact ⟨sig', foldlM_cons_eq_ok_iff.2 ⟨mid, hmid, hsig'⟩, hwithin'⟩

-- ---------------------------------------------------------------------------
-- The symbols of the patterns
-- ---------------------------------------------------------------------------

/-- Recording a node brings in its symbol at most. -/
theorem symbol_of_record {sig' : Signature} {node : Tree} (h : sig.record node = .ok sig')
    {name : String} {s : Symbol} (hs : sig'.find? name = some s) :
    (sig.find? name).isSome ∨ node.symbol = name := by
  unfold record at h
  split at h
  · cases h
    rcases find?_add_eq_some _ hs with hold | ⟨rfl, -⟩
    · exact Or.inl (Option.isSome_iff_exists.2 ⟨s, hold⟩)
    · exact Or.inr rfl
  · split at h
    · cases h
      exact Or.inl (Option.isSome_iff_exists.2 ⟨s, hs⟩)
    · exact absurd h (by simp)

/-- If each step of a fold brings in the names that occur in its element at most, the names at the
end were there before or occur in an element. -/
theorem symbol_of_foldlM {α : Type} {f : Signature → α → Except BuildError Signature}
    {motive : α → String → Prop}
    (hstep : ∀ sig sig' a, f sig a = .ok sig' → ∀ name s, sig'.find? name = some s →
      (sig.find? name).isSome ∨ motive a name)
    {as : List α} {sig' : Signature} (h : as.foldlM f sig = .ok sig') {name : String} {s : Symbol}
    (hs : sig'.find? name = some s) :
    (sig.find? name).isSome ∨ ∃ a ∈ as, motive a name := by
  induction as generalizing sig with
  | nil =>
    cases h
    exact Or.inl (Option.isSome_iff_exists.2 ⟨s, hs⟩)
  | cons a as ih =>
    obtain ⟨mid, hmid, hrest⟩ := foldlM_cons_eq_ok_iff.1 h
    rcases ih hrest with hsome | ⟨b, hb, hoccurs⟩
    · obtain ⟨s', hs'⟩ := Option.isSome_iff_exists.1 hsome
      exact (hstep _ _ _ hmid name s' hs').imp_right fun ha => ⟨a, List.mem_cons_self, ha⟩
    · exact Or.inr ⟨b, List.mem_cons_of_mem _ hb, hoccurs⟩

/-- A symbol after a registration was there before or comes from the pattern. -/
theorem symbol_of_register {sig' : Signature} {pattern : Tree}
    (h : sig.register pattern = .ok sig') {name : String} {s : Symbol}
    (hs : sig'.find? name = some s) :
    (sig.find? name).isSome ∨ ∃ node ∈ pattern.preOrder, node.symbol = name :=
  symbol_of_foldlM (motive := fun node name => node.symbol = name)
    (fun _ _ _ hrecord _ _ hfind => symbol_of_record hrecord hfind) h hs

/-- Every symbol of the registered patterns stands at a node of one of them, or is the wildcard. -/
theorem symbol_of_foldlM_register (h : P.foldlM register empty = .ok sig) {name : String}
    {s : Symbol} (hs : sig.find? name = some s) :
    name = wildcardSymbol ∨ ∃ p ∈ P, ∃ node ∈ p.preOrder, node.symbol = name := by
  rcases symbol_of_foldlM (motive := fun p name => ∃ node ∈ p.preOrder, node.symbol = name)
    (fun _ _ _ hregister _ _ hfind => symbol_of_register hregister hfind) h hs with hsome | hoccurs
  · obtain ⟨s', hs'⟩ := Option.isSome_iff_exists.1 hsome
    exact Or.inl (name_of_find?_empty hs')
  · exact Or.inr hoccurs

-- ---------------------------------------------------------------------------
-- The same subpatterns
-- ---------------------------------------------------------------------------

/-- Every subpattern has the arity of its symbol. -/
theorem fits_of_isSubpattern (h : P.foldlM register empty = .ok sig) {t : Tree}
    (ht : t.IsSubpattern P) : sig.Fits t := by
  rcases ht with rfl | ⟨p, hp, ht⟩
  · exact arityOf?_eq_some_iff.2 ⟨_, sig.find?_wildcardSymbol, rfl⟩
  · exact (foldlM_register_eq_ok h).2 p hp t ht

/-- If the patterns of a list are accepted, so are those of any list with the same subpatterns,
and the symbols they leave have the same arities. -/
theorem exists_signature_of_same (hsame : ∀ t, Tree.IsSubpattern P t ↔ Tree.IsSubpattern Q t)
    (h : P.foldlM register empty = .ok sig) :
    ∃ sig', Q.foldlM register empty = .ok sig' ∧
      ∀ name, sig.arityOf? name = sig'.arityOf? name := by
  obtain ⟨sig', hsig', hwithin⟩ := exists_foldlM_register (within_empty sig)
    (fun q hq node hn => fits_of_isSubpattern h ((hsame node).2 (Or.inr ⟨q, hq, hn⟩)))
  obtain ⟨sig'', hsig'', hwithin'⟩ := exists_foldlM_register (within_empty sig')
    (fun p hp node hn => fits_of_isSubpattern hsig' ((hsame node).1 (Or.inr ⟨p, hp, hn⟩)))
  obtain rfl : sig = sig'' := Except.ok.inj (h.symm.trans hsig'')
  refine ⟨sig', hsig', ?_⟩
  intro name
  refine Option.ext ?_
  intro n
  exact ⟨hwithin' name n, hwithin name n⟩

-- ---------------------------------------------------------------------------
-- Symbols by name
-- ---------------------------------------------------------------------------

/-- The listing by name is ascending in the names. -/
theorem pairwise_name_byName (sig : Signature) :
    (sig.byName.map Symbol.name).Pairwise (· < ·) := by
  rw [byName, List.pairwise_map, List.pairwise_filterMap]
  refine (Std.TreeMap.ordered_keys_toList (t := sig.names.numbers)).imp_of_mem ?_
  rintro ⟨m, i⟩ ⟨n, j⟩ hm hn hlt s hs t ht
  rw [Std.TreeMap.mem_toList_iff_getElem?_eq_some] at hm hn
  have hm : sig.names.get? i = some m := Numbering.idOf?_eq_some_iff.1 hm
  have hn : sig.names.get? j = some n := Numbering.idOf?_eq_some_iff.1 hn
  obtain rfl : m = s.name := Option.some.inj (hm.symm.trans (symbol?_eq_some_iff.1 hs).2.1)
  obtain rfl : n = t.name := Option.some.inj (hn.symm.trans (symbol?_eq_some_iff.1 ht).2.1)
  exact compare_lt_iff_lt.1 hlt

/-- The names listed are those with an arity. -/
theorem mem_names_iff {name : String} :
    name ∈ sig.byName.map Symbol.name ↔ (sig.arityOf? name).isSome := by
  rw [List.mem_map, Option.isSome_iff_exists]
  constructor
  · rintro ⟨s, hs, rfl⟩
    exact ⟨s.arity, arityOf?_eq_some_iff.2 ⟨s, mem_byName_iff.1 hs, rfl⟩⟩
  · rintro ⟨n, hn⟩
    obtain ⟨s, hs, -⟩ := arityOf?_eq_some_iff.1 hn
    obtain ⟨rfl, -⟩ := find?_eq_some_iff.1 hs
    exact ⟨s, mem_byName_iff.2 hs, rfl⟩

variable {sig' : Signature}

/-- Signatures with the same arities list the same symbols by name. -/
theorem forall₂_byName (h : ∀ name, sig.arityOf? name = sig'.arityOf? name) :
    List.Forall₂ Symbol.Same sig.byName sig'.byName := by
  have hnames : sig.byName.map Symbol.name = sig'.byName.map Symbol.name := by
    refine List.Pairwise.eq_of_mem_iff sig.pairwise_name_byName sig'.pairwise_name_byName ?_
    intro name
    rw [mem_names_iff, mem_names_iff, h name]
  -- both listings are ascending, so they name the same symbols place by place
  have hpaired : List.Forall₂ (fun s s' => s.name = s'.name) sig.byName sig'.byName := by
    rw [← List.forall₂_map_right_iff, ← List.forall₂_map_left_iff, hnames, List.forall₂_eq_eq_eq]
  refine forall₂_imp_of_mem hpaired ?_
  intro s hs s' hs' hname
  have harity : sig.arityOf? s.name = some s.arity :=
    arityOf?_eq_some_iff.2 ⟨s, mem_byName_iff.1 hs, rfl⟩
  have harity' : sig'.arityOf? s'.name = some s'.arity :=
    arityOf?_eq_some_iff.2 ⟨s', mem_byName_iff.1 hs', rfl⟩
  rw [h s.name, hname, harity'] at harity
  exact ⟨hname, (Option.some.inj harity).symm⟩

/-- Signatures with the same arities list the same operators. -/
theorem forall₂_operators (h : ∀ name, sig.arityOf? name = sig'.arityOf? name) :
    List.Forall₂ Symbol.Same sig.operators sig'.operators := by
  refine List.rel_filter ?_ (forall₂_byName h)
  intro s s' hs
  exact Bool.eq_iff_iff.1 hs.isOperator

/-- They list the same terminals. -/
theorem forall₂_terminals (h : ∀ name, sig.arityOf? name = sig'.arityOf? name) :
    List.Forall₂ Symbol.Same sig.terminals sig'.terminals := by
  refine List.rel_filter ?_ (forall₂_byName h)
  intro s s' hs
  exact Bool.eq_iff_iff.1 hs.isTerminal

end Signature

end TreePattern
