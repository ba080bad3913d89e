import TreePattern.Proofs.Transitions.Agreement
import Mathlib.Data.List.Perm.Basic

/-!
# Totals over all operators

The tables of the operators are kept under the operators' numbers, and totals over them are
added up in that order. They are the same when the operators are taken by name.

## Results

* `total_toList_ofList` — the total over a map is the total over the list it was made from.
* `Transitions.totalClasses_of_build` — the classes, operator by operator and slot by slot.
* `Transitions.totalEntries_of_build` — the entries, operator by operator.
-/

namespace TreePattern

-- ---------------------------------------------------------------------------
-- Totals over a map
-- ---------------------------------------------------------------------------

section Totals

variable {k : IndexKind} {β : Type} {l : List (Index k × β)}

/-- A map made from a list of distinct keys has the entries of the list, in some order. -/
theorem toList_ofList_perm (h : l.Pairwise fun e e' => e.1 ≠ e'.1) :
    (Std.TreeMap.ofList l).toList.Perm l := by
  have hnodup : (Std.TreeMap.ofList l).toList.Nodup := by
    refine Std.TreeMap.distinct_keys_toList.imp ?_
    intro e e' hne heq
    exact hne (Std.LawfulEqCmp.compare_eq_iff_eq.2 (congrArg Prod.fst heq))
  have hnodup' : l.Nodup := h.imp fun hne heq => hne (congrArg Prod.fst heq)
  rw [List.perm_ext_iff_of_nodup hnodup hnodup']
  intro ⟨i, b⟩
  rw [Std.TreeMap.mem_toList_iff_getElem?_eq_some, getElem?_ofList_iff h]

/-- A total does not depend on the order. -/
theorem total_eq_of_perm {m n : List Nat} (h : m.Perm n) : total m = total n :=
  h.foldr_op_eq

/-- A map made from a list with different keys has the totals of the list. -/
theorem total_toList_ofList (h : l.Pairwise fun e e' => e.1 ≠ e'.1) (g : Index k × β → Nat) :
    total ((Std.TreeMap.ofList l).toList.map g) = total (l.map g) :=
  total_eq_of_perm ((toList_ofList_perm h).map g)

end Totals

-- ---------------------------------------------------------------------------
-- The tables of all operators
-- ---------------------------------------------------------------------------

/-- The classes of an operator are those of its slots. -/
theorem OperatorTable.classCount_of_build {rule : MatchRule} {table : MatchSets} {op : Symbol}
    {t : OperatorTable} (h : build rule table op = .ok t) :
    t.classCount = total ((List.range op.arity).map fun k =>
      (t.slots[k]?.map SlotClasses.count).getD 0) := by
  rw [classCount, radices, (build_eq_ok h).1, List.map_map]
  refine congrArg total (List.map_congr_left ?_)
  intro k hk
  rw [List.getElem?_map, List.getElem?_range (List.mem_range.1 hk)]
  rfl

namespace Transitions

variable {rule : MatchRule} {table : MatchSets} {tables : Transitions}

/-- The total over all operators is the total over them by name. -/
theorem exists_total_eq (h : build rule table = .ok tables) :
    ∃ built : List (Symbol × OperatorTable), built.map Prod.fst = rule.signature.operators ∧
      (∀ entry ∈ built, OperatorTable.build rule table entry.1 = .ok entry.2) ∧
      ∀ g : OperatorTable → Nat, total (tables.operators.toList.map fun entry => g entry.2) =
        total (built.map fun entry => g entry.2) := by
  obtain ⟨built, htables, hfst, hok⟩ := build_eq_ok h
  refine ⟨built, hfst, hok, ?_⟩
  intro g
  rw [htables, total_toList_ofList (Signature.pairwise_keys_of_operators hfst), List.map_map]
  rfl

/-- A total over the tables, operator by operator. -/
theorem total_of_build (h : build rule table = .ok tables) (g : OperatorTable → Nat) :
    total (tables.operators.toList.map fun entry => g entry.2) =
      total (rule.signature.operators.map fun op =>
        ((tables.operator? op.id).map g).getD 0) := by
  obtain ⟨built, hfst, hok, htotal⟩ := exists_total_eq h
  rw [htotal, ← hfst, List.map_map]
  refine congrArg total (List.map_congr_left ?_)
  intro entry hentry
  have hop : entry.1 ∈ rule.signature.operators := hfst ▸ List.mem_map.2 ⟨entry, hentry, rfl⟩
  obtain ⟨t, hbuild, ht⟩ := operator?_of_mem h hop
  obtain rfl : entry.2 = t := Except.ok.inj ((hok entry hentry).symm.trans hbuild)
  rw [Function.comp_apply, ht]
  rfl

/-- The classes are counted once for each child of each operator. -/
theorem totalClasses_of_build (h : build rule table = .ok tables) :
    tables.totalClasses = total (rule.signature.operators.map fun op =>
      total ((List.range op.arity).map (tables.classCount op.id))) := by
  rw [totalClasses, total_of_build h]
  refine congrArg total (List.map_congr_left ?_)
  intro op hop
  obtain ⟨t, hbuild, ht⟩ := operator?_of_mem h hop
  rw [ht, Option.map_some, Option.getD_some, OperatorTable.classCount_of_build hbuild]
  refine congrArg total (List.map_congr_left ?_)
  intro k _
  rw [classCount, slot?, ht]
  rfl

/-- The entries are counted operator by operator. -/
theorem totalEntries_of_build (h : build rule table = .ok tables) :
    tables.totalEntries = total (rule.signature.operators.map fun op =>
      ((tables.operator? op.id).map fun t => t.entries.length).getD 0) :=
  total_of_build h fun t => t.entries.length

end Transitions

end TreePattern
