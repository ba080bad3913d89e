import TreePattern.Proofs.MatchSets.Layers
import TreePattern.Proofs.MatchSets.Ledger
import TreePattern.Proofs.MatchSets.Termination

/-!
# What a ledger holds at any time

The sets of a ledger that starts with the leaf states of a forest lie over the members of that
forest, none is there twice, and its two stores are inverse to each other. This stays so however
often the ledger is closed and with whatever limits, a search that its limit stopped included, since
such a search leaves what it has found for the next one to go on from. A search only adds: the set
of a number that is in use stays what it is.

## Results

* `Ledger.Over.sound`      — a ledger that records a table of sets over a forest is sound.
* `Ledger.over_ofLeaves`   — the leaf states are.
* `Ledger.Over.close`      — and so is what a search leaves.
* `Ledger.get?_of_close`   — a search changes no set that has a number.
* `Ledger.sound_at_any_time` — any searches in a row leave a sound ledger.
-/

namespace TreePattern

namespace Ledger

variable {f : Forest} {l : Ledger} {rule : MatchRule} {limit : Nat}

/-- The ledger after the given searches, each with its projection and limit. A search that its limit
stopped is followed by the next one as any other is. -/
def closeInTurn (sig : Signature) (f : Forest) (calls : List (Relevance × Nat)) (l : Ledger) :
    Except BuildError Ledger :=
  calls.foldlM (fun l call => do
    let c ← l.close ⟨sig, f, call.1⟩ call.2
    return c.ledger) l

-- ---------------------------------------------------------------------------
-- Sound ledgers
-- ---------------------------------------------------------------------------

/-- An ascending set of members of a forest, the wildcard among them. -/
structure SetOver (f : Forest) (set : List MemberId) : Prop where
  ascending : set.Pairwise (· < ·)
  wildcard_mem : f.wildcard ∈ set
  val_lt_size : ∀ i ∈ set, i.val < f.size

/-- The ledger holds different sets over the forest, the wildcard's first, and its two stores are
inverse to each other. -/
structure Sound (f : Forest) (l : Ledger) : Prop where
  setOver : ∀ set ∈ l.sets, SetOver f set
  nodup : l.sets.toList.Nodup
  get?_wildcardState : l.get? MatchSets.wildcardState = some [f.wildcard]
  idOf?_iff : ∀ set state, l.idOf? set = some state ↔ l.get? state = some set

/-- The ledger records some table, and its sets lie over the forest. -/
structure Over (f : Forest) (l : Ledger) : Prop where
  records : ∃ table, l.Records table
  wildcard_eq : l.wildcard = f.wildcard
  setOver : ∀ set ∈ l.sets, SetOver f set

/-- A ledger over a forest is sound for it. -/
theorem Over.sound (h : l.Over f) : l.Sound f := by
  obtain ⟨table, htable⟩ := h.records
  refine ⟨h.setOver, ?_, ?_, fun set state => ?_⟩
  · rw [htable.toList_eq]
    exact table.sets.nodup_toList
  · rw [htable.get?_eq, ← h.wildcard_eq, htable.wildcard_eq]
    exact table.get?_zero
  · rw [htable.idOf?_eq, htable.get?_eq]
    exact Numbering.idOf?_eq_some_iff

-- ---------------------------------------------------------------------------
-- The leaf states
-- ---------------------------------------------------------------------------

theorem val_wildcard_lt_size (f : Forest) : f.wildcard.val < f.size :=
  Numbering.val_lt_size_of_idOf? f.idOf?_wildcard

theorem setOver_singleton (f : Forest) : SetOver f [f.wildcard] where
  ascending := List.pairwise_singleton ..
  wildcard_mem := List.mem_singleton_self _
  val_lt_size _ hi := List.mem_singleton.1 hi ▸ val_wildcard_lt_size f

/-- A leaf state lies over the forest. -/
theorem setOver_leafSet {symbol : SymbolId} {leaf : MemberId} (h : f.leaf? symbol = some leaf) :
    SetOver f (MatchSets.leafSet f.wildcard leaf) where
  ascending := Index.sorted_pairwise _
  wildcard_mem := Index.mem_sorted.2 List.mem_cons_self
  val_lt_size i hi := by
    rcases List.mem_cons.1 (Index.mem_sorted.1 hi) with rfl | hi
    · exact val_wildcard_lt_size f
    · exact List.mem_singleton.1 hi ▸ Numbering.val_lt_size_of_idOf? h

/-- The ledger of the leaf states lies over the forest it is made from. -/
theorem over_ofLeaves (sig : Signature) (f : Forest) : (ofLeaves sig f).Over f := by
  have hrecords := records_ofLeaves sig f
  refine ⟨⟨_, hrecords⟩, hrecords.wildcard_eq.trans (MatchSets.wildcard_ofLeaves sig f), ?_⟩
  intro set hset
  rw [← Array.mem_toList_iff, hrecords.toList_eq, MatchSets.mem_ofLeaves_iff] at hset
  rcases hset with rfl | ⟨t, -, leaf, hleaf, rfl⟩
  · exact setOver_singleton f
  · exact setOver_leafSet hleaf

-- ---------------------------------------------------------------------------
-- Searches
-- ---------------------------------------------------------------------------

/-- What a search over a ledger with the wildcard of the forest enters lies over the forest. -/
theorem Gains.setOver {before after : Ledger} {new : List (List MemberId)}
    (h : Gains rule before after new) (hwildcard : before.wildcard = rule.forest.wildcard) :
    ∀ set ∈ new, SetOver rule.forest set := by
  intro set hset
  refine ⟨h.ascending set hset, hwildcard ▸ h.wildcard_mem set hset, fun i hi => ?_⟩
  have hmem := (h.attainable set hset).subset hi
  rw [MatchRule.attainable, Index.mem_sorted, List.mem_cons, hwildcard] at hmem
  rcases hmem with rfl | hmem
  · exact val_wildcard_lt_size rule.forest
  · exact Index.mem_range.1 hmem

/-- Whatever projection and limit a search is given, and however it ends, it leaves a ledger over
the forest. -/
theorem Over.close (rule : MatchRule) (limit : Nat) (h : l.Over rule.forest) :
    ∃ c, l.close rule limit = .ok c ∧ c.ledger.Over rule.forest := by
  obtain ⟨table, htable⟩ := h.records
  obtain ⟨c, hc, hreports⟩ := close_reports rule limit htable
  obtain ⟨c', new, hc', hnew, -, -⟩ := exists_closeFrom rule limit 0 l
  obtain rfl : c = c' := Except.ok.inj (hc.symm.trans hc')
  refine ⟨c, hc, ⟨_, hreports.records⟩, hnew.wildcard_eq.trans h.wildcard_eq, fun set hset => ?_⟩
  rw [← Array.mem_toList_iff, hnew.toList_eq, List.mem_append, Array.mem_toList_iff] at hset
  exact hset.elim (h.setOver set) (hnew.setOver h.wildcard_eq set)

/-- A search changes no set that has a number, be the ledger sound or not. -/
theorem get?_of_close {c : Closing} (h : l.close rule limit = .ok c) {state : StateId}
    (hstate : state.val < l.size) : c.ledger.get? state = l.get? state := by
  obtain ⟨c', new, hc', hnew, -, -⟩ := exists_closeFrom rule limit 0 l
  obtain rfl : c = c' := Except.ok.inj (h.symm.trans hc')
  rw [get?, get?, ← Array.getElem?_toList, ← Array.getElem?_toList, hnew.toList_eq]
  exact List.getElem?_append_left (by rwa [Array.length_toList])

/-- So does a chain of searches, each on what the one before it has left. -/
theorem Over.closeInTurn (sig : Signature) (h : l.Over f) (calls : List (Relevance × Nat)) :
    ∃ l', l.closeInTurn sig f calls = .ok l' ∧ l'.Over f := by
  induction calls generalizing l with
  | nil => exact ⟨l, rfl, h⟩
  | cons call calls ih =>
    obtain ⟨c, hc, hover⟩ := Over.close ⟨sig, f, call.1⟩ call.2 h
    obtain ⟨l', hl', hover'⟩ := ih hover
    refine ⟨l', ?_, hover'⟩
    rw [Ledger.closeInTurn, List.foldlM_cons, hc]
    exact hl'

/-- Start with the leaf states of any forest and search any number of times, with any projections
and limits, whether the limits stop the searches or not. No look-up fails on the way. What is left
is a ledger of different sets over the forest, the wildcard's first, whose stores are inverse to
each other; and a further search, by whatever rule, changes none of them. -/
theorem sound_at_any_time (sig : Signature) (f : Forest) (calls : List (Relevance × Nat)) :
    ∃ l, (ofLeaves sig f).closeInTurn sig f calls = .ok l ∧ l.Sound f ∧
      ∀ rule limit, ∃ c, l.close rule limit = .ok c ∧
        ∀ state, state.val < l.size → c.ledger.get? state = l.get? state := by
  obtain ⟨l, hl, hover⟩ := (over_ofLeaves sig f).closeInTurn sig calls
  refine ⟨l, hl, hover.sound, fun rule limit => ?_⟩
  obtain ⟨c, -, hc, -⟩ := exists_closeFrom rule limit 0 l
  exact ⟨c, hc, fun state hstate => get?_of_close hc hstate⟩

end Ledger

end TreePattern
