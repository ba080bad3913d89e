import TreePattern.MatchSets.Ledger.Closing
import Mathlib.Algebra.Group.Nat.Defs
import Mathlib.Data.List.Nodup
import Mathlib.Data.List.Sublists

/-!
# A search ends, whatever it is run on

Closing a ledger is a loop over the very ledger that it enlarges. Suppose that it has no limit, and
that nothing is known of the ledger: its sets may be repeated, lie over another forest and hold
another wildcard than the forest has. Then the loop ends all the same, no look-up in it fails, and
the number of its passes is bounded. Each pass but the last enters a set. The sets that it enters
are different and hold the wildcard of the ledger, so they differ in what they hold apart from it,
and that is a set of members of the forest.

## Results

* `Ledger.Gains.length_le`  — how many sets can be entered at all.
* `Ledger.exists_closeFrom` — a search succeeds, and how many passes it takes.
* `Ledger.close_ends`       — a search without a limit ends, and how soon.
-/

namespace TreePattern

namespace Ledger

variable {rule : MatchRule} {before after : Ledger} {new : List (List MemberId)}

-- ---------------------------------------------------------------------------
-- How many sets can be entered
-- ---------------------------------------------------------------------------

/-- What a set holds apart from the wildcard. -/
def apartFrom (wildcard : MemberId) (set : List MemberId) : List MemberId :=
  set.filter (· ≠ wildcard)

theorem mem_apartFrom {wildcard i : MemberId} {set : List MemberId} :
    i ∈ apartFrom wildcard set ↔ i ∈ set ∧ i ≠ wildcard := by
  rw [apartFrom, List.mem_filter, decide_eq_true_eq]

/-- Two sets with the wildcard are equal if they are equal apart from it. -/
theorem eq_of_apartFrom_eq {wildcard : MemberId} {s t : List MemberId}
    (hs : s.Pairwise (· < ·)) (ht : t.Pairwise (· < ·)) (hws : wildcard ∈ s) (hwt : wildcard ∈ t)
    (h : apartFrom wildcard s = apartFrom wildcard t) : s = t := by
  refine eq_of_ascending hs ht fun i => ?_
  by_cases hi : i = wildcard
  · rw [hi]
    exact iff_of_true hws hwt
  · have hmem : i ∈ apartFrom wildcard s ↔ i ∈ apartFrom wildcard t := by rw [h]
    rwa [mem_apartFrom, mem_apartFrom, and_iff_left hi, and_iff_left hi] at hmem

namespace Gains

theorem ascending (h : Gains rule before after new) : ∀ s ∈ new, s.Pairwise (· < ·) := fun s hs =>
  (Index.sorted_pairwise _).sublist (h.attainable s hs)

/-- Apart from the wildcard, what is entered are sets of members. -/
theorem apartFrom_sublist (h : Gains rule before after new) :
    ∀ s ∈ new, (apartFrom before.wildcard s).Sublist rule.forest.members := by
  intro s hs
  refine sublist_of_ascending ((h.ascending s hs).filter _) (Index.pairwise_range ..)
    fun i hi => ?_
  obtain ⟨hi, hne⟩ := mem_apartFrom.1 hi
  have hattainable := (h.attainable s hs).subset hi
  rw [MatchRule.attainable, Index.mem_sorted, List.mem_cons] at hattainable
  exact hattainable.resolve_left hne

/-- No more sets are entered than the forest has sets of members. -/
theorem length_le (h : Gains rule before after new) : new.length ≤ 2 ^ rule.forest.size := by
  have hnodup : (new.map (apartFrom before.wildcard)).Nodup :=
    h.nodup.map_on fun s hs t ht heq => eq_of_apartFrom_eq (h.ascending s hs) (h.ascending t ht)
      (h.wildcard_mem s hs) (h.wildcard_mem t ht) heq
  have hsubset : new.map (apartFrom before.wildcard) ⊆ rule.forest.members.sublists' := by
    intro s hs
    obtain ⟨t, ht, rfl⟩ := List.mem_map.1 hs
    exact List.mem_sublists'.2 (h.apartFrom_sublist t ht)
  calc new.length = (new.map (apartFrom before.wildcard)).length := by rw [List.length_map]
    _ ≤ rule.forest.members.sublists'.length := hnodup.length_le_of_subset hsubset
    _ = 2 ^ rule.forest.size := by
      rw [List.length_sublists', Forest.members, Numbering.ids, Index.length_range]
      rfl

end Gains

-- ---------------------------------------------------------------------------
-- Passes
-- ---------------------------------------------------------------------------

/-- A search succeeds and takes at most one pass more than it enters sets, as each pass but the last
enters one. Without a limit it comes to its end. -/
theorem exists_closeFrom (rule : MatchRule) (limit done : Nat) (l : Ledger) :
    ∃ c new, l.closeFrom rule limit done = .ok c ∧ Gains rule l c.ledger new ∧
      c.passes.length ≤ new.length + 1 ∧ (limit = 0 → c.complete) := by
  fun_induction closeFrom rule limit done l with
  | case1 done l hlimit =>
    exact ⟨_, [], rfl, .refl .., Nat.zero_le _, fun hzero => absurd hlimit.1 (by omega)⟩
  | case2 done l _ e herror =>
    obtain ⟨r, hr, -⟩ := exists_round rule l
    rw [hr] at herror
    exact absurd herror (by simp)
  | case3 done l _ r hround pass hadded =>
    obtain ⟨new, hnew, -⟩ := gains_of_round hround
    exact ⟨_, new, rfl, hnew, Nat.le_add_left .., fun _ => rfl⟩
  | case4 done l _ r hround pass hadded ih =>
    obtain ⟨new, hnew, hlength⟩ := gains_of_round hround
    obtain ⟨c, more, hc, hmore, hpasses, hcomplete⟩ := ih
    -- what this pass has entered comes before what the later ones enter
    refine ⟨{ c with passes := pass :: c.passes }, new ++ more, by rw [hc]; rfl,
      hnew.trans hmore, ?_, hcomplete⟩
    rw [List.length_cons, List.length_append]
    omega

/-- A search without a limit ends over any ledger and any signature, forest and projection, related
or not. It takes at most one pass more than it enters sets, and enters no more of them than the
forest has sets of members. -/
theorem close_ends (rule : MatchRule) (l : Ledger) :
    ∃ c added, l.close rule 0 = .ok c ∧ c.error? 0 = none ∧ c.ledger.size = l.size + added ∧
      c.passes.length ≤ added + 1 ∧ added ≤ 2 ^ rule.forest.size := by
  obtain ⟨c, new, hc, hnew, hpasses, hcomplete⟩ := exists_closeFrom rule 0 0 l
  have herror : c.error? 0 = none := by rw [Closing.error?, hcomplete rfl, if_pos rfl]
  exact ⟨c, new.length, hc, herror, hnew.size_eq, hpasses, hnew.length_le⟩

end Ledger

end TreePattern
