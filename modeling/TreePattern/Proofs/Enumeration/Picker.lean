import TreePattern.Enumeration.Picker
import TreePattern.Proofs.Enumeration.Wheels

/-!
# Pickers are nested loops

The wheels of a picker count through all tuples of places up to the longest slot. Those that point
past a slot are skipped, and what the others pick is what nested loops over the slots pick, in the
same order. So each call for a tuple takes the first of the picks that are left, over however many
tuples of places it has to go.

## Results

* `Picker.picksFrom_zero` — what all tuples of places pick.
* `Picker.At.next`        — a call for a tuple yields the next pick.
* `Picker.performAll_eq`  — the answers to any calls.
* `Picker.picks_as_nested_loops` — the answers to any calls, and how many picks there are.
-/

namespace TreePattern

namespace Slot

variable {α : Type}

/-- The size of a slot fits its word. -/
theorem toNat_size (slot : Slot α) : slot.size.toNat = slot.elements.size :=
  UInt64.toNat_ofNat_of_lt' slot.size_lt

end Slot

namespace Picker

variable {α : Type} {slots : List (Slot α)}

/-- What nested loops over the slots pick, the first slot in the outermost loop. -/
def allPicks (slots : List (Slot α)) : List (List α) :=
  Choices.nestedLoops (slots.map Slot.elements)

-- ---------------------------------------------------------------------------
-- Tuples of places
-- ---------------------------------------------------------------------------

instance : Std.LawfulOrderLeftLeaningMax UInt64 := .of_eq fun a b => by
  show (if a ≤ b then b else a) = if b ≤ a then a else b
  by_cases hab : a ≤ b
  · by_cases hba : b ≤ a
    · rw [if_pos hab, if_pos hba, UInt64.le_antisymm hab hba]
    · rw [if_pos hab, if_neg hba]
  · rw [if_neg hab, if_pos (UInt64.le_of_lt (UInt64.not_le.1 hab))]

/-- No slot has more elements than the longest. -/
theorem size_le_longest {slot : Slot α} (h : slot ∈ slots) :
    slot.elements.size ≤ (longest slots).toNat := by
  obtain ⟨n, hn⟩ : ∃ n, (slots.map Slot.size).max? = some n :=
    Option.isSome_iff_exists.1 (List.isSome_max?_of_mem (List.mem_map_of_mem h))
  have hle := (List.max?_eq_some_iff.1 hn).2 slot.size (List.mem_map_of_mem h)
  rw [longest, hn, Option.getD_some, ← slot.toNat_size]
  exact UInt64.le_iff_toNat_le.1 hle

/-- Picking by words is picking by their values. -/
theorem pick_eq (slots : List (Slot α)) (places : List UInt64) :
    pick slots places = Choices.pick (slots.map Slot.elements) (places.map UInt64.toNat) := by
  induction slots generalizing places with
  | nil => rfl
  | cons slot slots ih =>
    cases places with
    | nil => rfl
    | cons place places =>
      rw [pick, List.zip_cons_cons, List.mapM_cons, ← pick, ih, List.map_cons, List.map_cons,
        Choices.pick]
      show slot.elements[place.toNat]? >>= _ = _
      cases slot.elements[place.toNat]? with
      | none => rfl
      | some a => exact Option.map_eq_bind.symm

/-- All tuples of places up to the longest slot, in the order in which the wheels show them. -/
def placesOver (slots : List (Slot α)) : List (List Nat) :=
  (List.range ((longest slots).toNat ^ slots.length)).map
    (Wheels.numeral (longest slots).toNat slots.length)

/-- What the tuples of places pick that come after the first `k`. -/
def picksFrom (slots : List (Slot α)) (k : Nat) : List (List α) :=
  ((placesOver slots).drop k).filterMap (Choices.pick (slots.map Slot.elements))

/-- From the first tuple on, all picks are left. -/
theorem picksFrom_zero (slots : List (Slot α)) : picksFrom slots 0 = allPicks slots := by
  have hsizes : ∀ as ∈ slots.map Slot.elements, as.size ≤ (longest slots).toNat := by
    intro as has
    obtain ⟨slot, hslot, rfl⟩ := List.mem_map.1 has
    exact size_le_longest hslot
  rw [picksFrom, List.drop_zero, placesOver, Wheels.map_numeral_eq_toList,
    TupleCounter.toList_ofBase, ← List.length_map Slot.elements,
    Choices.filterMap_pick_tuples hsizes, allPicks]

/-- From the end of the count on, none is left. -/
theorem picksFrom_of_le {k : Nat} (h : (longest slots).toNat ^ slots.length ≤ k) :
    picksFrom slots k = [] := by
  rw [picksFrom, List.drop_eq_nil_of_le, List.filterMap_nil]
  rwa [placesOver, List.length_map, List.length_range]

/-- What the next tuple picks, if anything, comes before all that is left. -/
theorem picksFrom_of_lt {k : Nat} (h : k < (longest slots).toNat ^ slots.length)
    {places : List UInt64}
    (hplaces : places.map UInt64.toNat =
      Wheels.numeral (longest slots).toNat slots.length k) :
    picksFrom slots k = (pick slots places).toList ++ picksFrom slots (k + 1) := by
  have hlt : k < (placesOver slots).length := by
    rwa [placesOver, List.length_map, List.length_range]
  have hget : (placesOver slots)[k] = places.map UInt64.toNat := by
    rw [hplaces]
    simp only [placesOver, List.getElem_map, List.getElem_range]
  rw [picksFrom, List.drop_eq_getElem_cons hlt, hget, List.filterMap_cons, ← pick_eq, picksFrom]
  cases pick slots places <;> rfl

-- ---------------------------------------------------------------------------
-- The calls
-- ---------------------------------------------------------------------------

section Steps

variable {p : Picker α} {wheels : Wheels} {places : List UInt64}

/-- Once the wheels are at their end, nothing more is picked. -/
theorem next_of_done (h : p.wheels.next = .ok (none, wheels)) :
    p.next = .ok (none, { p with wheels := wheels }) := by
  rw [next]
  split <;> simp_all

/-- A tuple that picks an element of each slot is given out. -/
theorem next_of_pick (h : p.wheels.next = .ok (some places, wheels)) {tuple : List α}
    (hpick : pick p.slots places = some tuple) :
    p.next = .ok (some tuple, { p with wheels := wheels }) := by
  rw [next]
  split <;> simp_all

/-- A tuple with a place past the end of its slot is passed over. -/
theorem next_of_skip (h : p.wheels.next = .ok (some places, wheels))
    (hpick : pick p.slots places = none) : p.next = next { p with wheels := wheels } := by
  rw [next]
  split <;> simp_all

end Steps

/-- The picker after `n` tuples were asked for since it stood at the first: the picks of the tuples
of places that the wheels have not shown yet are those from number `n` on. -/
structure At (slots : List (Slot α)) (n : Nat) (p : Picker α) : Prop where
  slots_eq : p.slots = slots
  exists_wheels : ∃ k, Wheels.At (longest slots) slots.length k p.wheels ∧
    picksFrom slots k = (allPicks slots).drop n

/-- A new picker has given out nothing. -/
theorem at_ofSlots (slots : List (Slot α)) : At slots 0 (ofSlots slots) where
  slots_eq := rfl
  exists_wheels := ⟨0, Wheels.at_ofBase .., picksFrom_zero slots⟩

namespace At

/-- A reset leads back to the beginning. -/
theorem reset {n : Nat} {p : Picker α} (h : At slots n p) : At slots 0 p.reset where
  slots_eq := h.slots_eq
  exists_wheels := by
    obtain ⟨k, hwheels, -⟩ := h.exists_wheels
    exact ⟨0, hwheels.reset, picksFrom_zero slots⟩

/-- A call for a tuple comes to an end with the next pick, however many tuples of places it has to
skip. -/
theorem next {slots : List (Slot α)} {n : Nat} {p : Picker α} (h : At slots n p) :
    ∃ answer p', p.next = .ok (answer, p') ∧ At slots (n + 1) p' ∧
      answer = (allPicks slots)[n]? := by
  obtain ⟨rfl, k, hwheels, hpicks⟩ := h
  obtain ⟨answer, wheels, hnext, hat, hanswer⟩ := hwheels.next
  have hget : (allPicks p.slots)[n]? = (picksFrom p.slots k)[0]? := by
    rw [hpicks, List.getElem?_drop, Nat.add_zero]
  have htail : (allPicks p.slots).drop (n + 1) = (picksFrom p.slots k).tail := by
    rw [hpicks, List.tail_drop]
  rcases Nat.lt_or_ge k ((longest p.slots).toNat ^ p.slots.length) with hk | hk
  · rw [Wheels.tuple?_of_lt hk] at hanswer
    obtain ⟨places, rfl, hplaces⟩ := Option.map_eq_some_iff.1 hanswer
    have hfrom := picksFrom_of_lt hk hplaces
    -- a skipped tuple yields no pick, so what is left stays the same and the wheels have less to go
    cases hpick : pick p.slots places with
    | some tuple =>
      rw [hpick] at hfrom
      refine ⟨_, _, next_of_pick hnext hpick, ⟨rfl, k + 1, hat, ?_⟩, ?_⟩
      · rw [htail, hfrom]
        rfl
      · rw [hget, hfrom]
        rfl
    | none =>
      rw [hpick] at hfrom
      have := Wheels.tuplesLeft_lt_of_next hnext
      have hskipped : At p.slots n { p with wheels := wheels } :=
        ⟨rfl, k + 1, hat, hfrom.symm.trans hpicks⟩
      rw [next_of_skip hnext hpick]
      exact At.next hskipped
  · rw [Wheels.tuple?_of_le hk, Option.map_eq_none_iff] at hanswer
    rw [hanswer] at hnext
    rw [picksFrom_of_le hk] at hget htail
    refine ⟨_, _, next_of_done hnext, ⟨rfl, k + 1, hat, ?_⟩, hget.symm⟩
    rw [htail, picksFrom_of_le (Nat.le_succ_of_le hk)]
    rfl
termination_by p.wheels.tuplesLeft

end At

/-- Performs the calls in order and returns the answers to those for a tuple. -/
def performAll :
    Picker α → List Wheels.Call → Except WordOverflow (List (Option (List α)) × Picker α)
  | p, [] => .ok ([], p)
  | p, .next :: calls => do
    let (answer, p) ← p.next
    let (answers, p) ← p.performAll calls
    return (answer :: answers, p)
  | p, .reset :: calls => p.reset.performAll calls

/-- Every call for a tuple is answered with the pick that has the number of that call. -/
theorem performAll_eq {n : Nat} {p : Picker α} (h : At slots n p) (calls : List Wheels.Call) :
    ∃ p', p.performAll calls =
      .ok ((Wheels.countsFrom n calls).map ((allPicks slots)[·]?), p') := by
  induction calls generalizing p n with
  | nil => exact ⟨p, rfl⟩
  | cons call calls ih =>
    cases call with
    | next =>
      obtain ⟨answer, p₁, hnext, hat, rfl⟩ := h.next
      obtain ⟨p', hrest⟩ := ih hat
      refine ⟨p', ?_⟩
      rw [performAll, hnext]
      show (do let (answers, p) ← p₁.performAll calls; pure (_ :: answers, p)) = _
      rw [hrest]
      rfl
    | reset => exact ih h.reset

-- ---------------------------------------------------------------------------
-- How many picks there are
-- ---------------------------------------------------------------------------

/-- There are as many picks as the product of the slot sizes. -/
theorem length_allPicks (slots : List (Slot α)) :
    (allPicks slots).length = MixedRadix.volume (slots.map fun slot => slot.elements.size) := by
  rw [allPicks, Choices.length_nestedLoops, List.map_map]
  rfl

/-- Nothing can be picked exactly if some slot is empty. -/
theorem allPicks_eq_nil_iff : allPicks slots = [] ↔ ∃ slot ∈ slots, slot.elements = #[] := by
  rw [← List.length_eq_zero_iff, length_allPicks, MixedRadix.volume_eq_prod,
    List.prod_eq_zero_iff, List.mem_map]
  simp only [Array.size_eq_zero_iff]

/-- The `k`-th call for a tuple since the picker was made or last reset is answered with the `k`-th
pick of nested loops over the slots, whatever the calls before it were, and with nothing once there
are no more. There are as many picks as the product of the lengths: none if a slot is empty, and the
empty one if there is no slot. -/
theorem picks_as_nested_loops (slots : List (Slot α)) :
    (∀ calls, ∃ p, (ofSlots slots).performAll calls =
      .ok ((Wheels.countsFrom 0 calls).map ((allPicks slots)[·]?), p)) ∧
    (∀ k, (allPicks slots)[k]? = none ↔
      MixedRadix.volume (slots.map fun slot => slot.elements.size) ≤ k) ∧
    (allPicks slots = [] ↔ ∃ slot ∈ slots, slot.elements = #[]) ∧
    (slots = [] → allPicks slots = [[]]) := by
  refine ⟨performAll_eq (at_ofSlots slots), fun k => ?_, allPicks_eq_nil_iff, ?_⟩
  · rw [List.getElem?_eq_none_iff, length_allPicks]
  · rintro rfl
    rfl

end Picker

end TreePattern
