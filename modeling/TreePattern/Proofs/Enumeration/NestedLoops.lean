import TreePattern.Enumeration.Choices
import TreePattern.Total
import TreePattern.Proofs.MixedRadix
import Mathlib.Algebra.Ring.Nat
import Mathlib.Data.List.Forall2
import Mathlib.Data.List.MinMax

/-!
# Counters and choices are nested loops

A tuple counter yields what nested loops over the digits yield, and choices yield what nested
loops over the slots yield: the outermost loop runs over the first position, and no tuple is
left out or repeated. The place of a tuple in the loops is its mixed-radix number.

## Results

* `TupleCounter.toList_ofBase` — the count from zero is the nested loops over the digits.
* `Choices.toList_ofSlots`     — choices are the nested loops over their slots.
* `Choices.mem_nestedLoops`    — the loops reach every choice.
* `Choices.total_volume_nestedLoops` — the sum over all choices of a product of weights.
* `Choices.getElem?_nestedLoops` — the mixed-radix number of a tuple is its place.
* `Choices.filterMap_encode?_tuples` — skipping leaves the mixed-radix numbers in order.
-/

namespace TreePattern

/-- A total is the library's sum, over which its lemmas are stated. -/
theorem total_eq_sum (l : List Nat) : total l = l.sum := rfl

-- ---------------------------------------------------------------------------
-- Tuples of digits
-- ---------------------------------------------------------------------------

namespace TupleCounter

/-- The tuples of `width` digits below `base`, by nested loops. -/
def tuples (base : Nat) : Nat → List (List Nat)
  | 0 => [[]]
  | width + 1 => (List.range base).flatMap fun d => (tuples base width).map (d :: ·)

/-- The tuples from `ds` on: those that keep its first digit, then those with a larger one. -/
def tuplesFrom (base : Nat) : List Nat → List (List Nat)
  | [] => [[]]
  | d :: ds =>
    (tuplesFrom base ds).map (d :: ·) ++
      (List.range' (d + 1) (base - (d + 1))).flatMap fun e =>
        (tuples base ds.length).map (e :: ·)

/-- From all zeros on come all tuples; without a base there is a tuple only if it has no digit. -/
theorem tuplesFrom_zeros {base width : Nat} (h : 0 < base ∨ width = 0) :
    tuplesFrom base (List.replicate width 0) = tuples base width := by
  induction width with
  | zero => rfl
  | succ width ih =>
    have hbase : 0 < base := h.resolve_right (Nat.succ_ne_zero width)
    obtain ⟨b, rfl⟩ : ∃ b, base = b + 1 := ⟨base - 1, by omega⟩
    have hrange : List.range (b + 1) = 0 :: List.range' 1 b := by
      rw [List.range_eq_range', List.range'_succ]
    rw [List.replicate_succ, tuplesFrom, ih (Or.inl hbase), tuples, hrange, List.flatMap_cons,
      List.length_replicate]
    rfl

/-- A tuple that cannot be advanced is the last one. -/
theorem tuplesFrom_of_advance_eq_none {base : Nat} {ds : List Nat} (hlt : ∀ d ∈ ds, d < base)
    (h : advance base ds = none) : tuplesFrom base ds = [ds] := by
  induction ds with
  | nil => rfl
  | cons d ds ih =>
    have hd := hlt d List.mem_cons_self
    rw [advance] at h
    split at h
    · exact absurd h (by simp)
    · next hn =>
      split at h
      · exact absurd h (by simp)
      · have hlast : base - (d + 1) = 0 := by omega
        rw [tuplesFrom, ih (fun e he => hlt e (List.mem_cons_of_mem _ he)) hn, hlast]
        rfl

/-- The tuples from `ds` on are `ds` and the tuples from the next one on. -/
theorem tuplesFrom_of_advance {base : Nat} {ds ds' : List Nat} (hlt : ∀ d ∈ ds, d < base)
    (h : advance base ds = some ds') : tuplesFrom base ds = ds :: tuplesFrom base ds' := by
  induction ds generalizing ds' with
  | nil => exact absurd h (by simp [advance])
  | cons d ds ih =>
    have hds : ∀ e ∈ ds, e < base := fun e he => hlt e (List.mem_cons_of_mem _ he)
    rw [advance] at h
    split at h
    -- a later digit still moves, or this one does and the later ones are back at zero
    · next es hes =>
      have hlen : es.length = ds.length := (isTuple_advance ⟨rfl, hds⟩ hes).1
      cases h
      rw [tuplesFrom, ih hds hes, tuplesFrom, hlen]
      rfl
    · next hn =>
      split at h
      · next hd =>
        cases h
        have hrange : List.range' (d + 1) (base - (d + 1)) =
            (d + 1) :: List.range' (d + 1 + 1) (base - (d + 1 + 1)) := by
          rw [show base - (d + 1) = base - (d + 1 + 1) + 1 by omega, List.range'_succ]
        have hbase : 0 < base := Nat.zero_lt_of_lt hd
        rw [tuplesFrom, tuplesFrom_of_advance_eq_none hds hn, hrange, tuplesFrom,
          tuplesFrom_zeros (Or.inl hbase), List.length_replicate]
        rfl
      · exact absurd h (by simp)

/-- A counter that shows a tuple gives it out and moves on. -/
private theorem next?_of_current {c : TupleCounter} {ds : List Nat} (h : c.current = some ds) :
    Enumeration.next? c = some (ds, c.after ds h) := by
  simp only [Enumeration.next?]
  split
  · next hn => rw [h] at hn; exact absurd hn (by simp)
  · next es hes =>
    obtain rfl : es = ds := Option.some.inj (hes.symm.trans h)
    rfl

/-- A counter that shows nothing gives out nothing. -/
private theorem next?_of_finished {c : TupleCounter} (h : c.current = none) :
    Enumeration.next? c = none := by
  simp only [Enumeration.next?]
  split
  · rfl
  · next hs => rw [h] at hs; exact absurd hs (by simp)

/-- A counter that stands at a tuple has the tuples from there on still to come. -/
theorem toList_eq_tuplesFrom (c : TupleCounter) :
    Enumeration.toList c = (c.current.map (tuplesFrom c.base)).getD [] := by
  cases h : c.current with
  | none => rw [Enumeration.toList_none (next?_of_finished h)]; rfl
  | some ds =>
    have hlt := (c.isTuple_of_current ds h).2
    have hnext := next?_of_current h
    have := Enumeration.remaining_lt hnext
    rw [Enumeration.toList_some hnext, toList_eq_tuplesFrom (c.after ds h)]
    simp only [after, Option.map_some, Option.getD_some]
    cases ha : advance c.base ds with
    | none => rw [tuplesFrom_of_advance_eq_none hlt ha]; rfl
    | some ds' => rw [tuplesFrom_of_advance hlt ha]; rfl
termination_by Enumeration.remaining c

/-- Counting gives out every tuple, in the order of nested loops. -/
theorem toList_ofBase (base width : Nat) :
    Enumeration.toList (ofBase base width) = tuples base width := by
  rw [toList_eq_tuplesFrom]
  simp only [ofBase]
  split
  · next h => exact tuplesFrom_zeros h
  · next h =>
    obtain ⟨hbase, hwidth⟩ := not_or.1 h
    obtain ⟨w, rfl⟩ : ∃ w, width = w + 1 := ⟨width - 1, by omega⟩
    rw [Nat.eq_zero_of_not_pos hbase]
    rfl

end TupleCounter

-- ---------------------------------------------------------------------------
-- Choices from slots
-- ---------------------------------------------------------------------------

namespace Choices

variable {α : Type}

/-- One element of each slot in every possible way, the last slot in the innermost loop. -/
def nestedLoops : List (Array α) → List (List α)
  | [] => [[]]
  | slot :: slots => slot.toList.flatMap fun a => (nestedLoops slots).map (a :: ·)

/-- What the loops go over: one element of each slot. -/
theorem mem_nestedLoops {slots : List (Array α)} {as : List α} :
    as ∈ nestedLoops slots ↔ List.Forall₂ (· ∈ ·) as slots := by
  induction slots generalizing as with
  | nil => simp [nestedLoops]
  | cons slot slots ih =>
    simp only [nestedLoops, List.mem_flatMap, List.mem_map, ih, List.forall₂_cons_right_iff,
      Array.mem_toList_iff]
    constructor
    · rintro ⟨a, ha, bs, hbs, rfl⟩
      exact ⟨a, bs, ha, hbs, rfl⟩
    · rintro ⟨a, bs, ha, hbs, rfl⟩
      exact ⟨a, ha, bs, hbs, rfl⟩

/-- The tuples of digits are the choices from the digits, position by position. -/
theorem tuples_eq_nestedLoops (base width : Nat) :
    TupleCounter.tuples base width =
      nestedLoops (List.replicate width (List.range base).toArray) := by
  induction width with
  | zero => rfl
  | succ width ih => rw [TupleCounter.tuples, ih, List.replicate_succ, nestedLoops]

/-- Slots side by side have their choices side by side. -/
theorem forall₂_nestedLoops {β : Type} {R : α → β → Prop} {slots : List (Array α)}
    {slots' : List (Array β)}
    (h : List.Forall₂ (fun slot slot' => List.Forall₂ R slot.toList slot'.toList) slots slots') :
    List.Forall₂ (List.Forall₂ R) (nestedLoops slots) (nestedLoops slots') := by
  induction h with
  | nil => exact .cons .nil .nil
  | cons hslot _ ih =>
    refine List.rel_flatMap hslot ?_
    intro a b hab
    exact List.rel_map (fun _ _ hrest => List.Forall₂.cons hab hrest) ih

/-- Lists of one length joined together. -/
private theorem length_flatMap_of_forall {β : Type} {as : List α} {f : α → List β} {v : Nat}
    (h : ∀ a, (f a).length = v) : (as.flatMap f).length = as.length * v := by
  rw [List.length_flatMap, List.map_congr_left fun a _ => h a, List.map_const',
    List.sum_replicate_nat]

/-- The loops go over as many tuples as the product of the slot sizes. -/
theorem length_nestedLoops (slots : List (Array α)) :
    (nestedLoops slots).length = MixedRadix.volume (slots.map Array.size) := by
  induction slots with
  | nil => rfl
  | cons slot slots ih =>
    rw [nestedLoops, length_flatMap_of_forall fun a => List.length_map .., ih, Array.length_toList]
    rfl

/-- Let an element weigh something that depends on its slot, and a choice the product of what its
elements weigh. Then all choices together weigh the product of what the slots weigh. -/
theorem total_volume_nestedLoops (slots : List (Array α)) (weight : Nat → α → Nat) :
    total ((nestedLoops slots).map fun as => MixedRadix.volume (as.mapIdx weight)) =
      MixedRadix.volume (slots.mapIdx fun k slot => total (slot.toList.map (weight k))) := by
  simp only [total_eq_sum, MixedRadix.volume_eq_prod]
  induction slots generalizing weight with
  | nil => rfl
  | cons slot slots ih =>
    -- the first choice is a factor of every product that it is in
    have hfirst (a : α) :
        (((nestedLoops slots).map (a :: ·)).map fun as => (as.mapIdx weight).prod).sum =
        weight 0 a * (slots.mapIdx fun k slot =>
          (slot.toList.map (weight (k + 1))).sum).prod := by
      rw [← ih fun k => weight (k + 1), ← List.sum_map_mul_left, List.map_map]
      refine congrArg List.sum (List.map_congr_left fun as _ => ?_)
      rw [Function.comp_apply, List.mapIdx_cons, List.prod_cons]
    rw [nestedLoops, List.map_flatMap, List.flatMap_def, List.sum_flatten, List.map_map,
      List.mapIdx_cons, List.prod_cons, ← List.sum_map_mul_right]
    exact congrArg List.sum (List.map_congr_left fun a _ => hfirst a)

-- ---------------------------------------------------------------------------
-- Skipping the index tuples that point past a slot
-- ---------------------------------------------------------------------------

/-- A loop over more numbers than there are elements is the loop over the elements. -/
private theorem flatMap_range_getElem? {β : Type} (f : α → List β) {as : List α} {n : Nat}
    (h : as.length ≤ n) :
    ((List.range n).flatMap fun d => (as[d]?.map f).getD []) = as.flatMap f := by
  induction as generalizing n with
  | nil => simp
  | cons a as ih =>
    obtain ⟨m, rfl⟩ : ∃ m, n = m + 1 := ⟨n - 1, by rw [List.length_cons] at h; omega⟩
    have hrest := ih (n := m) (by rw [List.length_cons] at h; omega)
    rw [List.range_succ_eq_map, List.flatMap_cons, List.flatMap_map, List.flatMap_cons, ← hrest]
    rfl

/-- Consecutive blocks of one length make up one range. -/
private theorem flatMap_range_range' (r v : Nat) :
    ((List.range r).flatMap fun d => List.range' (d * v) v) = List.range (r * v) := by
  induction r with
  | zero => rw [Nat.zero_mul]; rfl
  | succ r ih =>
    have hlast := List.range'_append_1 (s := 0) (m := r * v) (n := v)
    rw [Nat.zero_add] at hlast
    rw [List.range_succ, List.flatMap_append, ih, List.flatMap_singleton, List.range_eq_range',
      hlast, Nat.succ_mul, List.range_eq_range']

/-- The nested loops run through the index tuples in order and drop those that point past the
end of a slot. -/
theorem filterMap_pick_tuples {base : Nat} {slots : List (Array α)}
    (h : ∀ slot ∈ slots, slot.size ≤ base) :
    (TupleCounter.tuples base slots.length).filterMap (pick slots) = nestedLoops slots := by
  induction slots with
  | nil => rfl
  | cons slot slots ih =>
    have hrest := ih fun s hs => h s (List.mem_cons_of_mem _ hs)
    -- a first digit past the end of its slot is skipped with all its tuples
    have hdigit : ∀ d, ((TupleCounter.tuples base slots.length).map (d :: ·)).filterMap
        (pick (slot :: slots)) =
          (slot.toList[d]?.map fun a => (nestedLoops slots).map (a :: ·)).getD [] := by
      intro d
      rw [List.filterMap_map, ← hrest, Array.getElem?_toList]
      cases hd : slot[d]? with
      | none => simp [Function.comp_def, pick, hd]
      | some a => simp [Function.comp_def, pick, hd, List.map_filterMap]
    rw [List.length_cons, TupleCounter.tuples, List.filterMap_flatMap, nestedLoops]
    simp only [hdigit]
    exact flatMap_range_getElem? _ (h slot List.mem_cons_self)

/-- The index tuples that stay below all radices come in the order of their mixed-radix numbers, and
none is missing. -/
theorem filterMap_encode?_tuples {base : Nat} {radices : List Nat} (h : ∀ r ∈ radices, r ≤ base) :
    (TupleCounter.tuples base radices.length).filterMap (MixedRadix.encode? radices) =
      List.range (MixedRadix.volume radices) := by
  induction radices with
  | nil => rfl
  | cons r rs ih =>
    have hrest := ih fun s hs => h s (List.mem_cons_of_mem _ hs)
    -- the tuples with first digit `d` have the numbers from `d` times the volume of the rest on
    have hdigit : ∀ d, ((TupleCounter.tuples base rs.length).map (d :: ·)).filterMap
        (MixedRadix.encode? (r :: rs)) = ((List.range r)[d]?.map fun d =>
          List.range' (d * MixedRadix.volume rs) (MixedRadix.volume rs)).getD [] := by
      intro d
      rw [List.filterMap_map]
      by_cases hd : d < r
      · rw [List.getElem?_range hd, Option.map_some, Option.getD_some, List.range'_eq_map_range,
          ← hrest, List.map_filterMap]
        exact List.filterMap_congr fun ds _ => if_pos hd
      · rw [List.getElem?_eq_none (by rw [List.length_range]; omega), Option.map_none,
          Option.getD_none]
        exact List.filterMap_eq_nil_iff.2 fun ds _ => if_neg hd
    rw [List.length_cons, TupleCounter.tuples, List.filterMap_flatMap]
    simp only [hdigit]
    rw [flatMap_range_getElem? _ (by rw [List.length_range]; exact h r List.mem_cons_self),
      flatMap_range_range']
    rfl

/-- No slot is longer than the longest. -/
private theorem size_le_longest {slots : List (Array α)} :
    ∀ slot ∈ slots, slot.size ≤ longest slots :=
  fun _ hslot => List.le_max_of_le' 0 (List.mem_map.2 ⟨_, hslot, rfl⟩) le_rfl

/-- What comes next decides everything that comes. -/
private theorem toList_congr {p q : Choices α}
    (h : Enumeration.next? p = Enumeration.next? q) :
    Enumeration.toList p = Enumeration.toList q := by
  cases hq : Enumeration.next? q with
  | none => rw [Enumeration.toList_none hq, Enumeration.toList_none (h.trans hq)]
  | some r => rw [Enumeration.toList_some hq, Enumeration.toList_some (h.trans hq)]

section Steps

variable {slots : List (Array α)} {c c' : TupleCounter} {is : List Nat}

/-- If the counter is at its end, so are the choices. -/
private theorem next?_of_index_none (h : Enumeration.next? c = none) :
    Enumeration.next? (Choices.mk slots c) = none := by
  have hn : nextPick slots c = none := by
    unfold nextPick
    split <;> simp_all
  show (nextPick slots c).map _ = none
  rw [hn, Option.map_none]

/-- A tuple of digits that picks an element of each slot is the next answer. -/
private theorem next?_of_pick (h : Enumeration.next? c = some (is, c')) {as : List α}
    (hpick : pick slots is = some as) :
    Enumeration.next? (Choices.mk slots c) = some (as, ⟨slots, c'⟩) := by
  have hn : nextPick slots c = some (as, c') := by
    rw [nextPick]
    split <;> simp_all
  show (nextPick slots c).map _ = _
  rw [hn, Option.map_some]

/-- An index tuple that points past a slot is skipped. -/
private theorem next?_of_skip (h : Enumeration.next? c = some (is, c'))
    (hpick : pick slots is = none) :
    Enumeration.next? (Choices.mk slots c) = Enumeration.next? (Choices.mk slots c') := by
  have hn : nextPick slots c = nextPick slots c' := by
    rw [nextPick]
    split <;> simp_all
  show (nextPick slots c).map _ = (nextPick slots c').map _
  rw [hn]

end Steps

/-- What is still to come are the picks of the index tuples still to come. -/
theorem toList_eq_filterMap (p : Choices α) :
    Enumeration.toList p = (Enumeration.toList p.indexes).filterMap (pick p.slots) := by
  obtain ⟨slots, c⟩ := p
  cases h : Enumeration.next? c with
  | none =>
    rw [Enumeration.toList_none (next?_of_index_none h), Enumeration.toList_none h]
    rfl
  | some q =>
    obtain ⟨is, c'⟩ := q
    have hlt := Enumeration.remaining_lt h
    have ih := toList_eq_filterMap ⟨slots, c'⟩
    rw [Enumeration.toList_some h, List.filterMap_cons]
    cases hpick : pick slots is with
    | some as => rw [Enumeration.toList_some (next?_of_pick h hpick), ih]
    | none => rw [toList_congr (next?_of_skip h hpick), ih]
termination_by Enumeration.remaining p.indexes

/-- Choosing with a counter that skips is the nested loops over the slots. -/
theorem toList_ofSlots (slots : List (Array α)) :
    Enumeration.toList (ofSlots slots) = nestedLoops slots := by
  rw [toList_eq_filterMap, ofSlots, TupleCounter.toList_ofBase,
    filterMap_pick_tuples size_le_longest]

-- ---------------------------------------------------------------------------
-- The place of a tuple
-- ---------------------------------------------------------------------------

/-- Place `m` of block `d` when all blocks have the same length. -/
private theorem getElem?_flatMap_of_forall {β : Type} {as : List α} {f : α → List β} {v m : Nat}
    (h : ∀ a, (f a).length = v) (hm : m < v) (d : Nat) :
    (as.flatMap f)[d * v + m]? = as[d]?.bind fun a => (f a)[m]? := by
  induction as generalizing d with
  | nil => simp
  | cons a as ih =>
    rw [List.flatMap_cons]
    cases d with
    | zero => rw [Nat.zero_mul, Nat.zero_add, List.getElem?_append_left (by rw [h]; exact hm)]; rfl
    | succ d =>
      have hle : (f a).length ≤ (d + 1) * v + m := by rw [h, Nat.succ_mul]; omega
      have hsub : (d + 1) * v + m - v = d * v + m := by rw [Nat.succ_mul]; omega
      rw [List.getElem?_append_right hle, h, hsub, ih, List.getElem?_cons_succ]

/-- The tuple with mixed-radix number `n` is the `n`-th that the loops reach. -/
theorem getElem?_nestedLoops {slots : List (Array α)} {digits : List Nat} {n : Nat}
    (h : MixedRadix.encode? (slots.map Array.size) digits = some n) :
    (nestedLoops slots)[n]? = pick slots digits := by
  induction slots generalizing digits n with
  | nil =>
    cases digits with
    | nil => cases h; rfl
    | cons d ds => exact absurd h (by simp [MixedRadix.encode?])
  | cons slot slots ih =>
    cases digits with
    | nil => exact absurd h (by simp [MixedRadix.encode?])
    | cons d ds =>
      rw [List.map_cons, MixedRadix.encode?] at h
      split at h
      · next hd =>
        obtain ⟨m, hm, rfl⟩ := Option.map_eq_some_iff.1 h
        have hlen : ∀ a : α, ((nestedLoops slots).map (a :: ·)).length =
            MixedRadix.volume (slots.map Array.size) := fun a => by
          rw [List.length_map, length_nestedLoops]
        -- the block of the first digit, and in it the place of the other digits
        rw [nestedLoops, getElem?_flatMap_of_forall hlen (MixedRadix.encode?_lt_volume hm),
          Array.getElem?_toList, pick, Array.getElem?_eq_getElem hd, Option.bind_some,
          List.getElem?_map, ih hm]
      · exact absurd h (by simp)

/-- A tuple without a number points past a slot. -/
theorem pick_eq_none {slots : List (Array α)} {digits : List Nat}
    (hlen : digits.length = slots.length)
    (h : MixedRadix.encode? (slots.map Array.size) digits = none) : pick slots digits = none := by
  induction slots generalizing digits with
  | nil =>
    obtain rfl : digits = [] := List.length_eq_zero_iff.1 hlen
    exact absurd h (by simp [MixedRadix.encode?])
  | cons slot slots ih =>
    cases digits with
    | nil => exact absurd hlen (by simp)
    | cons d ds =>
      rw [List.map_cons, MixedRadix.encode?] at h
      rw [pick]
      -- either a later digit is too large for its slot or the first one is
      by_cases hd : d < slot.size
      · rw [if_pos hd, Option.map_eq_none_iff] at h
        rw [Array.getElem?_eq_getElem hd, ih (Nat.succ.inj hlen) h]
        rfl
      · rw [Array.getElem?_eq_none (Nat.le_of_not_lt hd)]

end Choices

end TreePattern
