import TreePattern.Enumeration.Wheels
import TreePattern.Proofs.Enumeration.NestedLoops
import TreePattern.Proofs.MixedRadix
import TreePattern.Proofs.Traversal
import Mathlib.Algebra.GroupWithZero.Nat

/-!
# Wheels count in positional notation

The wheels show how many tuples have been yielded since they stood at zero, with one digit for each
wheel. A step adds one to that number, and the turn that a wheel passes on is the carry. So the
tuple number `k` is the numeral of `k`, and the tuples are used up when the numerals are. The
largest digit is below the base and the base is a word, so no wheel is turned past the largest word,
be the base the largest itself.

## Results

* `Wheels.turn_eq`               — one step adds one.
* `Wheels.At.next`, `.reset`     — what the calls do to the number of tuples yielded.
* `Wheels.performAll_eq`         — the answers to any calls.
* `Wheels.map_numeral_eq_toList` — the numerals are what a tuple counter yields.
* `Wheels.counts_by_place_value` — the answers to any calls, and what a full run yields.
-/

namespace TreePattern

namespace Wheels

-- ---------------------------------------------------------------------------
-- Numerals
-- ---------------------------------------------------------------------------

/-- The last `width` digits of `k`, the last of them first. -/
def lowDigits (base width k : Nat) : List Nat :=
  (List.range width).map fun place => k / base ^ place % base

/-- The last `width` digits of `k`, the most significant first. -/
def numeral (base width k : Nat) : List Nat :=
  (List.range width).reverse.map fun place => k / base ^ place % base

/-- The tuple number `k`, which is there as long as `k` can be written with `width` digits. -/
def tuple? (base width k : Nat) : Option (List Nat) :=
  if k < base ^ width then some (numeral base width k) else none

/-- The digits of a numeral, low end first, are those of the value. -/
theorem numeral_eq_reverse (base width k : Nat) :
    numeral base width k = (lowDigits base width k).reverse := by
  rw [numeral, lowDigits, List.map_reverse]

/-- A numeral has a digit for each wheel. -/
theorem length_numeral (base width k : Nat) : (numeral base width k).length = width := by
  rw [numeral, List.length_map, List.length_reverse, List.length_range]

/-- The lowest digit is the remainder, the others are those of the quotient. -/
theorem lowDigits_succ (base width k : Nat) :
    lowDigits base (width + 1) k = k % base :: lowDigits base width (k / base) := by
  rw [lowDigits, List.range_succ_eq_map, List.map_cons, pow_zero, Nat.div_one, List.map_map]
  refine congrArg (_ :: ·) (List.map_congr_left fun place _ => ?_)
  rw [Function.comp_apply, Nat.succ_eq_add_one, pow_succ', ← Nat.div_div_eq_div_mul]

/-- The highest digit, and then the numeral without it. -/
theorem numeral_succ (base width k : Nat) :
    numeral base (width + 1) k = k / base ^ width % base :: numeral base width k := by
  rw [numeral, List.range_succ, List.reverse_append, List.reverse_singleton, List.singleton_append,
    List.map_cons, ← numeral]

/-- Zero has all digits zero. -/
theorem lowDigits_zero (base width : Nat) : lowDigits base width 0 = List.replicate width 0 := by
  refine List.eq_replicate_iff.2 ⟨by rw [lowDigits, List.length_map, List.length_range], ?_⟩
  intro d hd
  obtain ⟨place, -, rfl⟩ := List.mem_map.1 hd
  rw [Nat.zero_div, Nat.zero_mod]

-- ---------------------------------------------------------------------------
-- One step
-- ---------------------------------------------------------------------------

/-- A digit can be increased, since the base is a word. -/
theorem nextWord_of_lt {d base : UInt64} (h : d.toNat < base.toNat) :
    nextWord d = .ok (d + 1) ∧ (d + 1).toNat = d.toNat + 1 := by
  have hsize : d.toNat + 1 < UInt64.size := Nat.lt_of_le_of_lt h base.toNat_lt_size
  exact ⟨if_pos hsize, (UInt64.toNat_add d 1).trans (Nat.mod_eq_of_lt hsize)⟩

/-- A number with a last digit that is not the largest: the step stops there. -/
theorem succ_div_of_lt {base k : Nat} (h : k % base + 1 < base) :
    (k + 1) / base = k / base ∧ (k + 1) % base = k % base + 1 := by
  have hk := Nat.div_add_mod k base
  rw [show k + 1 = base * (k / base) + (k % base + 1) by omega]
  exact ⟨by rw [Nat.mul_add_div (by omega), Nat.div_eq_of_lt h, Nat.add_zero],
    by rw [Nat.mul_add_mod, Nat.mod_eq_of_lt h]⟩

/-- A number with the largest last digit: the step is passed on. -/
theorem succ_div_of_eq {base k : Nat} (hbase : 0 < base) (h : k % base + 1 = base) :
    (k + 1) / base = k / base + 1 ∧ (k + 1) % base = 0 := by
  have hk := Nat.div_add_mod k base
  have hsucc : k + 1 = base * (k / base + 1) := by rw [Nat.mul_succ]; omega
  rw [hsucc]
  exact ⟨Nat.mul_div_cancel_left _ hbase, Nat.mul_mod_right _ _⟩

/-- Wheels that show the digits of `k` are turned to those of `k + 1`. The step stops at a wheel
unless all digits of `k` are the largest. -/
theorem turn_eq {base : UInt64} {ds : List UInt64} {k : Nat}
    (hshown : ds.map UInt64.toNat = lowDigits base.toNat ds.length k)
    (hk : k < base.toNat ^ ds.length) :
    ∃ ds', turn base ds = .ok (ds', decide (k + 1 < base.toNat ^ ds.length)) ∧
      ds'.map UInt64.toNat = lowDigits base.toNat ds.length (k + 1) := by
  induction ds generalizing k with
  | nil =>
    obtain rfl : k = 0 := Nat.lt_one_iff.1 hk
    exact ⟨[], rfl, rfl⟩
  | cons d ds ih =>
    rw [List.length_cons, lowDigits_succ, List.map_cons, List.cons.injEq] at hshown
    rw [List.length_cons, pow_succ] at hk
    obtain ⟨hd, hds⟩ := hshown
    have hbase : 0 < base.toNat := Nat.pos_of_mul_pos_left (Nat.zero_lt_of_lt hk)
    have hdlt : d.toNat < base.toNat := hd ▸ Nat.mod_lt k hbase
    obtain ⟨hnext, hval⟩ := nextWord_of_lt hdlt
    rw [List.length_cons, pow_succ, lowDigits_succ, turn, hnext]
    -- either the lowest digit takes the step, or it goes back to zero and the rest are turned
    by_cases hlt : k % base.toNat + 1 < base.toNat
    · have hstop : d + 1 < base := by rwa [UInt64.lt_iff_toNat_lt, hval, hd]
      obtain ⟨hdiv, hmod⟩ := succ_div_of_lt hlt
      have hfits : k + 1 < base.toNat ^ ds.length * base.toNat := by
        rw [← Nat.div_lt_iff_lt_mul hbase, hdiv, Nat.div_lt_iff_lt_mul hbase]
        exact hk
      refine ⟨(d + 1) :: ds, ?_, ?_⟩
      · rw [decide_eq_true hfits]
        exact if_pos hstop
      · rw [List.map_cons, hval, hd, hds, hdiv, hmod]
    · have heq : k % base.toNat + 1 = base.toNat := by omega
      have hgo : ¬ d + 1 < base := by rwa [UInt64.lt_iff_toNat_lt, hval, hd]
      obtain ⟨hdiv, hmod⟩ := succ_div_of_eq hbase heq
      have hfits : k / base.toNat + 1 < base.toNat ^ ds.length ↔
          k + 1 < base.toNat ^ ds.length * base.toNat := by
        rw [← hdiv, Nat.div_lt_iff_lt_mul hbase]
      obtain ⟨ds', hturn, hds'⟩ := ih hds ((Nat.div_lt_iff_lt_mul hbase).2 hk)
      rw [decide_eq_decide.2 hfits] at hturn
      refine ⟨0 :: ds', ?_, ?_⟩
      · show (if d + 1 < base then _ else turn base ds >>= _) = _
        rw [if_neg hgo, hturn]
        rfl
      · rw [List.map_cons, hds', hdiv, hmod]
        rfl

-- ---------------------------------------------------------------------------
-- The calls
-- ---------------------------------------------------------------------------

/-- The wheels after `k` tuples were asked for since they stood at zero. -/
structure At (base : UInt64) (width k : Nat) (w : Wheels) : Prop where
  base_eq : w.base = base
  length_eq : w.digits.length = width
  done_iff : w.done ↔ base.toNat ^ width ≤ k
  shown : k < base.toNat ^ width → w.digits.map UInt64.toNat = numeral base.toNat width k

/-- There is no tuple at all only if there are digits and no base for them. -/
theorem toNat_pow_le_zero_iff {base : UInt64} {width : Nat} :
    base.toNat ^ width ≤ 0 ↔ base = 0 ∧ 0 < width := by
  rw [Nat.le_zero, Nat.pow_eq_zero, ← UInt64.toNat_inj, Nat.pos_iff_ne_zero]
  rfl

/-- Wheels that are all at zero have given out nothing yet. -/
theorem at_zeros (base : UInt64) {digits : List UInt64} {done : Bool} {width : Nat}
    (hlength : digits.length = width) (hzero : ∀ d ∈ digits, d = 0)
    (hdone : done ↔ base = 0 ∧ 0 < width) : At base width 0 ⟨base, digits, done⟩ where
  base_eq := rfl
  length_eq := hlength
  done_iff := hdone.trans toNat_pow_le_zero_iff.symm
  shown _ := by
    rw [List.eq_replicate_iff.2 ⟨hlength, hzero⟩, List.map_replicate, numeral_eq_reverse,
      lowDigits_zero, List.reverse_replicate]
    rfl

/-- New wheels are at the beginning. -/
theorem at_ofBase (base : UInt64) (width : Nat) : At base width 0 (ofBase base width) :=
  at_zeros base List.length_replicate (fun _ hd => (List.mem_replicate.1 hd).2) decide_eq_true_iff

namespace At

variable {base : UInt64} {width k : Nat} {w : Wheels}

/-- From wherever the wheels are turned back, they count from zero again. -/
theorem reset (h : At base width k w) : At base width 0 w.reset := by
  obtain ⟨rfl, rfl, -, -⟩ := h
  refine at_zeros w.base (List.length_map _) (fun d hd => ?_) ?_
  · obtain ⟨-, -, rfl⟩ := List.mem_map.1 hd
    rfl
  · exact decide_eq_true_iff.trans (and_congr_right fun _ => List.length_pos_iff.symm)

/-- The next tuple is the one that has the number of tuples before it. -/
theorem next (h : At base width k w) :
    ∃ answer w', w.next = .ok (answer, w') ∧ At base width (k + 1) w' ∧
      answer.map (List.map UInt64.toNat) = tuple? base.toNat width k := by
  obtain ⟨rfl, rfl, hdone, hshown⟩ := h
  rw [Wheels.next, tuple?]
  by_cases hk : k < w.base.toNat ^ w.digits.length
  · have hlow : w.digits.reverse.map UInt64.toNat =
        lowDigits w.base.toNat w.digits.reverse.length k := by
      rw [List.map_reverse, hshown hk, numeral_eq_reverse, List.reverse_reverse,
        List.length_reverse]
    -- the wheels keep their digits high end first and are turned at the low end
    obtain ⟨ds, hturn, hds⟩ := turn_eq hlow (by rwa [List.length_reverse])
    have hlength : ds.length = w.digits.length := by
      rw [← List.length_map UInt64.toNat, hds, lowDigits, List.length_map, List.length_range,
        List.length_reverse]
    rw [if_neg (mt hdone.1 (Nat.not_le_of_lt hk)), hturn, if_pos hk]
    refine ⟨_, _, rfl, ⟨rfl, ?_, ?_, fun _ => ?_⟩, congrArg some (hshown hk)⟩
    · rw [List.length_reverse, hlength]
    · rw [List.length_reverse, Bool.not_eq_true', decide_eq_false_iff_not, Nat.not_lt]
    · rw [List.map_reverse, hds, List.length_reverse, ← numeral_eq_reverse]
  · have hle : w.base.toNat ^ w.digits.length ≤ k := Nat.le_of_not_lt hk
    have hle' : w.base.toNat ^ w.digits.length ≤ k + 1 := Nat.le_succ_of_le hle
    rw [if_pos (hdone.2 hle), if_neg hk]
    exact ⟨none, w, rfl, ⟨rfl, rfl, iff_of_true (hdone.2 hle) hle',
      fun hlt => absurd hle' (Nat.not_le_of_lt hlt)⟩, rfl⟩

end At

/-- A use of a counter. -/
inductive Call where
  | next
  | reset

/-- Performs the calls in order and returns the answers to those for a tuple. -/
def performAll : Wheels → List Call → Except WordOverflow (List (Option (List UInt64)) × Wheels)
  | w, [] => .ok ([], w)
  | w, .next :: calls => do
    let (answer, w) ← w.next
    let (answers, w) ← w.performAll calls
    return (answer :: answers, w)
  | w, .reset :: calls => w.reset.performAll calls

/-- For each call for a tuple, the number of those before it since the last reset, where there were
`k` before the first. -/
def countsFrom : Nat → List Call → List Nat
  | _, [] => []
  | k, .next :: calls => k :: countsFrom (k + 1) calls
  | _, .reset :: calls => countsFrom 0 calls

/-- Every call for a tuple is answered with the tuple that has the number of that call. -/
theorem performAll_eq {base : UInt64} {width k : Nat} {w : Wheels} (h : At base width k w)
    (calls : List Call) :
    ∃ answers w', w.performAll calls = .ok (answers, w') ∧
      answers.map (Option.map (List.map UInt64.toNat)) =
        (countsFrom k calls).map (tuple? base.toNat width) := by
  induction calls generalizing w k with
  | nil => exact ⟨[], w, rfl, rfl⟩
  | cons call calls ih =>
    cases call with
    | next =>
      obtain ⟨answer, w₁, hnext, hat, hanswer⟩ := h.next
      obtain ⟨answers, w', hrest, hanswers⟩ := ih hat
      refine ⟨answer :: answers, w', ?_, ?_⟩
      · rw [performAll, hnext]
        show (do let (answers, w) ← w₁.performAll calls; pure (answer :: answers, w)) = _
        rw [hrest]
        rfl
      · rw [List.map_cons, hanswer, hanswers, countsFrom, List.map_cons]
    | reset => exact ih h.reset

/-- Turned back in the middle of a run, and asked for more than there is. -/
example : (·.1) <$> (ofBase 2 1).performAll [.next, .next, .reset, .next, .next, .next] =
    .ok [some [0], some [1], some [0], some [1], none] := rfl

-- ---------------------------------------------------------------------------
-- A full run
-- ---------------------------------------------------------------------------

/-- Over equal radices the volume is a power. -/
theorem volume_replicate (base width : Nat) :
    MixedRadix.volume (List.replicate width base) = base ^ width := List.prod_replicate ..

/-- A numeral is the code of a tuple whose radices are all the base. -/
theorem numeral_eq_decode (base width k : Nat) :
    numeral base width k = MixedRadix.decode (List.replicate width base) (k % base ^ width) := by
  induction width with
  | zero => rfl
  | succ width ih =>
    rw [numeral_succ, List.replicate_succ, MixedRadix.decode, volume_replicate, pow_succ,
      Nat.mod_mul_right_div_self, Nat.mod_mul_right_mod, ih]

/-- Below the number of tuples, a numeral is what the number decodes to. -/
theorem numeral_of_lt {base width k : Nat} (h : k < base ^ width) :
    numeral base width k = MixedRadix.decode (List.replicate width base) k := by
  rw [numeral_eq_decode, Nat.mod_eq_of_lt h]

/-- A numeral encodes the number it was made from. -/
theorem encode?_numeral {base width k : Nat} (h : k < base ^ width) :
    MixedRadix.encode? (List.replicate width base) (numeral base width k) = some k := by
  rw [numeral_of_lt h]
  exact MixedRadix.encode?_decode (by rwa [volume_replicate])

/-- Digits below equal radices are digits below the base. -/
theorem forall₂_replicate_iff {base width : Nat} {ds : List Nat} :
    List.Forall₂ (· < ·) ds (List.replicate width base) ↔
      ds.length = width ∧ ∀ d ∈ ds, d < base := by
  induction width generalizing ds with
  | zero =>
    rw [List.replicate_zero, List.forall₂_nil_right_iff, List.length_eq_zero_iff]
    refine (and_iff_left_of_imp ?_).symm
    rintro rfl
    exact List.forall_mem_nil _
  | succ width ih =>
    cases ds with
    | nil => simp
    | cons d ds =>
      rw [List.replicate_succ, List.forall₂_cons, ih, List.length_cons, Nat.succ_inj,
        List.forall_mem_cons, and_left_comm]

/-- The numerals are all the tuples of digits. -/
theorem mem_map_numeral_iff {base width : Nat} {ds : List Nat} :
    ds ∈ (List.range (base ^ width)).map (numeral base width) ↔
      ds.length = width ∧ ∀ d ∈ ds, d < base := by
  rw [List.mem_map, ← forall₂_replicate_iff, ← MixedRadix.isSome_encode?_iff,
    Option.isSome_iff_exists]
  refine exists_congr fun k => ?_
  rw [List.mem_range]
  constructor
  · rintro ⟨hk, rfl⟩
    exact encode?_numeral hk
  · intro hk
    have hlt : k < base ^ width := volume_replicate base width ▸ MixedRadix.encode?_lt_volume hk
    exact ⟨hlt, (numeral_of_lt hlt).trans (MixedRadix.decode_encode? hk)⟩

/-- Larger numbers have larger numerals. -/
theorem pairwise_map_numeral (base width : Nat) :
    ((List.range (base ^ width)).map (numeral base width)).Pairwise (List.Lex (· < ·)) := by
  rw [List.pairwise_map]
  refine List.pairwise_lt_range.imp_of_mem fun {j k} hj hk hlt => ?_
  rw [List.mem_range] at hj hk
  rw [numeral_of_lt hj, numeral_of_lt hk]
  exact MixedRadix.lex_decode hlt (by rwa [volume_replicate])

/-- Slots that hold every digit yield the digits that are picked from them. -/
theorem pick_range {base : Nat} {ds : List Nat} (h : ∀ d ∈ ds, d < base) :
    Choices.pick (List.replicate ds.length (List.range base).toArray) ds = some ds := by
  induction ds with
  | nil => rfl
  | cons d ds ih =>
    obtain ⟨hd, hds⟩ := List.forall_mem_cons.1 h
    have hget : (List.range base).toArray[d]? = some d := by
      rw [List.getElem?_toArray, List.getElem?_range hd]
    rw [List.length_cons, List.replicate_succ, Choices.pick, hget, ih hds]
    rfl

/-- The numerals are what a tuple counter yields, in the same order. -/
theorem map_numeral_eq_toList (base width : Nat) :
    (List.range (base ^ width)).map (numeral base width) =
      Enumeration.toList (TupleCounter.ofBase base width) := by
  rw [TupleCounter.toList_ofBase, Choices.tuples_eq_nestedLoops]
  set slots := List.replicate width (List.range base).toArray
  have hsizes : slots.map Array.size = List.replicate width base := by
    rw [List.map_replicate, List.size_toArray, List.length_range]
  refine List.ext_getElem? fun k => ?_
  -- place by place: the numeral of a place picks the tuple that the loops have there
  by_cases hk : k < base ^ width
  · have hmem := List.mem_map_of_mem (f := numeral base width) (List.mem_range.2 hk)
    have hpick := pick_range (mem_map_numeral_iff.1 hmem).2
    rw [length_numeral] at hpick
    rw [List.getElem?_map, List.getElem?_range hk, Option.map_some, ← hpick]
    exact (Choices.getElem?_nestedLoops (hsizes ▸ encode?_numeral hk)).symm
  · rw [List.getElem?_eq_none, List.getElem?_eq_none]
    · rw [Choices.length_nestedLoops, hsizes, volume_replicate]
      exact Nat.le_of_not_lt hk
    · rw [List.length_map, List.length_range]
      exact Nat.le_of_not_lt hk

/-- The same tuple in machine words. -/
def wordsOf (ds : List Nat) : List UInt64 := ds.map UInt64.ofNat

/-- Digits below a word survive being written as words. -/
theorem map_toNat_wordsOf {base : UInt64} {ds : List Nat} (h : ∀ d ∈ ds, d < base.toNat) :
    (wordsOf ds).map UInt64.toNat = ds := by
  rw [wordsOf, List.map_map]
  refine (List.map_congr_left fun d hd => ?_).trans (List.map_id ds)
  exact UInt64.toNat_ofNat_of_lt' (Nat.lt_trans (h d hd) base.toNat_lt_size)

/-- After a reset the count starts anew. -/
theorem countsFrom_append_reset (k : Nat) (calls calls' : List Call) :
    countsFrom k (calls ++ .reset :: calls') = countsFrom k calls ++ countsFrom 0 calls' := by
  induction calls generalizing k with
  | nil => rfl
  | cons call calls ih =>
    cases call with
    | next => exact congrArg (k :: ·) (ih (k + 1))
    | reset => exact ih 0

/-- Without a reset the calls are counted on. -/
theorem countsFrom_replicate_next (k n : Nat) :
    countsFrom k (List.replicate n .next) = List.range' k n := by
  induction n generalizing k with
  | zero => rfl
  | succ n ih => rw [List.replicate_succ, countsFrom, ih, List.range'_succ]

/-- Words with the same values are the same words. -/
theorem map_toNat_injective : Function.Injective (List.map UInt64.toNat) :=
  List.map_injective_iff.2 fun _ _ => UInt64.toNat_inj.1

/-- All tuples of digits, as words. -/
def allTuples (base : UInt64) (width : Nat) : List (List UInt64) :=
  ((List.range (base.toNat ^ width)).map (numeral base.toNat width)).map wordsOf

/-- The values of all tuples are the numerals in order. -/
theorem allTuples_toNat (base : UInt64) (width : Nat) :
    (allTuples base width).map (List.map UInt64.toNat) =
      (List.range (base.toNat ^ width)).map (numeral base.toNat width) := by
  rw [allTuples, List.map_map]
  refine (List.map_congr_left fun ds hds => ?_).trans (List.map_id _)
  exact map_toNat_wordsOf (mem_map_numeral_iff.1 hds).2

/-- There are as many tuples as the base to the power of the width. -/
theorem length_allTuples (base : UInt64) (width : Nat) :
    (allTuples base width).length = base.toNat ^ width := by
  rw [allTuples, List.length_map, List.length_map, List.length_range]

/-- Every tuple of digits below the base is among them, and nothing else. -/
theorem mem_allTuples_iff {base : UInt64} {width : Nat} {ds : List UInt64} :
    ds ∈ allTuples base width ↔ ds.length = width ∧ ∀ d ∈ ds, d < base := by
  have hwords : ds ∈ allTuples base width ↔
      ds.map UInt64.toNat ∈ (allTuples base width).map (List.map UInt64.toNat) :=
    (List.mem_map_of_injective map_toNat_injective).symm
  rw [hwords, allTuples_toNat, mem_map_numeral_iff, List.length_map, List.forall_mem_map]
  rfl

/-- They are listed in lexicographic order. -/
theorem pairwise_allTuples (base : UInt64) (width : Nat) :
    (allTuples base width).Pairwise (List.Lex (· < ·)) := by
  have h := pairwise_map_numeral base.toNat width
  rw [← allTuples_toNat, List.pairwise_map] at h
  exact h.imp fun hlex => lex_of_lex_map (fun _ _ => UInt64.toNat_inj.1)
    (fun _ _ => UInt64.lt_iff_toNat_lt.2) hlex

/-- Within the count, the answer is a numeral. -/
theorem tuple?_of_lt {base width k : Nat} (h : k < base ^ width) :
    tuple? base width k = some (numeral base width k) := if_pos h

/-- Past the count there is no answer. -/
theorem tuple?_of_le {base width k : Nat} (h : base ^ width ≤ k) : tuple? base width k = none :=
  if_neg (Nat.not_lt_of_le h)

/-- What is yielded when more is asked for than there is. -/
theorem map_tuple?_range (base : UInt64) (width beyond : Nat) :
    (List.range ((allTuples base width).length + beyond)).map (tuple? base.toNat width) =
      ((allTuples base width).map some ++ List.replicate beyond none).map
        (Option.map (List.map UInt64.toNat)) := by
  rw [length_allTuples, List.range_add, List.map_append, List.map_append]
  -- the calls that find a tuple, and those past the end
  refine congrArg₂ (· ++ ·) ?_ ?_
  · have hsome : (List.range (base.toNat ^ width)).map (tuple? base.toNat width) =
        ((allTuples base width).map (List.map UInt64.toNat)).map some := by
      rw [allTuples_toNat, List.map_map]
      exact List.map_congr_left fun k hk => tuple?_of_lt (List.mem_range.1 hk)
    rw [hsome, List.map_map, List.map_map]
    rfl
  · rw [List.map_map, List.map_replicate, List.eq_replicate_iff, List.length_map, List.length_range]
    refine ⟨rfl, fun answer hanswer => ?_⟩
    obtain ⟨k, -, rfl⟩ := List.mem_map.1 hanswer
    exact tuple?_of_le (Nat.le_add_right _ k)

/-- The `k`-th call for a tuple since the counter was made or last reset is answered with the digits
of `k`, if there are enough of them, whatever the calls before it were. So a run from a reset yields
every tuple of digits, once and in lexicographic order, and then nothing more. No wheel is ever
turned past the largest word. -/
theorem counts_by_place_value (base : UInt64) (width : Nat) :
    (∀ calls, ∃ answers w, (ofBase base width).performAll calls = .ok (answers, w) ∧
      answers.map (Option.map (List.map UInt64.toNat)) =
        (countsFrom 0 calls).map (tuple? base.toNat width)) ∧
    ∃ tuples : List (List UInt64),
      (∀ ds, ds ∈ tuples ↔ ds.length = width ∧ ∀ d ∈ ds, d < base) ∧
      tuples.Pairwise (List.Lex (· < ·)) ∧
      ∀ calls beyond, ∃ earlier w,
        (ofBase base width).performAll
            (calls ++ .reset :: List.replicate (tuples.length + beyond) .next) =
          .ok (earlier ++ (tuples.map some ++ List.replicate beyond none), w) := by
  have hanswers := performAll_eq (at_ofBase base width)
  have injective := List.map_injective_iff.2 (Option.map_injective map_toNat_injective)
  refine ⟨hanswers, allTuples base width, fun ds => mem_allTuples_iff,
    pairwise_allTuples base width, fun calls beyond => ?_⟩
  obtain ⟨answers, w, hrun, hshown⟩ :=
    hanswers (calls ++ .reset :: List.replicate ((allTuples base width).length + beyond) .next)
  rw [countsFrom_append_reset, countsFrom_replicate_next, ← List.range_eq_range',
    List.map_append, map_tuple?_range] at hshown
  -- the answers after the reset are known by their values, and so by themselves
  obtain ⟨earlier, last, rfl, -, hlast⟩ := List.map_eq_append_iff.1 hshown
  exact ⟨earlier, w, by rw [hrun, injective hlast]⟩

end Wheels

end TreePattern
