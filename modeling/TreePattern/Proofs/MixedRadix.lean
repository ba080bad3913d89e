import TreePattern.MixedRadix
import Mathlib.Algebra.BigOperators.Ring.List
import Mathlib.Algebra.GroupWithZero.Nat
import Mathlib.Data.List.Forall2

/-!
# Coding and decoding tuples

A tuple has a number exactly if each of its digits is below the radix in its place. Numbers below
the volume and such tuples correspond to each other, and a larger number is a tuple that is later in
the lexicographic order. This holds for radices of any kind: if one is zero, there are no tuples and
no numbers, and a place of radix one adds nothing to a number.

## Results

* `MixedRadix.isSome_encode?_iff` — which tuples have a number.
* `MixedRadix.encode?_decode`     — a number below the volume is the number of its tuple.
* `MixedRadix.lex_decode`         — the tuples ascend with their numbers.
* `MixedRadix.offset?_eq_encode?` — the way from left to right.
* `MixedRadix.digitsOf_eq_decode` — the way from right to left.
-/

namespace TreePattern

namespace MixedRadix

variable {radices : List Nat} {m n : Nat}

/-- The volume is the library's product, over which its lemmas are stated. -/
theorem volume_eq_prod (radices : List Nat) : volume radices = radices.prod := rfl

/-- A number below the volume has a first digit below the first radix. -/
theorem div_volume_lt {r : Nat} {rs : List Nat} (h : n < volume (r :: rs)) :
    0 < volume rs ∧ n / volume rs < r := by
  rw [volume_cons] at h
  have hpos : 0 < volume rs := Nat.pos_of_mul_pos_left (Nat.zero_lt_of_lt h)
  exact ⟨hpos, (Nat.div_lt_iff_lt_mul hpos).2 h⟩

/-- A tuple has a number exactly if each digit is below its radix. -/
theorem isSome_encode?_iff {digits : List Nat} :
    (encode? radices digits).isSome ↔ List.Forall₂ (· < ·) digits radices := by
  induction radices generalizing digits with
  | nil =>
    cases digits with
    | nil => exact iff_of_true rfl .nil
    | cons d ds => exact iff_of_false (by simp [encode?]) (by simp)
  | cons r rs ih =>
    cases digits with
    | nil => exact iff_of_false (by simp [encode?]) (by simp)
    | cons d ds =>
      rw [encode?, List.forall₂_cons, ← ih]
      split
      · next hd => rw [Option.isSome_map, and_iff_right hd]
      · next hd => exact iff_of_false (by simp) fun h => hd h.1

/-- The digits of a number encode it. -/
theorem encode?_decode (h : n < volume radices) : encode? radices (decode radices n) = some n := by
  induction radices generalizing n with
  | nil =>
    have hzero : n = 0 := Nat.lt_one_iff.1 h
    rw [hzero, decode, encode?]
  | cons r rs ih =>
    obtain ⟨hpos, hd⟩ := div_volume_lt h
    rw [decode, encode?, if_pos hd, ih (Nat.mod_lt n hpos), Option.map_some, Nat.mul_comm,
      Nat.div_add_mod]

/-- The tuple of a smaller number comes first: it has the smaller first digit, or the same one and
a smaller number for the rest. -/
theorem lex_decode (hlt : m < n) (h : n < volume radices) :
    List.Lex (· < ·) (decode radices m) (decode radices n) := by
  induction radices generalizing m n with
  | nil =>
    have hzero : n = 0 := Nat.lt_one_iff.1 h
    exact absurd (hzero ▸ hlt) (Nat.not_lt_zero m)
  | cons r rs ih =>
    obtain ⟨hpos, -⟩ := div_volume_lt h
    rw [decode, decode]
    have hle : m / volume rs ≤ n / volume rs := Nat.div_le_div_right (Nat.le_of_lt hlt)
    -- the first digits differ, or the rest decides by its remainders
    rcases Nat.lt_or_eq_of_le hle with hd | hd
    · exact .rel hd
    · rw [hd]
      refine .cons (ih ?_ (Nat.mod_lt n hpos))
      have hm := Nat.div_add_mod m (volume rs)
      have hn := Nat.div_add_mod n (volume rs)
      rw [hd] at hm
      omega

-- ---------------------------------------------------------------------------
-- Digit by digit
-- ---------------------------------------------------------------------------

/-- What has been read so far is shifted by the volume of what is still to be read. -/
theorem foldlM_zip_eq {digits : List Nat} (hlen : digits.length = radices.length) (start : Nat) :
    (radices.zip digits).foldlM appendDigit? start =
      (encode? radices digits).map (start * volume radices + ·) := by
  induction radices generalizing digits start with
  | nil =>
    obtain rfl : digits = [] := List.length_eq_zero_iff.1 hlen
    show some start = some (start * 1 + 0)
    rw [Nat.mul_one, Nat.add_zero]
  | cons r rs ih =>
    cases digits with
    | nil => exact absurd hlen (by simp)
    | cons d ds =>
      have hlen : ds.length = rs.length := Nat.succ.inj hlen
      rw [List.zip_cons_cons, List.foldlM_cons, encode?, appendDigit?]
      dsimp only
      by_cases hd : d < r
      -- the digits so far are multiplied up past the radices that are left
      · have hshift : ∀ m, (start * r + d) * volume rs + m =
            start * volume (r :: rs) + (d * volume rs + m) := fun m => by
          rw [volume_cons, Nat.add_mul, Nat.mul_assoc, Nat.add_assoc]
        rw [if_pos hd, if_pos hd, Option.bind_eq_bind, Option.bind_some, ih hlen, Option.map_map]
        exact congrArg (Option.map · _) (funext hshift)
      · rw [if_neg hd, if_neg hd]
        rfl

/-- Multiplying up from the left gives the number of the tuple. -/
theorem offset?_eq_encode? (radices digits : List Nat) :
    offset? radices digits = encode? radices digits := by
  rw [offset?]
  split
  · next hlen =>
    rw [foldlM_zip_eq hlen, Nat.zero_mul]
    simp
  · next hlen =>
    refine (Option.not_isSome_iff_eq_none.1 fun hsome => hlen ?_).symm
    exact (isSome_encode?_iff.1 hsome).length_eq

/-- The remainders are the digits of what the places read so far can hold, and the rest is left. -/
theorem foldr_digits_eq (radices : List Nat) (n : Nat) :
    radices.foldr splitDigit ([], n) =
      (decode radices (n % volume radices), n / volume radices) := by
  induction radices with
  | nil => rw [List.foldr_nil, decode, show volume [] = 1 from rfl, Nat.div_one]
  | cons r rs ih =>
    rw [List.foldr_cons, ih, splitDigit, decode, volume_cons, Nat.mod_mul_left_div_self,
      Nat.mod_mul_left_mod, Nat.div_div_eq_div_mul, Nat.mul_comm r]

/-- Taking remainders from the right gives the digits of the number. -/
theorem digitsOf_eq_decode (h : n < volume radices) : digitsOf radices n = decode radices n := by
  rw [digitsOf, foldr_digits_eq, Nat.mod_eq_of_lt h]

/-- If there is any tuple at all, every place has digits. -/
theorem pos_of_mem (h : n < volume radices) : ∀ r ∈ radices, 0 < r := by
  intro r hr
  by_contra hzero
  obtain rfl : r = 0 := Nat.eq_zero_of_not_pos hzero
  rw [volume_eq_prod, List.prod_eq_zero hr] at h
  exact Nat.not_lt_zero n h

/-- No division fails on the way to the digits of a number that has some. -/
theorem digitsOf?_eq_some (h : n < volume radices) :
    digitsOf? radices n = some (digitsOf radices n) := by
  have hpos := pos_of_mem h
  clear h
  have hfold : radices.foldrM splitDigit? ([], n) = some (radices.foldr splitDigit ([], n)) := by
    induction radices with
    | nil => rfl
    | cons r rs ih =>
      obtain ⟨hr, hrs⟩ := List.forall_mem_cons.1 hpos
      rw [List.foldrM_cons, ih hrs, List.foldr_cons]
      exact if_neg (Nat.ne_of_gt hr)
  rw [digitsOf?, hfold]
  rfl

/-- A place of radix one adds nothing to the number. -/
example : offset? [2, 1, 3] [1, 0, 2] = some 5 ∧ digitsOf [2, 1, 3] 5 = [1, 0, 2] := by decide

end MixedRadix

end TreePattern
