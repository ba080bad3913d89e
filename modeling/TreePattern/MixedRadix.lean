/-!
# Mixed radix

A tuple of digits, each below a radix of its own, is coded by one number, the leftmost digit
weighing most. The tuples over given radices are so numbered from 0 in lexicographic order.

A loop over the digits finds the number from left to right, without the weights (`offset?`), and the
digits from right to left, by remainders (`digitsOf`).
-/

namespace TreePattern

namespace MixedRadix

/-- The number of tuples over the given radices: their product. -/
def volume (radices : List Nat) : Nat := @List.prod Nat instMulNat One.ofOfNat1 radices

theorem volume_cons (r : Nat) (rs : List Nat) : volume (r :: rs) = r * volume rs := rfl

/-- The number of a tuple; `none` if it has the wrong length or a digit that is too large. -/
def encode? : List Nat → List Nat → Option Nat
  | [], [] => some 0
  | r :: rs, d :: ds => if d < r then (encode? rs ds).map (d * volume rs + ·) else none
  | [], _ :: _ => none
  | _ :: _, [] => none

/-- The tuple with the given number. -/
def decode : List Nat → Nat → List Nat
  | [], _ => []
  | _ :: rs, n => n / volume rs :: decode rs (n % volume rs)

/-- Appends to a number the digit of a place, which is given with its radix. -/
def appendDigit? (n : Nat) (place : Nat × Nat) : Option Nat :=
  if place.2 < place.1 then some (n * place.1 + place.2) else none

/-- The number of a tuple, from left to right. -/
def offset? (radices digits : List Nat) : Option Nat :=
  if digits.length = radices.length then (radices.zip digits).foldlM appendDigit? 0 else none

/-- Splits off the last digit of a number, the digits after it being known. -/
def splitDigit (radix : Nat) (known : List Nat × Nat) : List Nat × Nat :=
  (known.2 % radix :: known.1, known.2 / radix)

/-- The tuple with the given number, from right to left. -/
def digitsOf (radices : List Nat) (n : Nat) : List Nat := (radices.foldr splitDigit ([], n)).1

/-- Splits off the last digit of a number, at a place that has digits. -/
def splitDigit? (radix : Nat) (known : List Nat × Nat) : Option (List Nat × Nat) :=
  if radix = 0 then none else some (splitDigit radix known)

/-- The tuple with the given number, from right to left; `none` if a place has no digits. -/
def digitsOf? (radices : List Nat) (n : Nat) : Option (List Nat) :=
  (radices.foldrM splitDigit? ([], n)).map Prod.fst

/-- The numbers of tuples lie below the volume. -/
theorem encode?_lt_volume {radices digits : List Nat} {n : Nat}
    (h : encode? radices digits = some n) : n < volume radices := by
  induction radices generalizing digits n with
  | nil =>
    cases digits with
    | nil => cases h; decide
    | cons d ds => exact absurd h (by simp [encode?])
  | cons r rs ih =>
    cases digits with
    | nil => exact absurd h (by simp [encode?])
    | cons d ds =>
      rw [encode?] at h
      split at h
      · next hd =>
        obtain ⟨m, hm, rfl⟩ := Option.map_eq_some_iff.1 h
        -- the rest is below its own volume, so the first digit decides
        calc d * volume rs + m < d * volume rs + volume rs := Nat.add_lt_add_left (ih hm) _
          _ = (d + 1) * volume rs := (Nat.succ_mul _ _).symm
          _ ≤ r * volume rs := Nat.mul_le_mul_right _ hd
      · exact absurd h (by simp)

/-- Decoding undoes coding. -/
theorem decode_encode? {radices digits : List Nat} {n : Nat}
    (h : encode? radices digits = some n) : decode radices n = digits := by
  induction radices generalizing digits n with
  | nil =>
    cases digits with
    | nil => rfl
    | cons d ds => exact absurd h (by simp [encode?])
  | cons r rs ih =>
    cases digits with
    | nil => exact absurd h (by simp [encode?])
    | cons d ds =>
      rw [encode?] at h
      split at h
      · obtain ⟨m, hm, rfl⟩ := Option.map_eq_some_iff.1 h
        have hlt := encode?_lt_volume hm
        have hpos : 0 < volume rs := Nat.zero_lt_of_lt hlt
        -- quotient and remainder by the volume of the rest split the number again
        rw [decode, Nat.mul_comm, Nat.mul_add_div hpos, Nat.mul_add_mod, Nat.div_eq_of_lt hlt,
          Nat.mod_eq_of_lt hlt, Nat.add_zero, ih hm]
      · exact absurd h (by simp)

end MixedRadix

end TreePattern
