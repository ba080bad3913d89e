import TreePattern.Signature.Lexicon
import TreePattern.Proofs.Traversal
import Mathlib.Data.String.Basic

/-!
# Bytes in the order of characters

Names are compared by the bytes of their UTF-8 form. This is the order of their characters: where
two names differ first, the larger character has the larger first byte or, with the same first
byte, is larger at the first byte in which the two differ.

## Results

* `utf8EncodeChar_append_lt` — a larger character has larger bytes, whatever follows.
* `utf8_lt_iff`              — the order of names.
-/

namespace TreePattern

/-- The bytes of a character as numbers. -/
def byteValues (v : Nat) : List Nat :=
  if v ≤ 127 then [v]
  else if v ≤ 2047 then [v / 64 + 192, v % 64 + 128]
  else if v ≤ 65535 then [v / 4096 + 224, v / 64 % 64 + 128, v % 64 + 128]
  else [v / 262144 + 240, v / 4096 % 64 + 128, v / 64 % 64 + 128, v % 64 + 128]

/-- The bytes of a character as a function of its number. -/
theorem map_toNat_utf8EncodeChar (c : Char) :
    (String.utf8EncodeChar c).map UInt8.toNat = byteValues c.val.toNat := by
  have hc : c.val.toNat < 1114112 := by rcases c.valid with h | ⟨-, h⟩ <;> omega
  unfold String.utf8EncodeChar byteValues
  generalize c.val.toNat = v at hc
  simp only [apply_ite (List.map UInt8.toNat), List.map_cons, List.map_nil, UInt8.toNat_ofNat']
  split
  · next h => rw [Nat.mod_eq_of_lt (by omega)]
  split
  · simp only [List.cons.injEq, and_true]
    omega
  split <;> simp only [List.cons.injEq, and_true] <;> omega

/-- A larger value has larger bytes. If it has as many, they hold six bits each and are compared one
by one; if it has more, the first byte is larger. -/
theorem byteValues_append_lt {v w : Nat} (h : v < w) (as bs : List Nat) :
    byteValues v ++ as < byteValues w ++ bs := by
  unfold byteValues
  split_ifs <;> simp only [List.cons_append, List.nil_append, List.cons_lt_cons_iff] <;> omega

/-- A smaller character has smaller bytes, whatever follows. -/
theorem utf8EncodeChar_append_lt {c d : Char} (h : c < d) (as bs : List UInt8) :
    String.utf8EncodeChar c ++ as < String.utf8EncodeChar d ++ bs := by
  refine lex_of_lex_map (s := (· < ·)) (fun _ _ => UInt8.toNat_inj.1)
    (fun _ _ => UInt8.lt_iff_toNat_lt.2) ?_
  rw [List.map_append, List.map_append, map_toNat_utf8EncodeChar, map_toNat_utf8EncodeChar]
  exact byteValues_append_lt h _ _

/-- The bytes of a name are those of its characters, one after the other. -/
theorem utf8_eq_flatMap (name : String) :
    utf8 name = name.toList.flatMap String.utf8EncodeChar := by
  rw [utf8, String.toUTF8, ← String.utf8Encode_toList, List.utf8Encode, List.data_toByteArray]

/-- A common beginning does not matter. -/
theorem append_lt_append (as : List UInt8) {bs cs : List UInt8} (h : bs < cs) :
    as ++ bs < as ++ cs := by
  induction as with
  | nil => exact h
  | cons a as ih => exact .cons ih

/-- The order of characters carries over to bytes. -/
theorem flatMap_utf8EncodeChar_lt {cs ds : List Char} (h : cs < ds) :
    cs.flatMap String.utf8EncodeChar < ds.flatMap String.utf8EncodeChar := by
  induction h with
  | @nil d ds =>
    obtain ⟨b, bs, hbytes⟩ := List.exists_cons_of_length_pos
      (l := String.utf8EncodeChar d) (by rw [String.length_utf8EncodeChar]; exact d.utf8Size_pos)
    rw [List.flatMap_cons, hbytes]
    exact List.nil_lt_cons b _
  | rel hlt => exact utf8EncodeChar_append_lt hlt _ _
  | cons _ ih => exact append_lt_append _ ih

/-- Different names have different bytes. -/
theorem utf8_injective : Function.Injective utf8 := by
  intro a b h
  rw [utf8, utf8, Array.toList_inj] at h
  exact String.toByteArray_inj.1 (ByteArray.ext h)

theorem utf8_lt_of_lt {a b : String} (h : a < b) : utf8 a < utf8 b := by
  rw [utf8_eq_flatMap, utf8_eq_flatMap]
  exact flatMap_utf8EncodeChar_lt (String.lt_iff.1 h)

/-- Comparing names by their bytes is comparing them by their characters. -/
theorem utf8_lt_iff {a b : String} : utf8 a < utf8 b ↔ a < b := by
  refine ⟨fun h => ?_, utf8_lt_of_lt⟩
  rcases lt_trichotomy a b with hlt | rfl | hgt
  · exact hlt
  · exact absurd h (List.lt_irrefl _)
  · exact absurd h (List.lt_asymm (utf8_lt_of_lt hgt))

end TreePattern
