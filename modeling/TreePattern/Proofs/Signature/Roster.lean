import TreePattern.Proofs.FirstAppearance
import TreePattern.Signature.Roster

/-!
# A roster is a numbering

Nothing ties the two stores of a roster to each other, but interning keeps both in step with the
numbering that gives the same names their numbers in the same order. This holds however many names
there are, as far as the numbers go into words. As long as there are no more names than words, no
two numbers go into the same one, and what the numbering knows can be read off the roster: each of
the stores is the inverse of the other.

## Results

* `Roster.Records.intern`     — interning a name in a roster and in its numbering.
* `Roster.Records.internAll`  — interning any names, one after the other.
* `Roster.Records.number?_eq_some_iff` — the stores of a roster are inverse to each other.
* `Roster.lists_internAll`    — what interning any names leaves, and what it answers.
-/

namespace TreePattern

namespace Roster

/-- The word in which a number is stored. -/
def word (id : SymbolId) : UInt32 := .ofNat id.val

/-- The stores of the roster hold the names and the numbers of the numbering. -/
structure Records (r : Roster) (n : Numbering .symbol String) : Prop where
  names_eq : r.names.toList = n.toList
  number?_eq : ∀ name, r.number? name = (n.idOf? name).map word

/-- The empty roster records the empty numbering. -/
theorem records_empty : empty.Records .empty where
  names_eq := rfl
  number?_eq _ := Std.TreeMap.getElem?_emptyc.trans (congrArg (Option.map word)
    Std.TreeMap.getElem?_emptyc).symm

variable {r : Roster} {n : Numbering .symbol String} {name : String} {number : UInt32}

namespace Records

-- ---------------------------------------------------------------------------
-- Interning
-- ---------------------------------------------------------------------------

/-- Both have as many names. -/
theorem size_eq (h : r.Records n) : r.size = n.size := by
  rw [size, ← Array.length_toList, h.names_eq, Numbering.length_toList]

/-- The answer is the number of the name in a word, and both stores have taken in the name. -/
theorem intern (h : r.Records n) (name : String) :
    (r.intern name).1 = word (n.intern name).1 ∧ (r.intern name).2.Records (n.insert name) := by
  have hnumber := h.number?_eq name
  rw [Roster.intern, Numbering.intern]
  -- a known name changes neither side, and a new one is put into the map and the vector
  cases hid : n.idOf? name with
  | some id =>
    have hknown : n.contains name := by rw [Numbering.contains, hid, Option.isSome_some]
    rw [hid, Option.map_some] at hnumber
    rw [hnumber, Numbering.insert_of_contains hknown]
    exact ⟨rfl, h⟩
  | none =>
    rw [hid, Option.map_none] at hnumber
    rw [hnumber, show r.names.size = n.size from h.size_eq]
    refine ⟨rfl, ?_, fun other => ?_⟩
    · rw [Array.toList_push, h.names_eq, Numbering.toList_insert_of_new hid]
    · rw [Numbering.idOf?_insert_of_new hid, apply_ite (Option.map word), ← h.number?_eq]
      exact Std.TreeMap.getElem?_insert

/-- A name that was interned has the number it was given. -/
theorem number?_intern (h : r.Records n) (name : String) :
    (r.intern name).2.number? name = some (r.intern name).1 := by
  obtain ⟨hanswer, hrecords⟩ := h.intern name
  rw [hrecords.number?_eq, hanswer, Numbering.idOf?_insert_self, Option.map_some]

/-- Interning a list of names records the numbering of all of them. -/
theorem internAll (h : r.Records n) (names : List String) :
    (r.internAll names).2.Records (names.foldl Numbering.insert n) := by
  induction names generalizing r n with
  | nil => exact h
  | cons name names ih => exact ih (h.intern name).2

-- ---------------------------------------------------------------------------
-- What is kept
-- ---------------------------------------------------------------------------

/-- A number has the name it has in the numbering. -/
theorem name?_eq (h : r.Records n) (number : UInt32) :
    r.name? number = n.get? ⟨number.toNat⟩ := by
  rw [name?, ← Array.getElem?_toList, h.names_eq, Numbering.get?_eq_getElem?_toList]

/-- A name keeps its number whatever is interned later. -/
theorem number?_internAll (h : r.Records n) (hnumber : r.number? name = some number)
    (later : List String) : (r.internAll later).2.number? name = some number := by
  rw [h.number?_eq] at hnumber
  obtain ⟨id, hid, rfl⟩ := Option.map_eq_some_iff.1 hnumber
  have hkept := n.extends_foldl_insert later id name (Numbering.idOf?_eq_some_iff.1 hid)
  rw [(h.internAll later).number?_eq, Numbering.idOf?_eq_some_iff.2 hkept, Option.map_some]

/-- A number keeps its name whatever is interned later. -/
theorem name?_internAll (h : r.Records n) (hname : r.name? number = some name)
    (later : List String) : (r.internAll later).2.name? number = some name := by
  rw [h.name?_eq] at hname
  rw [(h.internAll later).name?_eq]
  exact n.extends_foldl_insert later _ name hname

/-- The name at a place has the word of that place as its number. -/
theorem number?_of_getElem? (h : r.Records n) {k : Nat} (hk : r.names.toList[k]? = some name) :
    r.number? name = some (.ofNat k) := by
  have hget : n.get? ⟨k⟩ = some name := by
    rw [Numbering.get?_eq_getElem?_toList, ← h.names_eq]
    exact hk
  rw [h.number?_eq, Numbering.idOf?_eq_some_iff.2 hget, Option.map_some, word]

/-- Each name is answered with the number that it has in the end. -/
theorem forall₂_internAll (h : r.Records n) (names : List String) :
    List.Forall₂ (fun name number => (r.internAll names).2.number? name = some number) names
      (r.internAll names).1 := by
  induction names generalizing r n with
  | nil => exact .nil
  | cons name names ih =>
    obtain ⟨-, hrecords⟩ := h.intern name
    exact .cons (hrecords.number?_internAll (h.number?_intern name) names) (ih hrecords)

end Records

-- ---------------------------------------------------------------------------
-- No more names than words
-- ---------------------------------------------------------------------------

/-- Only numbers below the size have a name. -/
theorem toNat_lt_size_of_name? (h : r.name? number = some name) : number.toNat < r.size :=
  (Array.getElem?_eq_some_iff.1 h).1

/-- Interning a known name changes nothing. -/
theorem intern_of_number? (h : r.number? name = some number) : r.intern name = (number, r) := by
  rw [intern, h]

section Bounded

variable (hsize : r.size ≤ UInt32.size)
include hsize

/-- A place fits its word as long as the roster is not larger than the words. -/
theorem toNat_ofNat_of_lt_size {k : Nat} (hk : k < r.size) : (UInt32.ofNat k).toNat = k :=
  UInt32.toNat_ofNat_of_lt' (Nat.lt_of_lt_of_le hk hsize)

/-- The entries are numbered from zero on. -/
theorem map_entries : r.entries.map (·.1.toNat) = List.range r.size := by
  refine List.ext_getElem (by simp [entries, size]) fun k hk _ => ?_
  rw [List.length_map, entries, List.length_mapIdx, Array.length_toList] at hk
  simp only [entries, List.getElem_map, List.getElem_mapIdx, List.getElem_range]
  exact toNat_ofNat_of_lt_size hsize hk

/-- An entry pairs a number with its name. -/
theorem name?_of_mem_entries {entry : UInt32 × String} (h : entry ∈ r.entries) :
    r.name? entry.1 = some entry.2 := by
  obtain ⟨k, hk, rfl⟩ := List.mem_mapIdx.1 h
  rw [Array.length_toList] at hk
  rw [name?, toNat_ofNat_of_lt_size hsize hk, Array.getElem_toList, Array.getElem?_eq_getElem hk]

/-- What one store tells of a name, the other tells of its number. -/
theorem Records.number?_eq_some_iff (h : r.Records n) :
    r.number? name = some number ↔ r.name? number = some name := by
  rw [h.number?_eq, h.name?_eq, Option.map_eq_some_iff]
  constructor
  · rintro ⟨id, hid, rfl⟩
    have hlt := Numbering.val_lt_size_of_idOf? hid
    rw [← h.size_eq] at hlt
    rw [word, toNat_ofNat_of_lt_size hsize hlt]
    exact Numbering.idOf?_eq_some_iff.1 hid
  · intro hget
    exact ⟨_, Numbering.idOf?_eq_some_iff.2 hget, UInt32.ofNat_toNat⟩

/-- A name has one number, and a number one name. -/
theorem Records.biUnique (h : r.Records n) :
    Relator.BiUnique fun name number => r.number? name = some number := by
  refine ⟨fun a b number ha hb => ?_, fun name a b ha hb => Option.some.inj (ha.symm.trans hb)⟩
  have ha := (h.number?_eq_some_iff hsize).1 ha
  have hb := (h.number?_eq_some_iff hsize).1 hb
  exact Option.some.inj (ha.symm.trans hb)

/-- The names of the roster have the numbers `0, 1, 2, …` -/
theorem Records.map_toNat_eq_range (h : r.Records n) {numbers : List UInt32}
    (hnumbers : List.Forall₂ (fun name number => r.number? name = some number) r.names.toList
      numbers) : numbers.map UInt32.toNat = List.range r.size := by
  refine List.ext_getElem ?_ fun k hk hk' => ?_
  · rw [List.length_map, ← hnumbers.length_eq, List.length_range]
    rfl
  · rw [List.length_map] at hk
    rw [List.length_range] at hk'
    have hname := List.getElem?_eq_getElem (l := r.names.toList) hk'
    have hnumber : r.number? r.names.toList[k] = some numbers[k] := hnumbers.get hk' hk
    rw [h.number?_of_getElem? hname] at hnumber
    rw [List.getElem_map, List.getElem_range, ← Option.some.inj hnumber,
      toNat_ofNat_of_lt_size hsize hk']

end Bounded

-- ---------------------------------------------------------------------------
-- After any names
-- ---------------------------------------------------------------------------

/-- The roster holds the names, and has answered them with the numbers when they were interned. -/
structure Lists (r : Roster) (names : List String) (numbers : List UInt32) : Prop where
  /-- Each name was answered with its number. -/
  answers : names.map r.number? = numbers.map some
  /-- The names stand in the order in which they were interned for the first time. -/
  names_eq : r.names.toList = names.eraseDups
  /-- In this order their numbers are `0, 1, 2, …` -/
  numbers_eq : numbers.eraseDups.map UInt32.toNat = List.range r.size
  /-- The two stores are inverse to each other. -/
  number?_eq_some_iff : ∀ name number,
    r.number? name = some number ↔ number.toNat < r.size ∧ r.name? number = some name
  /-- Two calls were answered alike exactly if they were for the same name. -/
  getElem?_eq_iff : ∀ i j : Nat, numbers[i]? = numbers[j]? ↔ names[i]? = names[j]?
  /-- Interning a known name changes nothing. -/
  intern_eq : ∀ name number, r.number? name = some number → r.intern name = (number, r)
  /-- What is known stays as it is, whatever is interned later. -/
  kept : ∀ name number, r.number? name = some number → ∀ later,
    (r.internAll later).2.number? name = some number ∧
    (r.internAll later).2.name? number = some name
  /-- The entries go through all numbers in their order. -/
  map_entries : r.entries.map (·.1.toNat) = List.range r.size
  /-- With each number the entries have its name. -/
  name?_of_mem_entries : ∀ entry ∈ r.entries, r.name? entry.1 = some entry.2

/-- Whatever names are interned, as long as no more of them are different than there are words: the
roster lists them with the numbers that were the answers. -/
theorem lists_internAll (names : List String) (h : names.eraseDups.length ≤ UInt32.size) :
    (empty.internAll names).2.Lists names (empty.internAll names).1 := by
  have hrecords := records_empty.internAll names
  have hanswers := records_empty.forall₂_internAll names
  have hnames := hrecords.names_eq.trans (Numbering.toList_ofList names)
  generalize (empty.internAll names).2 = r at *
  -- below the bound a number is told by its word, which is all that the other facts need
  have hsize : r.size ≤ UInt32.size := by rwa [size, ← Array.length_toList, hnames]
  have hunique := hrecords.biUnique hsize
  exact {
    answers := by
      rw [← List.forall₂_eq_eq_eq, List.forall₂_map_left_iff, List.forall₂_map_right_iff]
      exact hanswers
    names_eq := hnames
    numbers_eq := hrecords.map_toNat_eq_range hsize (hnames ▸ forall₂_eraseDups hunique hanswers)
    number?_eq_some_iff := fun name number => by
      rw [hrecords.number?_eq_some_iff hsize, iff_and_self]
      exact toNat_lt_size_of_name?
    getElem?_eq_iff := fun i j => (getElem?_eq_iff_of_forall₂ hunique hanswers i j).symm
    intern_eq := fun _ _ => intern_of_number?
    kept := fun _ _ hnumber later => ⟨hrecords.number?_internAll hnumber later,
      hrecords.name?_internAll ((hrecords.number?_eq_some_iff hsize).1 hnumber) later⟩
    map_entries := map_entries hsize
    name?_of_mem_entries := fun _ => name?_of_mem_entries hsize }

/-- A name that comes twice, and the empty one. -/
theorem lists_internAll_of_repetition :
    ["b", "", "b", "a"].eraseDups.length ≤ UInt32.size ∧
    (empty.internAll ["b", "", "b", "a"]).2.Lists ["b", "", "b", "a"]
      (empty.internAll ["b", "", "b", "a"]).1 := by
  have h : ["b", "", "b", "a"].eraseDups.length ≤ UInt32.size := by decide
  exact ⟨h, lists_internAll _ h⟩

end Roster

end TreePattern
