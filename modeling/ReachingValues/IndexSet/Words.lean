/-!
Rows of words as rows of binary digits. Each word has 64 digits, the lowest one first, and the
digits are counted through all words; so digit `i` is digit `i % 64` of word `i / 64`.
-/

namespace ReachingValues

abbrev Word := BitVec 64

namespace Word

/-- The number of words that have a digit for every index below `capacity`. -/
def countFor (capacity : Nat) : Nat := (capacity + 63) / 64

/-- The word in which the digit of index `i` is one and no other. -/
def mask (i : Nat) : Word := BitVec.twoPow 64 (i % 64)

/-- The digit of index `i`; beyond the last word all digits are zero. -/
def digit (words : Array Word) (i : Nat) : Bool := (words[i / 64]?.getD 0#64).getLsbD (i % 64)

variable {words others : Array Word} {word : Word} {i j : Nat}

theorem div_lt_countFor {capacity : Nat} (inside : i < capacity) : i / 64 < countFor capacity := by
  unfold countFor
  omega

theorem getLsbD_mask : (mask i).getLsbD j = decide (j = i % 64) := by
  simp [mask, BitVec.getLsbD_twoPow, Nat.mod_lt, eq_comm]

/-- Masking tells the digit. -/
theorem and_mask_ne_zero : (word &&& mask i != 0#64) = word.getLsbD (i % 64) := by
  have one : (mask i).getLsbD (i % 64) := by simp [getLsbD_mask]
  have nonzero : mask i ≠ 0#64 := fun zero => by simp [zero] at one
  rw [mask, BitVec.and_twoPow]
  cases word.getLsbD (i % 64)
  · simp
  · simpa [mask] using nonzero

theorem digit_eq (room : i / 64 < words.size) : digit words i = words[i / 64].getLsbD (i % 64) := by
  simp [digit, room]

/-- A digit of a word, by its index in the row. -/
theorem getLsbD_getElem {k : Nat} (room : k < words.size) (below : j < 64) :
    words[k].getLsbD j = digit words (64 * k + j) := by
  have word : (64 * k + j) / 64 = k := by omega
  have place : (64 * k + j) % 64 = j := by omega
  simp [digit, word, place, room]

theorem eq_of_digit_eq (size : words.size = others.size)
    (digits : ∀ i, digit words i = digit others i) : words = others := by
  refine Array.ext size fun k room room' => BitVec.eq_of_getLsbD_eq fun j below => ?_
  rw [getLsbD_getElem room below, getLsbD_getElem room' below, digits]

@[simp] theorem digit_replicate_zero (count : Nat) : digit (Array.replicate count 0#64) i = false := by
  unfold digit
  rw [Array.getElem?_replicate]
  split <;> simp

theorem digit_set_mask (room : i / 64 < words.size) :
    digit (words.set (i / 64) (words[i / 64] ||| mask i) room) j =
      (digit words j || decide (j = i)) := by
  unfold digit
  rw [Array.getElem?_set]
  by_cases word : i / 64 = j / 64
  · -- within one word two indices are told apart by their digits
    have same : j = i ↔ j % 64 = i % 64 := by omega
    have room' : j / 64 < words.size := word ▸ room
    simp [word, room', getLsbD_mask, same]
  · have other : j ≠ i := fun same => word (same ▸ rfl)
    simp [word, other]

theorem digit_zipWith_or (size : words.size = others.size) :
    digit (Array.zipWith (· ||| ·) words others) i = (digit words i || digit others i) := by
  unfold digit
  rw [Array.getElem?_zipWith]
  by_cases room : i / 64 < words.size
  · simp [room, size ▸ room]
  · simp [room, size ▸ room]

/-- A comparison of words that goes digit by digit, made for all pairs of words of two rows, compares
the rows digit by digit. -/
theorem all_zip_iff (relates : Bool → Bool → Prop) {compare : Word × Word → Bool}
    (blank : relates false false)
    (compares : ∀ pair, compare pair ↔ ∀ j < 64, relates (pair.1.getLsbD j) (pair.2.getLsbD j))
    (size : words.size = others.size) :
    (words.zip others).all compare ↔ ∀ i, relates (digit words i) (digit others i) := by
  rw [Array.all_eq_true]
  simp only [compares, Array.getElem_zip, Array.size_zip]
  constructor
  · intro pairs i
    by_cases room : i / 64 < words.size
    · rw [digit_eq room, digit_eq (size ▸ room)]
      exact pairs (i / 64) (by omega) (i % 64) (Nat.mod_lt _ (by decide))
    · simpa [digit, room, size ▸ room] using blank
  · intro digits k room j below
    rw [getLsbD_getElem (by omega) below, getLsbD_getElem (by omega) below]
    exact digits _

theorem or_eq_left_iff {other : Word} :
    word ||| other = word ↔ ∀ j < 64, other.getLsbD j → word.getLsbD j := by
  constructor
  · intro same j _ more
    rw [← same, BitVec.getLsbD_or, more, Bool.or_true]
  · intro included
    refine BitVec.eq_of_getLsbD_eq fun j below => ?_
    rw [BitVec.getLsbD_or, Bool.or_eq_left_iff_imp]
    exact included j below

theorem and_not_eq_zero_iff {other : Word} :
    other &&& ~~~word = 0#64 ↔ ∀ j < 64, other.getLsbD j → word.getLsbD j := by
  constructor
  · intro zero j below more
    have none := congrArg (BitVec.getLsbD · j) zero
    simpa [BitVec.getLsbD_and, BitVec.getLsbD_not, below, more] using none
  · intro included
    refine BitVec.eq_of_getLsbD_eq fun j below => ?_
    have here := included j below
    cases more : other.getLsbD j <;> simp_all

end Word

end ReachingValues
