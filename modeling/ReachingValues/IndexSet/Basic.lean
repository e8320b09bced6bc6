import ReachingValues.Fault
import ReachingValues.Handle
import ReachingValues.IndexSet.Words

/-!
A set of indices below a fixed capacity, kept as a row of words with one digit for each index. Sets
only grow: there is insertion, union and inclusion, and both growing operations tell whether they
changed anything. Two sets are combined only when their capacities agree, and two equal sets have
equal capacities.
-/

namespace ReachingValues

/-- Index `i` is a member when digit `i` of the row is one. As no such digit stands at or above the
capacity, not even in the last word, equal sets of one capacity are equal rows. -/
structure IndexSet where
  capacity : Nat
  words : Array Word
  size_eq : words.size = Word.countFor capacity
  lt_capacity : ∀ i, Word.digit words i → i < capacity
  deriving DecidableEq

/-- The values that an analysis collects, as a set over the value handles of one program. -/
abbrev ValueSet := IndexSet

namespace IndexSet

/-- A set after a growing operation, and whether it gained a member. -/
structure Growth where
  set : IndexSet
  changed : Bool

def empty (capacity : Nat) : IndexSet where
  capacity := capacity
  words := Array.replicate (Word.countFor capacity) 0#64
  size_eq := Array.size_replicate
  lt_capacity i member := by simp at member

theorem div_lt_size (s : IndexSet) {i : Nat} (inside : i < s.capacity) : i / 64 < s.words.size :=
  s.size_eq ▸ Word.div_lt_countFor inside

/-- Indices at or beyond the capacity are never members. -/
def contains (s : IndexSet) (i : Nat) : Bool :=
  if inside : i < s.capacity then
    have room := s.div_lt_size inside
    s.words[i / 64] &&& Word.mask i != 0#64
  else false

/-- The set with an index below the capacity. -/
def withIndex (s : IndexSet) (i : Nat) (inside : i < s.capacity) : IndexSet :=
  have room := s.div_lt_size inside
  { capacity := s.capacity
    words := s.words.set (i / 64) (s.words[i / 64] ||| Word.mask i) room
    size_eq := (Array.size_set room).trans s.size_eq
    lt_capacity := fun j member => by
      have old := s.lt_capacity j
      rw [Word.digit_set_mask] at member
      grind }

theorem size_eq_of_capacity_eq {s t : IndexSet} (same : t.capacity = s.capacity) :
    s.words.size = t.words.size := by
  rw [s.size_eq, t.size_eq, same]

/-- The set with all members of one of the same capacity. -/
def withAll (s t : IndexSet) (same : t.capacity = s.capacity) : IndexSet where
  capacity := s.capacity
  words := Array.zipWith (· ||| ·) s.words t.words
  size_eq := by simp [← size_eq_of_capacity_eq same, s.size_eq]
  lt_capacity j member := by
    have left := s.lt_capacity j
    have right := t.lt_capacity j
    rw [Word.digit_zipWith_or (size_eq_of_capacity_eq same)] at member
    grind

/-- Adds an index, which has to be below the capacity. -/
def insert (s : IndexSet) (i : Nat) : Except Fault Growth :=
  if inside : i < s.capacity then .ok ⟨s.withIndex i inside, !s.contains i⟩
  else .error (.indexOutOfRange i s.capacity)

/-- Adds every member of `t`, which has to have the same capacity. -/
def union (s t : IndexSet) : Except Fault Growth :=
  if same : t.capacity = s.capacity then
    .ok ⟨s.withAll t same, (s.words.zip t.words).any fun (old, more) => old ||| more != old⟩
  else .error (.universeMismatch s.capacity t.capacity)

/-- Whether every member of `t`, which has to have the same capacity, is in `s`. -/
def isSuperset (s t : IndexSet) : Except Fault Bool :=
  if t.capacity = s.capacity then
    .ok ((s.words.zip t.words).all fun (upper, lower) => lower &&& ~~~upper == 0#64)
  else .error (.universeMismatch s.capacity t.capacity)

def isEmpty (s : IndexSet) : Bool := s.words.all (· == 0#64)

/-- The number of members. -/
def count (s : IndexSet) : Nat :=
  s.words.foldl (fun total word => total + word.cpop.toNat) 0

/-- Where an enumeration of the members stands: at a digit of a word. -/
structure Cursor where
  word : Nat
  digit : Nat
  deriving DecidableEq

/-- The first member at or after the cursor, and where to go on after it. What is left of a word is
given up once its remaining digits are all zero. -/
def next (s : IndexSet) (c : Cursor) : Option (Nat × Cursor) :=
  if room : c.word < s.words.size then
    let remaining := s.words[c.word] >>> c.digit
    if remaining = 0#64 then s.next ⟨c.word + 1, 0⟩
    else
      let offset := remaining.ctz.toNat
      let digit := c.digit + offset + 1
      some (c.word * 64 + c.digit + offset,
        if 64 ≤ digit then ⟨c.word + 1, 0⟩ else ⟨c.word, digit⟩)
  else none
termination_by s.words.size - c.word

/-- How far a cursor can still move. A word counts for more than its digits, so going on to the next
word is a step forward from every digit. -/
def Cursor.distance (s : IndexSet) (c : Cursor) : Nat :=
  65 * (s.words.size - c.word) + (64 - c.digit)

theorem distance_of_next {s : IndexSet} {c later : Cursor} {i : Nat}
    (found : s.next c = some (i, later)) : later.distance s < c.distance s := by
  induction c using next.induct s with
  | case1 c room remaining zero ih =>
    rw [next, dif_pos room, if_pos zero] at found
    have onward := ih found
    simp only [Cursor.distance] at onward ⊢
    omega
  | case2 c room remaining nonzero =>
    rw [next, dif_pos room, if_neg nonzero] at found
    obtain ⟨_, rfl⟩ := Prod.mk.inj (Option.some.inj found)
    simp only [Cursor.distance]
    split <;> simp only <;> omega
  | case3 c outside =>
    rw [next, dif_neg outside] at found
    cases found

/-- The members from a cursor on, in the order in which they are found. -/
def listFrom (s : IndexSet) (c : Cursor) : List Nat :=
  match _found : s.next c with
  | none => []
  | some (i, later) => i :: s.listFrom later
termination_by c.distance s
decreasing_by exact distance_of_next _found

/-- The members in ascending order. -/
def toList (s : IndexSet) : List Nat := s.listFrom ⟨0, 0⟩

/-- The members in ascending order between braces, each written by `member`. -/
def render (s : IndexSet) (member : Nat → String) : String :=
  "\x7b" ++ String.intercalate ", " (s.toList.map member) ++ "\x7d"

/-- The set of the listed indices, inserted from left to right. -/
def ofList (capacity : Nat) (indices : List Nat) : Except Fault IndexSet :=
  indices.foldlM (fun s i => do return (← s.insert i).set) (empty capacity)

end IndexSet

end ReachingValues
