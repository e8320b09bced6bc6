import ReachingValues.Fault
import ReachingValues.Handle

/-!
Tables of marks, one for each of the first nodes. A search keeps such a table to know where it has
been; as long as the table is that of a predicate, asking for a mark asks the predicate.
-/

namespace ReachingValues

/-- A table with a mark for each of the first nodes. -/
def marksOf (size : Nat) (holds : Node → Bool) : Array Bool := Array.ofFn fun n : Fin size => holds n

/-- The marks of all nodes but those that are missing. -/
def marksWithout (size : Nat) (missing : List Node) : Array Bool :=
  marksOf size fun n => !missing.contains n

variable {size : Nat} {holds other : Node → Bool} {missing : List Node} {n : Node}

theorem replicate_false_eq : Array.replicate size false = marksOf size fun _ => false :=
  Array.ext (by simp [marksOf]) (by simp [marksOf])

theorem fetch_marksOf (inside : n < size) : fetch (marksOf size holds) n = .ok (holds n) := by
  have room : n < (marksOf size holds).size := by simpa [marksOf] using inside
  rw [fetch_of_lt room]
  simp [marksOf]

theorem store_marksOf (inside : n < size) :
    store (marksOf size holds) n true = .ok (marksOf size fun m => m == n || holds m) := by
  have room : n < (marksOf size holds).size := by simpa [marksOf] using inside
  rw [store_of_lt true room]
  refine congrArg Except.ok (Array.ext (by simp [marksOf]) fun i below _ => ?_)
  simp only [marksOf, Array.getElem_set, Array.getElem_ofFn]
  by_cases same : n = i
  · simp [same]
  · simp [same, Ne.symm same]

theorem marksOf_congr (agree : ∀ n < size, holds n = other n) :
    marksOf size holds = marksOf size other :=
  congrArg Array.ofFn (funext fun n => agree n n.2)

theorem fetch_marksWithout (inside : n < size) :
    fetch (marksWithout size missing) n = .ok (!missing.contains n) :=
  fetch_marksOf inside

theorem store_marksWithout (distinct : missing.Nodup) (inside : n < size) :
    store (marksWithout size missing) n true = .ok (marksWithout size (missing.erase n)) := by
  rw [marksWithout, store_marksOf inside]
  refine congrArg Except.ok (marksOf_congr fun m _ => ?_)
  by_cases same : m = n
  · simp [same, distinct.mem_erase_iff]
  · simp [same, distinct.mem_erase_iff]

/-- The table in which the first mark is made. -/
theorem store_replicate_false (inside : n < size) :
    store (Array.replicate size false) n true =
      .ok (marksWithout size ((List.range size).erase n)) := by
  rw [replicate_false_eq, store_marksOf inside]
  refine congrArg Except.ok (marksOf_congr fun m below => ?_)
  by_cases same : m = n
  · simp [same, List.nodup_range.mem_erase_iff]
  · simp [same, List.nodup_range.mem_erase_iff, below]

end ReachingValues
