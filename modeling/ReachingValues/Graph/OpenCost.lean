import ReachingValues.Handle

/-!
The measure by which searches with a list of pending nodes end. A search that tests a node when it
is taken from the list may hold a node many times, so the list alone does not shrink. Counting one
for every open node and one for every link that its closing will add, the closing of a node pays
for the links it puts on the list.
-/

namespace ReachingValues

/-- What the closing of the open nodes among `nodes` can still add to a list of pending nodes, and
one for each closing. -/
def openCost (isOpen : Node → Bool) (links : Node → Nat) (nodes : List Node) : Nat :=
  (nodes.filter isOpen).foldr (fun n cost => links n + 1 + cost) 0

variable {isOpen later : Node → Bool} {links : Node → Nat} {nodes : List Node}

theorem openCost_cons (n : Node) :
    openCost isOpen links (n :: nodes) =
      (if isOpen n then links n + 1 else 0) + openCost isOpen links nodes := by
  by_cases h : isOpen n <;> simp [openCost, h]

/-- Closing nodes never adds work. -/
theorem openCost_le (closing : ∀ m, later m → isOpen m) :
    openCost later links nodes ≤ openCost isOpen links nodes := by
  induction nodes with
  | nil => exact Nat.le_refl _
  | cons m rest ih =>
    rw [openCost_cons, openCost_cons]
    by_cases after : later m
    · simp only [after, closing m after, if_true]; omega
    · simp only [after, Bool.false_eq_true, if_false]; omega

/-- Closing a node frees the work that its links may cost, and one more. -/
theorem openCost_close {n : Node} (member : n ∈ nodes) (before : isOpen n) (after : later n = false)
    (closing : ∀ m, later m → isOpen m) :
    openCost later links nodes + links n + 1 ≤ openCost isOpen links nodes := by
  induction nodes with
  | nil => simp at member
  | cons m rest ih =>
    rw [openCost_cons, openCost_cons]
    rcases List.mem_cons.mp member with rfl | inRest
    · have tail : openCost later links rest ≤ openCost isOpen links rest := openCost_le closing
      simp only [before, after, Bool.false_eq_true, if_true, if_false]; omega
    · have tail := ih inRest
      by_cases still : later m
      · simp only [still, closing m still, if_true]; omega
      · simp only [still, Bool.false_eq_true, if_false]; omega

end ReachingValues
