import ReachingValues.Dominators.SpanningTree
import ReachingValues.Proofs.Graph.Paths

/-!
The search builds a depth-first tree of the nodes that the entry reaches. Two facts about the
numbers make it one: an edge to a higher number goes to a descendant, and the descendants of a node
are numbered without a gap. Both are kept because the stack holds, from its bottom to its top,
edges that leave the nodes of one way down the tree.
-/

namespace ReachingValues

namespace SpanningTree

variable {α : Type} {g : Graph α} {entry : Node} {s t : SpanningTree}

def numberOf (s : SpanningTree) (n : Node) : Nat := s.number[n]?.getD 0

def parentOf (s : SpanningTree) (n : Node) : Option Node := s.parent[n]?.getD none

/-- The first node lies on the way from the second up to the root, both ends included. -/
inductive Above (s : SpanningTree) : Node → Node → Prop where
  | here {n : Node} : Above s n n
  | up {a p n : Node} : s.parentOf n = some p → Above s a p → Above s a n

namespace Above

variable {a b n p : Node}

theorem trans (upper : s.Above a b) (lower : s.Above b n) : s.Above a n := by
  induction lower with
  | here => exact upper
  | up parent _ ih => exact .up parent ih

theorem parent (above : s.Above a n) (other : a ≠ n) :
    ∃ p, s.parentOf n = some p ∧ s.Above a p := by
  cases above with
  | here => exact absurd rfl other
  | up parent rest => exact ⟨_, parent, rest⟩

/-- The way down from a proper ancestor begins at one of its children. -/
theorem child (above : s.Above a n) (other : a ≠ n) :
    ∃ c, s.parentOf c = some a ∧ s.Above c n := by
  induction above with
  | here => exact absurd rfl other
  | @up p n parent rest ih =>
    by_cases same : a = p
    · subst same
      exact ⟨n, parent, .here⟩
    · obtain ⟨c, below, above⟩ := ih same
      exact ⟨c, below, .up parent above⟩

end Above

/-- What holds of the numbered part of the tree at every moment of the search. -/
structure Genuine (s : SpanningTree) (g : Graph α) (entry : Node) : Prop where
  size_eq : s.number.size = g.nodeCount
  number_iff : ∀ n k, s.numberOf n = k + 1 ↔ s.order[k]? = some n
  first : ∀ n, s.numberOf n = 1 → n = entry
  parent_none : ∀ n, s.numberOf n ≤ 1 → s.parentOf n = none
  parent_some : ∀ n, 1 < s.numberOf n → ∃ p, s.parentOf n = some p ∧ n ∈ g.successors p ∧
    0 < s.numberOf p ∧ s.numberOf p < s.numberOf n
  forward : ∀ u v, v ∈ g.successors u → 0 < s.numberOf u → s.numberOf u < s.numberOf v →
    s.Above u v
  interval : ∀ a v w, s.Above a w → 0 < s.numberOf a → s.numberOf a ≤ s.numberOf v →
    s.numberOf v ≤ s.numberOf w → s.Above a v

namespace Genuine

variable (genuine : s.Genuine g entry) {a b c n p v w : Node}

include genuine

theorem parent_spec (parent : s.parentOf n = some p) :
    n ∈ g.successors p ∧ 0 < s.numberOf p ∧ s.numberOf p < s.numberOf n := by
  by_cases numbered : 1 < s.numberOf n
  · obtain ⟨q, same, rest⟩ := genuine.parent_some n numbered
    obtain rfl := Option.some.inj (parent.symm.trans same)
    exact rest
  · rw [genuine.parent_none n (Nat.not_lt.mp numbered)] at parent
    cases parent

theorem number_le_size (n : Node) : s.numberOf n ≤ s.order.size := by
  cases number : s.numberOf n with
  | zero => exact Nat.zero_le _
  | succ k =>
    obtain ⟨bound, _⟩ := Array.getElem?_eq_some_iff.mp ((genuine.number_iff n k).mp number)
    exact bound

theorem eq_of_number_eq (numbered : 0 < s.numberOf a) (same : s.numberOf a = s.numberOf b) :
    a = b := by
  obtain ⟨k, number⟩ := Nat.exists_eq_succ_of_ne_zero (Nat.pos_iff_ne_zero.mp numbered)
  have atA := (genuine.number_iff a k).mp number
  have atB := (genuine.number_iff b k).mp (same.symm.trans number)
  exact Option.some.inj (atA.symm.trans atB)

theorem lt_nodeCount (numbered : 0 < s.numberOf n) : n < g.nodeCount := by
  rw [← genuine.size_eq]
  by_cases inside : n < s.number.size
  · exact inside
  · simp [numberOf, inside] at numbered

theorem number_getElem {i : Nat} (inside : i < s.order.size) : s.numberOf s.order[i] = i + 1 :=
  (genuine.number_iff _ i).mpr (Array.getElem?_eq_getElem inside)

/-- No node is numbered twice. -/
theorem order_nodup : s.order.toList.Nodup := by
  refine List.pairwise_iff_getElem.mpr fun i j left right less same => ?_
  have first := genuine.number_getElem (i := i) (by simpa using left)
  have second := genuine.number_getElem (i := j) (by simpa using right)
  simp only [Array.getElem_toList] at same
  rw [same, second] at first
  omega

theorem order_size_le : s.order.size ≤ g.nodeCount := by
  have within : s.order.toList ⊆ List.range g.nodeCount := by
    intro n member
    obtain ⟨i, inside, rfl⟩ := List.mem_iff_getElem.mp member
    have number := genuine.number_getElem (i := i) (by simpa using inside)
    exact List.mem_range.mpr (genuine.lt_nodeCount (by
      rw [Array.getElem_toList, number]
      exact Nat.succ_pos i))
  simpa using genuine.order_nodup.length_le_of_subset within

theorem number_le (above : s.Above a n) : s.numberOf a ≤ s.numberOf n := by
  induction above with
  | here => exact Nat.le_refl _
  | up parent _ ih => exact Nat.le_trans ih (Nat.le_of_lt (genuine.parent_spec parent).2.2)

theorem numbered_of_above (above : s.Above a n) (numbered : 0 < s.numberOf n) :
    0 < s.numberOf a := by
  induction above with
  | here => exact numbered
  | up parent _ ih => exact ih (genuine.parent_spec parent).2.1

theorem eq_of_above (above : s.Above a n) (numbered : 0 < s.numberOf n)
    (back : s.numberOf n ≤ s.numberOf a) : a = n :=
  genuine.eq_of_number_eq (genuine.numbered_of_above above numbered)
    (Nat.le_antisymm (genuine.number_le above) back)

theorem number_lt (above : s.Above a n) (numbered : 0 < s.numberOf n) (other : a ≠ n) :
    s.numberOf a < s.numberOf n :=
  Nat.lt_of_not_le fun back => other (genuine.eq_of_above above numbered back)

/-- Of two ancestors of a node the one with the lower number is above the other. -/
theorem above_of_le (one : s.Above a n) (other : s.Above b n) (numbered : 0 < s.numberOf n)
    (le : s.numberOf a ≤ s.numberOf b) : s.Above a b :=
  genuine.interval a b n one (genuine.numbered_of_above one numbered) le (genuine.number_le other)

theorem reaches (numbered : 0 < s.numberOf n) : g.Reaches entry n := by
  induction size : s.numberOf n using Nat.strongRecOn generalizing n with
  | ind size ih =>
    subst size
    by_cases root : s.numberOf n ≤ 1
    · have same := genuine.first n (by omega)
      subst same
      exact .refl (Graph.contains_iff.mpr (genuine.lt_nodeCount numbered))
    · obtain ⟨p, _, edge, parentNumbered, lower⟩ := genuine.parent_some n (by omega)
      exact (ih _ lower parentNumbered rfl).step edge

/-- The way down the tree is a path of the graph. -/
theorem path (above : s.Above a n) (numbered : 0 < s.numberOf n) :
    ∃ visited, g.Path a visited n ∧ ∀ x ∈ visited, s.Above a x ∧ s.Above x n := by
  induction above with
  | here =>
    refine ⟨[a], .here (Graph.contains_iff.mpr (genuine.lt_nodeCount numbered)), fun x member => ?_⟩
    obtain rfl := List.mem_singleton.mp member
    exact ⟨.here, .here⟩
  | @up p n parent rest ih =>
    obtain ⟨edge, parentNumbered, _⟩ := genuine.parent_spec parent
    obtain ⟨visited, path, between⟩ := ih parentNumbered
    refine ⟨visited ++ [n], path.concat edge, fun x member => ?_⟩
    rcases List.mem_append.mp member with earlier | last
    · exact ⟨(between x earlier).1, .up parent (between x earlier).2⟩
    · obtain rfl := List.mem_singleton.mp last
      exact ⟨.up parent rest, .here⟩

end Genuine

section Growth

variable {above : Option Node} {a b m n p u : Node} {inside : n < s.number.size}

@[simp] theorem numberOf_place :
    (s.place above n inside).numberOf m = if m = n then s.order.size + 1 else s.numberOf m := by
  by_cases same : m = n
  · subst same; simp [numberOf, place, inside]
  · simp [numberOf, place, same, Ne.symm same]

@[simp] theorem parentOf_place :
    (s.place above n inside).parentOf m = if m = n then above else s.parentOf m := by
  have room : n < s.parent.size := by rw [s.parent_size]; exact inside
  by_cases same : m = n
  · subst same; simp [parentOf, place, room]
  · simp [parentOf, place, same, Ne.symm same]

theorem Genuine.above_place_iff (genuine : s.Genuine g entry) (unnumbered : s.numberOf n = 0)
    (numbered : 0 < s.numberOf b) : (s.place above n inside).Above a b ↔ s.Above a b := by
  constructor
  · intro higher
    induction higher with
    | here => exact .here
    | @up p b parent rest ih =>
      have other : b ≠ n := by rintro rfl; omega
      rw [parentOf_place, if_neg other] at parent
      exact .up parent (ih (genuine.parent_spec parent).2.1)
  · intro higher
    induction higher with
    | here => exact .here
    | @up p b parent rest ih =>
      have other : b ≠ n := by rintro rfl; omega
      have same : (s.place above n inside).parentOf b = some p := by
        rw [parentOf_place, if_neg other]; exact parent
      exact .up same (ih (genuine.parent_spec parent).2.1)

theorem Genuine.above_placed_iff (genuine : s.Genuine g entry) (unnumbered : s.numberOf n = 0)
    (numbered : 0 < s.numberOf p) :
    (s.place (some p) n inside).Above a n ↔ a = n ∨ s.Above a p := by
  constructor
  · intro higher
    by_cases same : a = n
    · exact Or.inl same
    · obtain ⟨q, parent, rest⟩ := higher.parent same
      rw [parentOf_place, if_pos rfl] at parent
      obtain rfl := Option.some.inj parent
      exact Or.inr ((genuine.above_place_iff unnumbered numbered).mp rest)
  · rintro (rfl | higher)
    · exact .here
    · refine .up (p := p) ?_ ((genuine.above_place_iff unnumbered numbered).mpr higher)
      rw [parentOf_place, if_pos rfl]

/-- All that was numbered since `n` lies below `n`. -/
def IsOpen (s : SpanningTree) (n : Node) : Prop := ∀ m, s.numberOf n ≤ s.numberOf m → s.Above n m

section Place

variable (genuine : s.Genuine g entry) (unnumbered : s.numberOf n = 0) (numbered : 0 < s.numberOf p)

include genuine unnumbered

theorem Genuine.number_iff_place (m k : Nat) :
    (s.place above n inside).numberOf m = k + 1 ↔ (s.place above n inside).order[k]? = some m := by
  have before := genuine.number_iff m k
  have bound := genuine.number_le_size m
  have order : (s.place above n inside).order = s.order.push n := rfl
  rw [numberOf_place, order, Array.getElem?_push]
  by_cases last : k = s.order.size
  · subst last
    by_cases same : m = n
    · simp [same]
    · simp only [same, if_true, if_false, Option.some.injEq]
      exact ⟨fun number => by omega, fun number => absurd number.symm same⟩
  · rw [if_neg last, ← before]
    by_cases same : m = n
    · subst same
      rw [if_pos rfl, unnumbered]
      omega
    · rw [if_neg same]

include numbered

theorem Genuine.forward_place (sources : ∀ u, n ∈ g.successors u → 0 < s.numberOf u → s.Above u p)
    {v : Node} (edge : v ∈ g.successors u)
    (source : 0 < (s.place (some p) n inside).numberOf u)
    (less : (s.place (some p) n inside).numberOf u < (s.place (some p) n inside).numberOf v) :
    (s.place (some p) n inside).Above u v := by
  have bound := genuine.number_le_size v
  rw [numberOf_place] at source less
  rw [numberOf_place] at less
  by_cases last : u = n
  · rw [if_pos last] at less
    split at less <;> omega
  · rw [if_neg last] at source less
    by_cases newest : v = n
    · subst newest
      exact (genuine.above_placed_iff unnumbered numbered).mpr (Or.inr (sources u edge source))
    · rw [if_neg newest] at less
      exact (genuine.above_place_iff unnumbered (by omega)).mpr
        (genuine.forward u v edge source less)

theorem Genuine.interval_place (opened : s.IsOpen p) {v w : Node}
    (higher : (s.place (some p) n inside).Above a w)
    (ancestor : 0 < (s.place (some p) n inside).numberOf a)
    (lower : (s.place (some p) n inside).numberOf a ≤ (s.place (some p) n inside).numberOf v)
    (upper : (s.place (some p) n inside).numberOf v ≤ (s.place (some p) n inside).numberOf w) :
    (s.place (some p) n inside).Above a v := by
  have boundA := genuine.number_le_size a
  have boundV := genuine.number_le_size v
  have boundW := genuine.number_le_size w
  simp only [numberOf_place] at ancestor lower upper
  by_cases newest : v = n
  · by_cases last : w = n
    · rw [newest.trans last.symm]
      exact higher
    · rw [if_pos newest, if_neg last] at upper
      omega
  by_cases same : a = n
  · rw [if_pos same, if_neg newest] at lower
    omega
  rw [if_neg newest] at lower upper
  rw [if_neg same] at ancestor lower
  refine (genuine.above_place_iff unnumbered (by omega)).mpr ?_
  by_cases last : w = n
  · subst last
    have higher := ((genuine.above_placed_iff unnumbered numbered).mp higher).resolve_left same
    by_cases since : s.numberOf p ≤ s.numberOf v
    · exact higher.trans (opened v since)
    · exact genuine.interval a v p higher ancestor lower (by omega)
  · rw [if_neg last] at upper
    have higher := (genuine.above_place_iff unnumbered (by omega)).mp higher
    exact genuine.interval a v w higher ancestor lower upper

/-- A node may be hung below an open node when all its numbered predecessors are above that one. -/
theorem Genuine.place (inside : n < s.number.size) (edge : n ∈ g.successors p)
    (opened : s.IsOpen p)
    (sources : ∀ u, n ∈ g.successors u → 0 < s.numberOf u → s.Above u p) :
    (s.place (some p) n inside).Genuine g entry := by
  have other : p ≠ n := by rintro rfl; omega
  have bound := genuine.number_le_size p
  constructor
  · simp only [SpanningTree.place, Array.size_set, genuine.size_eq]
  · exact genuine.number_iff_place unnumbered
  · intro m one
    rw [numberOf_place] at one
    split at one
    · omega
    · exact genuine.first m one
  · intro m small
    rw [numberOf_place] at small
    rw [parentOf_place]
    split at small
    · omega
    · exact if_neg ‹_› ▸ genuine.parent_none m small
  · intro m big
    by_cases same : m = n
    · subst same
      refine ⟨p, by rw [parentOf_place, if_pos rfl], edge, ?_, ?_⟩
      · rwa [numberOf_place, if_neg other]
      · rw [numberOf_place, if_neg other, numberOf_place, if_pos rfl]
        omega
    · rw [numberOf_place, if_neg same] at big ⊢
      obtain ⟨q, parent, source, sourceNumbered, lower⟩ := genuine.parent_some m big
      have old : q ≠ n := by rintro rfl; omega
      refine ⟨q, by rwa [parentOf_place, if_neg same], source, ?_, ?_⟩
      · rwa [numberOf_place, if_neg old]
      · rwa [numberOf_place, if_neg old]
  · exact fun u v => genuine.forward_place unnumbered numbered sources
  · exact fun a v w => genuine.interval_place unnumbered numbered opened

end Place

theorem Genuine.isOpen_placed (genuine : s.Genuine g entry) :
    (s.place above n inside).IsOpen n := by
  intro m since
  rw [numberOf_place, if_pos rfl, numberOf_place] at since
  split at since
  · rename_i same
    rw [same]
    exact .here
  · have bound := genuine.number_le_size m
    omega

/-- Nodes above the place where a new one is hung stay open. -/
theorem Genuine.isOpen_place (genuine : s.Genuine g entry) (unnumbered : s.numberOf n = 0)
    (numbered : 0 < s.numberOf p) (ancestor : 0 < s.numberOf a) (higher : s.Above a p)
    (opened : s.IsOpen a) : (s.place (some p) n inside).IsOpen a := by
  intro m since
  have other : a ≠ n := by rintro rfl; omega
  rw [numberOf_place, if_neg other, numberOf_place] at since
  by_cases same : m = n
  · subst same
    exact (genuine.above_placed_iff unnumbered numbered).mpr (Or.inr higher)
  · rw [if_neg same] at since
    exact (genuine.above_place_iff unnumbered (by omega)).mpr (opened m since)

end Growth

/-- The state of the search once the entry is placed. Every edge that leaves the numbered part
waits on the stack, and the nodes from which those edges leave are open. -/
structure Searching (s : SpanningTree) (g : Graph α) (entry : Node)
    (stack : List (Option Node × Node)) : Prop where
  genuine : s.Genuine g entry
  started : 0 < s.numberOf entry
  waiting : ∀ above n, (above, n) ∈ stack →
    ∃ p, above = some p ∧ 0 < s.numberOf p ∧ n ∈ g.successors p ∧ s.IsOpen p
  sorted : stack.Pairwise fun upper lower => ∀ p q, upper.1 = some p → lower.1 = some q →
    s.numberOf q ≤ s.numberOf p
  kept : ∀ u v, v ∈ g.successors u → 0 < s.numberOf u → 0 < s.numberOf v ∨ (some u, v) ∈ stack

namespace Searching

variable {above : Option Node} {n : Node} {rest : List (Option Node × Node)}
  (searching : s.Searching g entry ((above, n) :: rest))

include searching

theorem inside : n < s.number.size := by
  obtain ⟨p, _, _, edge, _⟩ := searching.waiting above n List.mem_cons_self
  rw [searching.genuine.size_eq]
  exact (Graph.lt_nodeCount_of_mem_successors edge).2

theorem skip (numbered : 0 < s.numberOf n) : s.Searching g entry rest where
  genuine := searching.genuine
  started := searching.started
  waiting above n member := searching.waiting above n (List.mem_cons_of_mem _ member)
  sorted := (List.pairwise_cons.mp searching.sorted).2
  kept u v edge source := by
    rcases searching.kept u v edge source with target | member
    · exact Or.inl target
    · rcases List.mem_cons.mp member with same | later
      · cases same
        exact Or.inl numbered
      · exact Or.inr later

/-- Whoever put an edge on the stack earlier stands above whoever did so later. -/
theorem pushers {p q m : Node} (top : above = some p) (member : (some q, m) ∈ rest) :
    0 < s.numberOf q ∧ s.Above q p ∧ s.IsOpen q := by
  obtain ⟨q', same, earlier, _, opened⟩ :=
    searching.waiting (some q) m (List.mem_cons_of_mem _ member)
  obtain rfl := Option.some.inj same
  have le := (List.pairwise_cons.mp searching.sorted).1 _ member p q top rfl
  exact ⟨earlier, opened p le, opened⟩

theorem sources {p u : Node} (top : above = some p) (unnumbered : s.numberOf n = 0)
    (edge : n ∈ g.successors u) (numbered : 0 < s.numberOf u) : s.Above u p := by
  rcases searching.kept u n edge numbered with target | member
  · omega
  · rcases List.mem_cons.mp member with same | later
    · cases same
      obtain rfl := Option.some.inj top
      exact .here
    · exact (searching.pushers top later).2.1

theorem sorted_place (inside : n < s.number.size) (unnumbered : s.numberOf n = 0) :
    (((g.successors n).map (some n, ·)).reverse ++ rest).Pairwise fun upper lower =>
      ∀ p q, upper.1 = some p → lower.1 = some q →
        (s.place above n inside).numberOf q ≤ (s.place above n inside).numberOf p := by
  obtain ⟨p, top, _, _, _⟩ := searching.waiting above n List.mem_cons_self
  have old : ∀ q m, (some q, m) ∈ rest →
      (s.place above n inside).numberOf q = s.numberOf q := by
    intro q m member
    have positive := (searching.pushers top member).1
    rw [numberOf_place, if_neg (by rintro rfl; omega)]
  refine List.pairwise_append.mpr ⟨?_, ?_, ?_⟩
  · refine List.pairwise_of_forall_mem_list fun x first y second p q atX atY => ?_
    obtain ⟨_, _, rfl⟩ := List.mem_map.mp (List.mem_reverse.mp first)
    obtain ⟨_, _, rfl⟩ := List.mem_map.mp (List.mem_reverse.mp second)
    cases atX
    cases atY
    exact Nat.le_refl _
  · refine (List.pairwise_cons.mp searching.sorted).2.imp_of_mem ?_
    rintro ⟨_, m⟩ ⟨_, k⟩ first second order p q rfl rfl
    rw [old p m first, old q k second]
    exact order p q rfl rfl
  · rintro x first ⟨_, k⟩ second p q atX rfl
    obtain ⟨_, _, rfl⟩ := List.mem_map.mp (List.mem_reverse.mp first)
    cases atX
    have bound := searching.genuine.number_le_size q
    rw [old q k second, numberOf_place, if_pos rfl]
    omega

theorem kept_place (inside : n < s.number.size) {u v : Node} (edge : v ∈ g.successors u)
    (source : 0 < (s.place above n inside).numberOf u) :
    0 < (s.place above n inside).numberOf v ∨
      (some u, v) ∈ ((g.successors n).map (some n, ·)).reverse ++ rest := by
  rw [numberOf_place] at source ⊢
  by_cases new : u = n
  · subst new
    have pushed : (some u, v) ∈ ((g.successors u).map (some u, ·)).reverse :=
      List.mem_reverse.mpr (List.mem_map_of_mem edge)
    exact Or.inr (List.mem_append_left _ pushed)
  · rw [if_neg new] at source
    by_cases same : v = n
    · rw [if_pos same]
      exact Or.inl (Nat.succ_pos _)
    · rw [if_neg same]
      refine (searching.kept u v edge source).imp id fun member => ?_
      rcases List.mem_cons.mp member with equal | later
      · exact absurd (congrArg Prod.snd equal) same
      · exact List.mem_append_right _ later

theorem place (inside : n < s.number.size) (unnumbered : s.numberOf n = 0) :
    (s.place above n inside).Searching g entry
      (((g.successors n).map (some n, ·)).reverse ++ rest) := by
  obtain ⟨p, top, numbered, edge, opened⟩ := searching.waiting above n List.mem_cons_self
  have genuine := searching.genuine
  constructor
  · subst top
    exact genuine.place unnumbered numbered inside edge opened
      fun u => searching.sources rfl unnumbered
  · rw [numberOf_place]
    split
    · exact Nat.succ_pos _
    · exact searching.started
  · intro source m member
    rcases List.mem_append.mp member with new | before
    · obtain ⟨m', target, same⟩ := List.mem_map.mp (List.mem_reverse.mp new)
      cases same
      refine ⟨n, rfl, ?_, target, genuine.isOpen_placed⟩
      rw [numberOf_place, if_pos rfl]
      exact Nat.succ_pos _
    · obtain ⟨q, rfl, earlier, target, _⟩ :=
        searching.waiting source m (List.mem_cons_of_mem _ before)
      obtain ⟨_, higher, openedEarlier⟩ := searching.pushers top before
      subst top
      refine ⟨q, rfl, ?_, target,
        genuine.isOpen_place unnumbered numbered earlier higher openedEarlier⟩
      rw [numberOf_place, if_neg (by rintro rfl; omega)]
      exact earlier
  · exact searching.sorted_place inside unnumbered
  · exact fun u v => searching.kept_place inside

end Searching

/-- The finished tree: it holds exactly what the entry reaches. -/
structure Spans (t : SpanningTree) (g : Graph α) (entry : Node) : Prop extends
    t.Genuine g entry where
  numbered_iff : ∀ n, 0 < t.numberOf n ↔ g.Reaches entry n

theorem Searching.spans (searching : s.Searching g entry []) : s.Spans g entry where
  toGenuine := searching.genuine
  numbered_iff n := by
    have closed : ∀ u v, 0 < s.numberOf u → v ∈ g.successors u → 0 < s.numberOf v :=
      fun u v numbered edge =>
        (searching.kept u v edge numbered).resolve_right List.not_mem_nil
    exact ⟨searching.genuine.reaches, fun reach => reach.induct closed searching.started⟩

theorem Searching.explore {stack : List (Option Node × Node)}
    (searching : s.Searching g entry stack) : ∃ t, explore g s stack = .ok t ∧ t.Spans g entry := by
  induction s, stack using explore.induct g with
  | case1 s =>
    exact ⟨s, by rw [SpanningTree.explore], searching.spans⟩
  | case2 s above n rest inside unnumbered ih =>
    have fresh : s.numberOf n = 0 := by simp [numberOf, inside, unnumbered]
    obtain ⟨t, run, spans⟩ := ih (searching.place inside fresh)
    refine ⟨t, ?_, spans⟩
    rw [SpanningTree.explore, dif_pos inside, dif_pos unnumbered]
    exact run
  | case3 s above n rest inside numbered ih =>
    have old : 0 < s.numberOf n := by
      simp only [numberOf, inside, getElem?_pos, Option.getD_some]
      omega
    obtain ⟨t, run, spans⟩ := ih (searching.skip old)
    refine ⟨t, ?_, spans⟩
    rw [SpanningTree.explore, dif_pos inside, dif_neg numbered]
    exact run
  | case4 s above n rest outside =>
    exact absurd searching.inside outside

@[simp] theorem numberOf_unexplored (nodeCount : Nat) (n : Node) :
    (unexplored nodeCount).numberOf n = 0 := by
  simp only [numberOf, unexplored, Array.getElem?_replicate]
  split <;> rfl

@[simp] theorem parentOf_unexplored (nodeCount : Nat) (n : Node) :
    (unexplored nodeCount).parentOf n = none := by
  simp only [parentOf, unexplored, Array.getElem?_replicate]
  split <;> rfl

theorem genuine_unexplored (g : Graph α) (entry : Node) :
    (unexplored g.nodeCount).Genuine g entry where
  size_eq := by simp [unexplored]
  number_iff n k := by
    have order : (unexplored g.nodeCount).order = #[] := rfl
    simp [order]
  first n one := by simp at one
  parent_none n _ := parentOf_unexplored _ n
  parent_some n more := by simp at more
  forward u v _ source _ := by simp at source
  interval a v w _ ancestor _ _ := by simp at ancestor

section Root

variable (inside : entry < (unexplored g.nodeCount).number.size)

theorem numberOf_root (n : Node) :
    ((unexplored g.nodeCount).place none entry inside).numberOf n = if n = entry then 1 else 0 := by
  rw [numberOf_place, numberOf_unexplored]
  rfl

theorem genuine_root : ((unexplored g.nodeCount).place none entry inside).Genuine g entry := by
  have atMost : ∀ n, ((unexplored g.nodeCount).place none entry inside).numberOf n ≤ 1 := by
    intro n
    rw [numberOf_root]
    split <;> omega
  have root : ∀ n, 0 < ((unexplored g.nodeCount).place none entry inside).numberOf n → n = entry :=
    fun n numbered => by
      rw [numberOf_root] at numbered
      exact Decidable.by_contra fun other => by simp [other] at numbered
  constructor
  · simp [place, unexplored]
  · exact (genuine_unexplored g entry).number_iff_place (numberOf_unexplored _ _)
  · exact fun n one => root n (by omega)
  · intro n _
    rw [parentOf_place, parentOf_unexplored, ite_self]
  · intro n more
    have bound := atMost n
    omega
  · intro u v _ numbered less
    have bound := atMost v
    omega
  · intro a v w _ numbered lower _
    rw [root a numbered, root v (by omega)]
    exact .here

theorem searching_root :
    ((unexplored g.nodeCount).place none entry inside).Searching g entry
      ((g.successors entry).map (some entry, ·)).reverse := by
  have positive : 0 < ((unexplored g.nodeCount).place none entry inside).numberOf entry := by
    rw [numberOf_root, if_pos rfl]
    exact Nat.one_pos
  constructor
  · exact genuine_root inside
  · exact positive
  · intro above n member
    obtain ⟨m, target, same⟩ := List.mem_map.mp (List.mem_reverse.mp member)
    cases same
    exact ⟨entry, rfl, positive, target, (genuine_unexplored g entry).isOpen_placed⟩
  · refine List.pairwise_of_forall_mem_list fun x first y second p q atX atY => ?_
    obtain ⟨_, _, rfl⟩ := List.mem_map.mp (List.mem_reverse.mp first)
    obtain ⟨_, _, rfl⟩ := List.mem_map.mp (List.mem_reverse.mp second)
    cases atX
    cases atY
    exact Nat.le_refl _
  · intro u v edge source
    rw [numberOf_root] at source
    by_cases same : u = entry
    · subst same
      exact Or.inr (List.mem_reverse.mpr (List.mem_map_of_mem edge))
    · simp [same] at source

end Root

/-- The search never leaves the graph and ends with the tree of all nodes that the entry reaches. -/
theorem ofGraph_spans (inside : g.contains entry) :
    ∃ t, ofGraph g entry = .ok t ∧ t.Spans g entry := by
  have room : entry < (unexplored g.nodeCount).number.size := by
    simpa [unexplored] using Graph.contains_iff.mp inside
  obtain ⟨t, run, spans⟩ := (searching_root room).explore
  refine ⟨t, ?_, spans⟩
  rw [ofGraph, SpanningTree.explore, dif_pos room, dif_pos (by simp [unexplored]), List.append_nil]
  exact run

end SpanningTree

end ReachingValues
