import ReachingValues.Proofs.Analysis.Propagation

/-!
The walk and the flow of values as one loop over tables. One table holds the sets and another one
the marks of the visited nodes, and both grow for the handles that come up. A node joins the waiting
ones when it has been given a set, and the marks have room for whatever the sets have room for. So
making a mark never fails, and the loop does what the visits along the finished walk do, also when
one of them fails.
-/

namespace ReachingValues

namespace Definitions

variable {d : Definitions} {tree : TreeView} {seed : ValueSet} {order : Order} {room capacity : Nat}
  {t : ReachTable} {marks : Array Bool} {n : Node} {visited waiting rest : List Node}

/-- The number of places that there can be for marks, which take a byte each. -/
def markRoom (d : Definitions) : Nat := max (UInt64.size / 2 - 1) d.blockCount

theorem room_le_markRoom (d : Definitions) : d.room ≤ d.markRoom :=
  Nat.max_le.mpr ⟨Nat.le_trans (by decide) (Nat.le_max_left _ _), Nat.le_max_right _ _⟩

/-- Marks a node, and tells whether it had a mark. -/
def mark (room : Nat) (marks : Array Bool) (n : Node) : Except Fault (Bool × Array Bool) := do
  let marks ← reserve marks room n false
  return (← fetch marks n, ← store marks n true)

/-- The loop, cut off after some turns, each of which takes a node from the waiting ones; nothing if
nodes still wait. -/
def flowWithin (d : Definitions) (tree : TreeView) (capacity : Nat) (order : Order) (turns : Nat)
    (marks : Array Bool) (t : ReachTable) (waiting : List Node) :
    Except Fault (Option ReachTable) :=
  match turns, waiting with
  | _, [] => .ok (some t)
  | 0, _ :: _ => .ok none
  | turns + 1, n :: rest => do
    let marked ← mark d.markRoom marks n
    if marked.1 then d.flowWithin tree capacity order turns marked.2 t rest
    else
      let sets ← d.visit tree capacity t.sets n
      d.flowWithin tree capacity order turns marked.2 ⟨t.blocks ++ [n], sets⟩
        (order.join (tree.children n) rest)

def propagateWithin (d : Definitions) (tree : TreeView) (seed : ValueSet) (order : Order)
    (turns : Nat) : Except Fault (Option ReachTable) := do
  let sets ← d.seeded tree seed
  d.flowWithin tree seed.capacity order turns #[] ⟨[], sets⟩ [tree.root]

theorem mark_ok (marks : Array Bool) (inside : n < room) : ∃ later,
    mark room marks n = .ok (marks[n]?.getD false, later) ∧
      ∀ m, later[m]?.getD false = if m = n then true else marks[m]?.getD false := by
  have place := lt_size_lengthen marks n false
  have run : mark room marks n =
      .ok (marks[n]?.getD false, (lengthen marks (n + 1) false).setIfInBounds n true) := by
    rw [mark, reserve_of_lt marks false inside, ok_bind, fetch_eq place false, ok_bind,
      store_eq place, getD_lengthen]
    rfl
  exact ⟨_, run, fun m => by rw [getD_setIfInBounds place, getD_lengthen]⟩

/-- What is true of the tables when the nodes in `visited` have been visited and others wait. -/
structure Underway (d : Definitions) (marks : Array Bool) (sets : NodeSets)
    (visited waiting : List Node) : Prop where
  marked : ∀ n, marks[n]?.getD false = visited.contains n
  within : sets.entries.size ≤ d.room
  waits : ∀ n ∈ waiting, n < d.room

namespace Underway

variable {sets later : NodeSets}

theorem start (begun : d.seeded tree seed = .ok sets) : d.Underway #[] sets [] [tree.root] where
  marked n := by simp
  within := (within_of_seeded begun).1
  waits := List.forall_mem_singleton.mpr (within_of_seeded begun).2

/-- Whoever is next can be marked, and the mark tells whether it was visited before. -/
theorem mark (underway : d.Underway marks sets visited (n :: rest)) : ∃ after,
    Definitions.mark d.markRoom marks n = .ok (visited.contains n, after) ∧
      ∀ m, after[m]?.getD false = (n :: visited).contains m := by
  have inside := Nat.lt_of_lt_of_le (underway.waits n List.mem_cons_self) d.room_le_markRoom
  obtain ⟨after, run, entries⟩ := mark_ok marks inside
  refine ⟨after, underway.marked n ▸ run, fun m => ?_⟩
  rw [entries, underway.marked]
  by_cases same : m = n <;> simp [same]

theorem pass (underway : d.Underway marks sets visited (n :: rest)) (old : n ∈ visited)
    {after : Array Bool} (marked : ∀ m, after[m]?.getD false = (n :: visited).contains m) :
    d.Underway after sets visited rest where
  marked m := by
    rw [marked, Bool.eq_iff_iff]
    simp only [List.contains_iff_mem, List.mem_cons, or_iff_right_iff_imp]
    exact fun same => same ▸ old
  within := underway.within
  waits m later := underway.waits m (List.mem_cons_of_mem _ later)

theorem visit (underway : d.Underway marks sets visited (n :: rest))
    {after : Array Bool} (marked : ∀ m, after[m]?.getD false = (n :: visited).contains m)
    (run : d.visit tree capacity sets n = .ok later) :
    d.Underway after later (n :: visited) (order.join (tree.children n) rest) := by
  obtain ⟨within, inside⟩ := within_of_visit underway.within run
  refine ⟨marked, within, fun m waits => ?_⟩
  rcases Order.mem_join.mp waits with listed | waited
  · exact inside m listed
  · exact underway.waits m (List.mem_cons_of_mem _ waited)

end Underway

/-- Every waiting node costs a turn, and every visit makes as many nodes wait as it has links. -/
theorem flowWithin_eq {turns : Nat} (underway : d.Underway marks t.sets visited waiting)
    (enough : waiting.length +
      ((tree.walkFrom order visited waiting).flatMap tree.children).length ≤ turns) :
    d.flowWithin tree capacity order turns marks t waiting =
      (fun sets => some ⟨t.blocks ++ tree.walkFrom order visited waiting, sets⟩) <$>
        (tree.walkFrom order visited waiting).foldlM (d.visit tree capacity) t.sets := by
  induction visited, waiting using TreeView.walkFrom.induct tree order
    generalizing marks t turns with
  | case1 visited =>
    rw [flowWithin, TreeView.walkFrom, List.append_nil]
    rfl
  | case2 visited top rest old ih =>
    rw [TreeView.walkFrom, if_pos old, List.length_cons] at enough
    obtain ⟨turns, rfl⟩ := Nat.exists_eq_add_one_of_ne_zero (n := turns) (by omega)
    obtain ⟨after, marking, marked⟩ := underway.mark
    rw [flowWithin, TreeView.walkFrom, if_pos old, marking, ok_bind,
      if_pos (List.contains_iff_mem.mpr old)]
    exact ih (underway.pass old marked) (by omega)
  | case3 visited top rest fresh ih =>
    rw [TreeView.walkFrom, if_neg fresh, List.length_cons, List.flatMap_cons,
      List.length_append] at enough
    obtain ⟨turns, rfl⟩ := Nat.exists_eq_add_one_of_ne_zero (n := turns) (by omega)
    obtain ⟨after, marking, marked⟩ := underway.mark
    rw [flowWithin, TreeView.walkFrom, if_neg fresh, List.foldlM_cons, marking, ok_bind,
      if_neg (mt List.contains_iff_mem.mp fresh)]
    cases visiting : d.visit tree capacity t.sets top with
    | error fault => rfl
    | ok sets =>
      rw [ok_bind, ok_bind, ih (underway.visit marked visiting), List.append_assoc,
        List.singleton_append]
      rw [Order.join_length]
      omega

/-- With a turn for the root and one for each link of a visited node the loop comes to its end, and
returns or fails as propagation does. -/
theorem propagateWithin_eq {turns : Nat}
    (enough : 1 + ((tree.walk order).flatMap tree.children).length ≤ turns) :
    d.propagateWithin tree seed order turns = some <$> d.propagate tree seed order := by
  rw [propagateWithin, propagate]
  cases begun : d.seeded tree seed with
  | error fault => rfl
  | ok sets =>
    rw [ok_bind, ok_bind, flowWithin_eq (.start begun) enough]
    simp only [List.nil_append, TreeView.walk]
    cases (tree.walkFrom order [] [tree.root]).foldlM (d.visit tree seed.capacity) sets <;> rfl

end Definitions

end ReachingValues
