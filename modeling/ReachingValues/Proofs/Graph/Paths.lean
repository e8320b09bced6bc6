import ReachingValues.Graph.Lemmas
import ReachingValues.Graph.Path

/-!
Paths can be joined, opened at their last edge, and cut off where they come to a node for the first
time.
-/

namespace ReachingValues

namespace Graph

variable {α : Type} {g : Graph α} {s m t n : Node} {visited : List Node}

theorem contains_iff : g.contains n ↔ n < g.nodeCount := by simp [contains]

theorem contains_of_mem_successors (edge : t ∈ g.successors s) : g.contains s ∧ g.contains t := by
  simpa only [contains_iff] using lt_nodeCount_of_mem_successors edge

namespace Path

theorem source_mem (path : g.Path s visited t) : s ∈ visited := by
  cases path <;> simp

theorem head_eq (path : g.Path s (n :: visited) t) : s = n := by
  cases path <;> rfl

theorem target_mem (path : g.Path s visited t) : t ∈ visited := by
  induction path with
  | here inside => simp
  | step edge rest ih => exact List.mem_cons_of_mem _ ih

theorem contains_of_mem (path : g.Path s visited t) (member : n ∈ visited) : g.contains n := by
  induction path with
  | here inside =>
    obtain rfl := List.mem_singleton.mp member
    exact inside
  | step edge rest ih =>
    rcases List.mem_cons.mp member with rfl | later
    · exact (contains_of_mem_successors edge).1
    · exact ih later

theorem reaches (path : g.Path s visited t) : g.Reaches s t := ⟨visited, path⟩

theorem append {left right : List Node} (first : g.Path s left m) (second : g.Path m right t) :
    ∃ joined, g.Path s joined t ∧ ∀ n, n ∈ joined ↔ n ∈ left ∨ n ∈ right := by
  induction first with
  | here inside =>
    refine ⟨right, second, fun n => ?_⟩
    simp only [List.mem_singleton]
    exact ⟨Or.inr, fun either => either.elim (fun same => same ▸ second.source_mem) id⟩
  | step edge rest ih =>
    obtain ⟨joined, path, members⟩ := ih second
    refine ⟨_ :: joined, .step edge path, fun n => ?_⟩
    simp only [List.mem_cons, members, or_assoc]

theorem concat (path : g.Path s visited m) (edge : t ∈ g.successors m) :
    g.Path s (visited ++ [t]) t := by
  induction path with
  | here inside => exact .step edge (.here (contains_of_mem_successors edge).2)
  | step first rest ih => exact .step first (ih edge)

/-- A path of more than one node ends with an edge. -/
theorem last_edge (path : g.Path s visited t) :
    s = t ∧ visited = [t] ∨
      ∃ m earlier, g.Path s earlier m ∧ t ∈ g.successors m ∧ visited = earlier ++ [t] := by
  induction path with
  | here inside => exact Or.inl ⟨rfl, rfl⟩
  | @step n m t visited edge rest ih =>
    right
    have inside := (contains_of_mem_successors edge).1
    rcases ih with ⟨rfl, rfl⟩ | ⟨p, earlier, front, last, rfl⟩
    · exact ⟨n, [n], .here inside, edge, rfl⟩
    · exact ⟨p, n :: earlier, .step edge front, last, rfl⟩

theorem ends (path : g.Path s visited t) : ∃ earlier, visited = earlier ++ [t] := by
  rcases path.last_edge with ⟨_, rfl⟩ | ⟨_, earlier, _, _, rfl⟩
  · exact ⟨[], rfl⟩
  · exact ⟨earlier, rfl⟩

/-- A path comes to each of its nodes for a first time. -/
theorem first_visit (path : g.Path s visited t) (member : n ∈ visited) :
    ∃ earlier, g.Path s (earlier ++ [n]) n ∧ n ∉ earlier ∧ earlier ++ [n] <+: visited := by
  induction path with
  | here inside =>
    obtain rfl := List.mem_singleton.mp member
    exact ⟨[], .here inside, by simp, by simp⟩
  | @step s m t visited edge rest ih =>
    by_cases first : n = s
    · subst first
      exact ⟨[], .here (contains_of_mem_successors edge).1, by simp, by simp⟩
    · have later : n ∈ visited := by simpa [first] using member
      obtain ⟨earlier, path, absent, within⟩ := ih later
      refine ⟨s :: earlier, .step edge path, by simp [first, absent], ?_⟩
      simpa using within

end Path

theorem Reaches.refl (inside : g.contains n) : g.Reaches n n := ⟨[n], .here inside⟩

theorem Reaches.contains (reach : g.Reaches s t) : g.contains s ∧ g.contains t := by
  obtain ⟨visited, path⟩ := reach
  exact ⟨path.contains_of_mem path.source_mem, path.contains_of_mem path.target_mem⟩

theorem Reaches.step (reach : g.Reaches s m) (edge : t ∈ g.successors m) : g.Reaches s t := by
  obtain ⟨visited, path⟩ := reach
  exact ⟨_, path.concat edge⟩

/-- A set that holds the start and is closed under edges holds all that is reachable. -/
theorem Reaches.induct {holds : Node → Prop} (reach : g.Reaches s t)
    (closed : ∀ m n, holds m → n ∈ g.successors m → holds n) (start : holds s) : holds t := by
  obtain ⟨visited, path⟩ := reach
  induction path with
  | here => exact start
  | step edge rest ih => exact ih (closed _ _ start edge)

end Graph

end ReachingValues
