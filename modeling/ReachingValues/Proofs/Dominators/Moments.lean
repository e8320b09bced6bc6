import ReachingValues.Proofs.Dominators.Tree

/-!
The computation of the dominators one task at a time, so that it can be stopped at every point
between two tasks. A point knows the tasks performed so far, those that are still to be performed,
and the state. Performing all tasks leads to the state to which the computation as a whole leads.
-/

namespace ReachingValues

open SpanningTree

variable {α : Type} {g : Graph α} {entry : Node} {tree : SpanningTree}

namespace Semidominators

/-- The single tasks of the computation. -/
inductive Task where
  /-- Begin with a node. -/
  | handle (n : Node)
  /-- Take the edge from `source` to `n` into account. -/
  | consider (n source : Node)
  /-- Put a node among those that wait at its semidominator. -/
  | wait (n : Node)
  /-- Hang a node below its parent. -/
  | link (parent n : Node)
  /-- Take all nodes that wait at `semi` from there. -/
  | release (semi : Node)
  /-- Answer a node that was taken from where it waited at `semi`. -/
  | answer (semi n : Node)
  /-- Replace a node that merely shares the dominator of `n`. -/
  | settle (n : Node)
  deriving DecidableEq

/-- Performs a task. The result begins with the tasks that it gives rise to, which come next. -/
def perform (g : Graph α) (tree : SpanningTree) (s : Semidominators) :
    Task → Except Fault (List Task × Semidominators)
  | .handle n => do
    match ← fetch tree.parent n with
    | none => .error (.missingLink n)
    | some parent =>
      return ((g.predecessors n).map (.consider n) ++
        [.wait n, .link parent n, .release parent], s)
  | .consider n source => do return ([], ← s.considerEdge tree n source)
  | .wait n => do return ([], ← s.wait n)
  | .link parent n => do return ([], { s with forest := ← s.forest.attach parent n })
  | .release semi => do
    let released ← fetch s.waiting semi
    return (released.reverse.map (.answer semi),
      { s with waiting := ← store s.waiting semi [] })
  | .answer semi n => do return ([], ← s.answer tree semi n)
  | .settle n => do
    return ([], { s with dominator := ← Semidominators.settle s.semi s.dominator n })

/-- The last pass over the nodes below the entry. -/
def lastPass (tree : SpanningTree) : List Task := tree.belowEntry.map .settle

/-- The points of the computation, each with the tasks performed so far and those that are next. -/
inductive Point (g : Graph α) (tree : SpanningTree) :
    List Task → List Task → Semidominators → Prop
  | start : Point g tree [] (tree.belowEntry.reverse.map .handle ++ lastPass tree)
      (initial g.nodeCount)
  | next {done more rest : List Task} {task : Task} {s later : Semidominators} :
      Point g tree done (task :: rest) s → perform g tree s task = .ok (more, later) →
      Point g tree (done ++ [task]) (more ++ rest) later

/-- Performs as many tasks as the first argument says, unless fewer are left. -/
def performNext (g : Graph α) (tree : SpanningTree) : Nat → List Task × List Task × Semidominators →
    Except Fault (List Task × List Task × Semidominators)
  | steps + 1, (done, task :: rest, s) => do
    let (more, later) ← perform g tree s task
    performNext g tree steps (done ++ [task], more ++ rest, later)
  | _, point => .ok point

variable {s later final : Semidominators} {done more rest pending : List Task} {task : Task}
  {n p v w : Node}

namespace Point

theorem of_performNext {steps : Nat} {front left : List Task}
    (point : Point g tree done pending s)
    (run : performNext g tree steps (done, pending, s) = .ok (front, left, final)) :
    Point g tree front left final := by
  induction steps generalizing done pending s with
  | zero =>
    obtain ⟨rfl, rfl, rfl⟩ : done = front ∧ pending = left ∧ s = final := by
      simpa [performNext] using run
    exact point
  | succ steps ih =>
    cases pending with
    | nil =>
      obtain ⟨rfl, rfl, rfl⟩ : done = front ∧ [] = left ∧ s = final := by
        simpa [performNext] using run
      exact point
    | cons task rest =>
      obtain ⟨⟨more, later⟩, performed, run⟩ := bind_eq_ok_iff.mp run
      exact ih (point.next performed) run

/-- Whatever has been performed was performed at a point. -/
theorem earlier (point : Point g tree done pending s) {front back : List Task}
    (split : done = front ++ task :: back) :
    ∃ rest before, Point g tree front (task :: rest) before := by
  induction point generalizing back with
  | start => simp at split
  | @next done more rest last s later point run ih =>
    rcases List.eq_nil_or_concat back with rfl | ⟨init, final, rfl⟩
    · obtain ⟨rfl, same⟩ := List.append_inj' split rfl
      obtain rfl := List.head_eq_of_cons_eq same
      exact ⟨rest, s, point⟩
    · have shorter : done ++ [last] = (front ++ task :: init) ++ [final] := by simpa using split
      exact ih (List.append_inj' shorter rfl).1

/-- Tasks that give rise to no others are performed one after another. -/
theorem fold {β : Type} {list : List β} (toTask : β → Task)
    {step : Semidominators → β → Except Fault Semidominators}
    (performs : ∀ s b, perform g tree s (toTask b) = (do return ([], ← step s b)))
    (point : Point g tree done (list.map toTask ++ rest) s)
    (run : list.foldlM step s = .ok final) :
    Point g tree (done ++ list.map toTask) rest final := by
  induction list generalizing done s with
  | nil =>
    obtain rfl := Except.ok.inj run
    simpa using point
  | cons first list ih =>
    rw [List.foldlM_cons] at run
    obtain ⟨later, performed, run⟩ := bind_eq_ok_iff.mp run
    have next : Point g tree (done ++ [toTask first]) ([] ++ (list.map toTask ++ rest)) later :=
      .next point (by rw [performs, performed, ok_bind, pure_eq_ok])
    simpa using ih next run

/-- Handling a node amounts to the tasks that it gives rise to. -/
theorem handle (point : Point g tree done (.handle w :: rest) s)
    (run : Semidominators.handle g tree s w = .ok final) :
    ∃ more, Point g tree (done ++ more) rest final := by
  obtain ⟨link, atW, run⟩ := bind_eq_ok_iff.mp run
  cases link with
  | none => cases run
  | some parent =>
    obtain ⟨s₁, considered, run⟩ := bind_eq_ok_iff.mp run
    obtain ⟨s₂, waited, run⟩ := bind_eq_ok_iff.mp run
    obtain ⟨forest, attached, run⟩ := bind_eq_ok_iff.mp run
    obtain ⟨released, taken, run⟩ := bind_eq_ok_iff.mp run
    obtain ⟨waiting, emptied, run⟩ := bind_eq_ok_iff.mp run
    have begun := point.next (by rw [perform, atW]; rfl)
    rw [List.append_assoc] at begun
    have atWait := begun.fold (.consider w) (fun _ _ => rfl) considered
    have atLink := atWait.next (by rw [perform, waited]; rfl)
    have atRelease := atLink.next (by rw [perform, attached]; rfl)
    have atAnswers := atRelease.next (by rw [perform, taken, ok_bind, emptied]; rfl)
    have whole := atAnswers.fold (.answer parent) (fun _ _ => rfl) run
    simp only [List.append_assoc] at whole
    exact ⟨_, whole⟩

theorem handles {list : List Node} (point : Point g tree done (list.map .handle ++ rest) s)
    (run : list.foldlM (Semidominators.handle g tree) s = .ok final) :
    ∃ more, Point g tree (done ++ more) rest final := by
  induction list generalizing done s with
  | nil =>
    obtain rfl := Except.ok.inj run
    exact ⟨[], by simpa using point⟩
  | cons first list ih =>
    rw [List.foldlM_cons] at run
    obtain ⟨later, handled, run⟩ := bind_eq_ok_iff.mp run
    obtain ⟨more, next⟩ := point.handle handled
    obtain ⟨others, whole⟩ := ih next run
    exact ⟨more ++ others, by rwa [List.append_assoc] at whole⟩

theorem settles {list : List Node} {links links' : Array (Option Node)}
    (point : Point g tree done (list.map .settle ++ rest) { s with dominator := links })
    (run : list.foldlM (Semidominators.settle s.semi) links = .ok links') :
    Point g tree (done ++ list.map .settle) rest { s with dominator := links' } := by
  induction list generalizing done links with
  | nil =>
    obtain rfl := Except.ok.inj run
    simpa using point
  | cons first list ih =>
    rw [List.foldlM_cons] at run
    obtain ⟨later, settled, run⟩ := bind_eq_ok_iff.mp run
    have whole := ih (point.next (by rw [perform, settled]; rfl)) run
    rwa [List.append_assoc] at whole

/-- When the last pass is next, the state is that of the computation up to there. -/
theorem of_ofTree (run : ofTree g tree = .ok s) : ∃ done, Point g tree done (lastPass tree) s := by
  obtain ⟨done, point⟩ := Point.start.handles run
  exact ⟨[] ++ done, point⟩

/-- When nothing is left to perform, the last pass has been made. -/
theorem of_settled {links : Array (Option Node)} (point : Point g tree done (lastPass tree) s)
    (run : s.settled tree = .ok links) :
    Point g tree (done ++ lastPass tree) [] { s with dominator := links } :=
  settles (by rwa [← lastPass, List.append_nil]) run

end Point

/-- All tasks can be performed, and performing them is what the computation does. -/
theorem exists_performed (inside : g.contains entry) :
    ∃ tree done s links, ofGraph g entry = .ok tree ∧ tree.Spans g entry ∧
      ofTree g tree = .ok s ∧ s.Handled g tree 1 ∧ s.settled tree = .ok links ∧
      Point g tree done (lastPass tree) s ∧
      Point g tree (done ++ lastPass tree) [] { s with dominator := links } := by
  obtain ⟨tree, search, spans⟩ := ofGraph_spans inside
  obtain ⟨s, run, handled⟩ := ofTree_handled spans inside
  obtain ⟨links, last, _⟩ := handled.settled spans
  obtain ⟨done, point⟩ := Point.of_ofTree run
  exact ⟨tree, done, s, links, search, spans, run, handled, last, point, point.of_settled last⟩

end Semidominators

end ReachingValues
