import ReachingValues.Proofs.Dominators.Moments

/-!
What is known at every point of the computation. The task that comes next tells at which stage the
computation is, and each kind of task finds what the one before it has left. A stage goes with a
limit: the nodes numbered above it are linked to their parents, and no others are.
-/

namespace ReachingValues

open SpanningTree

variable {α : Type} {g : Graph α} {entry : Node} {tree : SpanningTree}

namespace Semidominators

variable {s s₀ : Semidominators} {limit : Nat} {n p v w : Node} {seen later : List Node}
  {done pending rest : List Task} {task : Task}

/-- The plain forest after a task. Only a link changes it. -/
def Task.hang (up : Node → Option Node) : Task → Node → Option Node
  | .link parent n, m => if m = n then some parent else up m
  | _, m => up m

/-- The forest of all links made by the tasks, none of them shortened. -/
def plainForest (done : List Task) : Node → Option Node := done.foldl Task.hang fun _ => none

theorem plainForest_concat (done : List Task) (task : Task) :
    plainForest (done ++ [task]) = task.hang (plainForest done) := by
  rw [plainForest, List.foldl_append]
  rfl

theorem Task.hang_ne_none {up : Node → Option Node} (known : up n ≠ none) :
    Task.hang up task n ≠ none := by
  cases task with
  | link parent m =>
    by_cases same : n = m
    · simp [Task.hang, same]
    · rwa [Task.hang, if_neg same]
  | _ => exact known

/-- What has been linked once stays so. -/
theorem foldl_hang_ne_none {up : Node → Option Node}
    (known : up n ≠ none ∨ .link p n ∈ done) : done.foldl Task.hang up n ≠ none := by
  induction done generalizing up with
  | nil => exact known.resolve_right List.not_mem_nil
  | cons task done ih =>
    refine ih ?_
    rcases known with before | member
    · exact Or.inl (Task.hang_ne_none before)
    · rcases List.mem_cons.mp member with rfl | later
      · exact Or.inl (by simp [Task.hang])
      · exact Or.inr later

theorem plainForest_ne_none (member : .link p n ∈ done) : plainForest done n ≠ none :=
  foldl_hang_ne_none (Or.inr member)

/-- What is left to perform when the nodes numbered above the limit are handled. -/
def remaining (tree : SpanningTree) (limit : Nat) : List Task :=
  (tree.belowEntry.take (limit - 1)).reverse.map .handle ++ lastPass tree

/-- It is the turn of `w`, the node numbered just above the limit, and `p` is its parent. -/
structure Turn (tree : SpanningTree) (limit : Nat) (w p : Node) : Prop where
  positive : 0 < limit
  number : tree.numberOf w = limit + 1
  parent : tree.parentOf w = some p

theorem Turn.exists (genuine : tree.Genuine g entry) (positive : 0 < limit)
    (more : limit < tree.order.size) : ∃ w p, Turn tree limit w p := by
  have number := genuine.number_getElem more
  obtain ⟨p, parent, _⟩ := genuine.parent_some tree.order[limit] (by omega)
  exact ⟨_, p, positive, number, parent⟩

namespace Turn

/-- As long as only the semidominator of `w` changes, those found before stay. -/
theorem semidominates (turn : Turn tree limit w p) (handled : s₀.Handled g tree (limit + 1))
    (kept : ∀ m, m ≠ w → s.semiOf m = s₀.semiOf m) (beyond : limit + 1 < tree.numberOf n) :
    tree.Semidominates g (s.semiOf n) n := by
  have number := turn.number
  rw [kept n (by rintro rfl; omega)]
  exact handled.done n beyond

variable (turn : Turn tree limit w p) (genuine : tree.Genuine g entry)

include turn genuine

theorem bounded : limit + 1 ≤ tree.order.size := by
  rw [← turn.number]
  exact genuine.number_le_size w

theorem lt_nodeCount : w < g.nodeCount ∧ p < g.nodeCount := by
  have edge := (genuine.parent_spec turn.parent).1
  exact (Graph.lt_nodeCount_of_mem_successors edge).symm

theorem remaining_eq : remaining tree (limit + 1) = .handle w :: remaining tree limit := by
  have positive := turn.positive
  have placed := (genuine.number_iff w limit).mp turn.number
  have next : tree.belowEntry[limit - 1]? = some w := by
    rw [belowEntry, List.getElem?_tail, Array.getElem?_toList, Nat.sub_add_cancel positive, placed]
  have taken : tree.belowEntry.take limit = tree.belowEntry.take (limit - 1) ++ [w] := by
    conv => lhs; rw [← Nat.sub_add_cancel positive, List.take_add_one, next]
    rfl
  rw [remaining, Nat.add_sub_cancel, taken, List.reverse_append]
  rfl

end Turn

/-- The stages of the computation, one for each kind of task that may come next, and one for the
end. The nodes numbered above the limit are in the forest. -/
inductive Stage (g : Graph α) (entry : Node) (tree : SpanningTree) :
    Nat → List Task → Semidominators → Prop
  | handle {limit : Nat} {w p : Node} {s : Semidominators} :
      Turn tree limit w p → s.Handled g tree (limit + 1) →
      Stage g entry tree (limit + 1) (.handle w :: remaining tree limit) s
  | consider {limit : Nat} {w p v : Node} {seen later : List Node} {s₀ s : Semidominators} :
      Turn tree limit w p → s₀.Handled g tree (limit + 1) →
      g.predecessors w = seen ++ v :: later → Considered s₀ s g tree (limit + 1) w seen →
      Stage g entry tree (limit + 1) (.consider w v :: (later.map (.consider w) ++
        .wait w :: .link p w :: .release p :: remaining tree limit)) s
  | wait {limit : Nat} {w p : Node} {s₀ s : Semidominators} :
      Turn tree limit w p → s₀.Handled g tree (limit + 1) →
      Considered s₀ s g tree (limit + 1) w (g.predecessors w) →
      Stage g entry tree (limit + 1)
        (.wait w :: .link p w :: .release p :: remaining tree limit) s
  | link {limit : Nat} {w p : Node} {s₀ s : Semidominators} :
      Turn tree limit w p → s₀.Handled g tree (limit + 1) → Ready s₀ s g tree (limit + 1) w →
      Stage g entry tree (limit + 1) (.link p w :: .release p :: remaining tree limit) s
  | release {limit : Nat} {w p : Node} {s : Semidominators} :
      Turn tree limit w p → s.Hung g tree limit →
      Stage g entry tree limit (.release p :: remaining tree limit) s
  | answer {limit : Nat} {w p v : Node} {seen later : List Node} {s₀ s : Semidominators} :
      Turn tree limit w p → s₀.Hung g tree limit →
      (s₀.waitingAt p).reverse = seen ++ v :: later → Answering s₀ s g tree limit p seen →
      Stage g entry tree limit
        (.answer p v :: (later.map (.answer p) ++ remaining tree limit)) s
  | settle {v : Node} {seen later : List Node} {s : Semidominators}
      {links : Array (Option Node)} :
      s.Handled g tree 1 → tree.belowEntry = seen ++ v :: later →
      Settled links s g entry tree (seen.length + 2) →
      Stage g entry tree 1 (.settle v :: later.map .settle) { s with dominator := links }
  | finished {s : Semidominators} {links : Array (Option Node)} :
      s.Handled g tree 1 → links.size = g.nodeCount →
      Stage g entry tree 1 [] { s with dominator := links }

namespace Stage

theorem of_settled {links : Array (Option Node)} (handled : s.Handled g tree 1)
    (split : tree.belowEntry = seen ++ later)
    (settled : Settled links s g entry tree (seen.length + 2)) :
    Stage g entry tree 1 (later.map .settle) { s with dominator := links } := by
  cases later with
  | nil => exact .finished handled settled.size_eq
  | cons v later => exact .settle handled split settled

theorem of_handled (genuine : tree.Genuine g entry) (positive : 0 < limit)
    (bounded : limit ≤ tree.order.size) (handled : s.Handled g tree limit) :
    Stage g entry tree limit (remaining tree limit) s := by
  obtain _ | limit := limit
  · cases positive
  by_cases last : limit = 0
  · subst last
    have whole : remaining tree (0 + 1) = tree.belowEntry.map .settle := by
      simp [remaining, lastPass]
    have unsplit : tree.belowEntry = [] ++ tree.belowEntry := rfl
    rw [whole]
    exact of_settled handled unsplit handled.unsettled
  · obtain ⟨w, p, turn⟩ := Turn.exists genuine (Nat.pos_of_ne_zero last) bounded
    rw [turn.remaining_eq genuine]
    exact .handle turn handled

theorem of_considered (turn : Turn tree limit w p) (handled : s₀.Handled g tree (limit + 1))
    (split : g.predecessors w = seen ++ later)
    (considered : Considered s₀ s g tree (limit + 1) w seen) :
    Stage g entry tree (limit + 1) (later.map (.consider w) ++
      .wait w :: .link p w :: .release p :: remaining tree limit) s := by
  cases later with
  | nil =>
    rw [List.append_nil] at split
    exact .wait turn handled (split ▸ considered)
  | cons v later => exact .consider turn handled split considered

theorem of_answering (genuine : tree.Genuine g entry) (turn : Turn tree limit w p)
    (hung : s₀.Hung g tree limit) (split : (s₀.waitingAt p).reverse = seen ++ later)
    (answering : Answering s₀ s g tree limit p seen) :
    Stage g entry tree limit (later.map (.answer p) ++ remaining tree limit) s := by
  cases later with
  | nil =>
    rw [List.append_nil] at split
    have handled := answering.handled hung genuine turn.number turn.parent fun v => by
      rw [← split, List.mem_reverse]
    exact of_handled genuine turn.positive (Nat.le_of_lt (turn.bounded genuine)) handled
  | cons v later => exact .answer turn hung split answering

theorem consistent (stage : Stage g entry tree limit pending s) : s.Consistent g tree limit := by
  cases stage with
  | handle _ handled => exact handled.toConsistent
  | consider _ _ _ considered => exact considered.toConsistent
  | wait _ _ considered => exact considered.toConsistent
  | link _ _ ready => exact ready.toConsistent
  | release _ hung => exact hung.toConsistent
  | answer _ _ _ answering => exact answering.toConsistent
  | settle handled _ settled =>
    exact { handled.toConsistent with dominator_size := settled.size_eq }
  | finished handled size => exact { handled.toConsistent with dominator_size := size }

/-- Whatever is in the forest has its semidominator. -/
theorem semidominates (stage : Stage g entry tree limit pending s)
    (beyond : limit < tree.numberOf n) : tree.Semidominates g (s.semiOf n) n := by
  cases stage with
  | handle _ handled => exact handled.done n beyond
  | consider turn handled _ considered =>
    exact turn.semidominates handled considered.semi_eq beyond
  | wait turn handled considered => exact turn.semidominates handled considered.semi_eq beyond
  | link turn handled ready => exact turn.semidominates handled ready.semi_eq beyond
  | release _ hung => exact hung.done n beyond
  | answer _ hung _ answering =>
    rw [answering.semiOf_eq]
    exact hung.done n beyond
  | settle handled => exact handled.done n beyond
  | finished handled => exact handled.done n beyond

/-- The semidominator of a node is found by the time the node is linked. -/
theorem at_link (stage : Stage g entry tree limit (.link p w :: rest) s) :
    tree.parentOf w = some p ∧ tree.Semidominates g (s.semiOf w) w := by
  cases stage with
  | link turn _ ready => exact ⟨turn.parent, ready.semi⟩

/-- The next task can be performed, and the limit of the stage to which it leads says what it has
hung. -/
theorem advance (spans : tree.Spans g entry)
    (stage : Stage g entry tree limit (task :: rest) s) :
    ∃ more next limit', perform g tree s task = .ok (more, next) ∧
      Stage g entry tree limit' (more ++ rest) next ∧
      task.hang (tree.upBeyond limit) = tree.upBeyond limit' := by
  have genuine := spans.toGenuine
  cases stage with
  | @handle limit w p _ turn handled =>
    have room : w < tree.parent.size := by
      rw [tree.parent_size, genuine.size_eq]
      exact (turn.lt_nodeCount genuine).1
    have link : fetch tree.parent w = .ok (some p) := turn.parent ▸ fetch_eq room none
    refine ⟨_, s, limit + 1, by rw [perform, link]; rfl, ?_, rfl⟩
    rw [List.append_assoc]
    exact of_considered turn handled rfl (handled.considered turn.number)
  | @consider limit w p v seen later s₀ _ turn handled split considered =>
    have edge : w ∈ g.successors v := Graph.mem_successors_iff.mpr (by simp [split])
    obtain ⟨next, run, again⟩ :=
      considered.step handled genuine (Nat.succ_pos _) turn.number edge
    refine ⟨[], next, limit + 1, by rw [perform, run]; rfl, ?_, rfl⟩
    exact of_considered turn handled (by simp [split]) again
  | @wait limit w p s₀ _ turn handled considered =>
    have semi := considered.semidominates handled genuine turn.number
      (Nat.succ_lt_succ turn.positive)
    obtain ⟨next, run, ready⟩ := considered.wait semi (turn.lt_nodeCount genuine).1
    exact ⟨[], next, limit + 1, by rw [perform, run]; rfl, .link turn handled ready, rfl⟩
  | @link limit w p s₀ _ turn handled ready =>
    obtain ⟨forest, run, hung⟩ := ready.attach handled genuine turn.number turn.parent
    exact ⟨[], _, limit, by rw [perform, run]; rfl, .release turn hung,
      upBeyond_pred genuine turn.number turn.parent⟩
  | @release _ w p _ turn hung =>
    obtain ⟨known, waiting, emptied, answering⟩ :=
      hung.toKnown.open (turn.lt_nodeCount genuine).2
    refine ⟨_, _, limit, by rw [perform, known, ok_bind, emptied]; rfl, ?_, rfl⟩
    exact of_answering genuine turn hung rfl answering
  | @answer _ w p v seen later s₀ _ turn hung split answering =>
    have waited : v ∈ s₀.waitingAt p := List.mem_reverse.mp (by simp [split])
    obtain ⟨next, run, again⟩ :=
      answering.step hung.toKnown genuine turn.positive turn.number turn.parent waited
    refine ⟨[], next, limit, by rw [perform, run]; rfl, ?_, rfl⟩
    exact of_answering genuine turn hung (by simp [split]) again
  | @settle v seen later s links handled split settled =>
    have number := (genuine.number_of_split split).1
    have further : tree.belowEntry = (seen ++ [v]) ++ later := by simp [split]
    obtain ⟨links', run, again⟩ := settled.settle handled spans number (by omega)
    refine ⟨[], { s with dominator := links' }, 1, by rw [perform, run]; rfl, ?_, rfl⟩
    exact of_settled handled further (by simpa using again)

end Stage

/-- Every point of the computation is at some stage, and the nodes beyond the limit are those that
the tasks have linked. -/
theorem Point.stage (spans : tree.Spans g entry) (inside : g.contains entry)
    (point : Point g tree done pending s) :
    ∃ limit, Stage g entry tree limit pending s ∧ plainForest done = tree.upBeyond limit := by
  have genuine := spans.toGenuine
  induction point with
  | start =>
    have nonempty : 0 < tree.order.size :=
      Nat.lt_of_lt_of_le ((spans.numbered_iff entry).mpr (.refl inside)) (genuine.number_le_size _)
    have whole : tree.belowEntry.reverse.map .handle ++ lastPass tree =
        remaining tree tree.order.size := by
      rw [remaining, List.take_of_length_le (by simp [belowEntry])]
    rw [whole]
    exact ⟨_, .of_handled genuine nonempty (Nat.le_refl _) (handled_initial genuine),
      genuine.upBeyond_size.symm⟩
  | @next done more rest task s later _ run ih =>
    obtain ⟨limit, stage, plain⟩ := ih
    obtain ⟨more', next, limit', performed, again, hung⟩ := stage.advance spans
    obtain ⟨rfl, rfl⟩ := Prod.mk.inj (Except.ok.inj (performed.symm.trans run))
    exact ⟨limit', again, by rw [plainForest_concat, plain, hung]⟩

end Semidominators

end ReachingValues
