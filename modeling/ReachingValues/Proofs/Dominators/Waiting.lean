import ReachingValues.Proofs.Dominators.Moments

/-!
Every node below the entry is hung below its parent once, is put once among those that wait
somewhere, and is taken from there and answered once. The first two are so because the tasks of a
node come from the one task that begins with it. For the last one, what has been put somewhere has
either been answered, or is about to be answered, or still waits.
-/

namespace ReachingValues

open SpanningTree

variable {α : Type} {g : Graph α} {entry : Node} {tree : SpanningTree}

/-- Replacing one of several lists changes how often a node is listed by what the two lists
differ. -/
theorem count_flatten_store {table later : Array (List Node)} {i : Nat} {old new : List Node}
    (known : fetch table i = .ok old) (stored : store table i new = .ok later) (v : Node) :
    later.toList.flatten.count v + old.count v = table.toList.flatten.count v + new.count v := by
  obtain ⟨inside, rfl⟩ := Array.getElem?_eq_some_iff.mp (fetch_eq_ok_iff.mp known)
  rw [store_of_lt new inside] at stored
  obtain rfl := Except.ok.inj stored
  have room : i < table.toList.length := inside
  have split : table.toList = table.toList.take i ++ table[i] :: table.toList.drop (i + 1) := by
    rw [← Array.getElem_toList, List.getElem_cons_drop, List.take_append_drop]
  have whole := congrArg (fun lists => lists.flatten.count v) split
  rw [Array.toList_set, List.set_eq_take_append_cons_drop, if_pos room]
  simp only [List.flatten_append, List.flatten_cons, List.count_append] at whole ⊢
  omega

namespace SpanningTree.Genuine

variable (genuine : tree.Genuine g entry) {n : Node}

include genuine

theorem mem_belowEntry_iff : n ∈ tree.belowEntry ↔ 1 < tree.numberOf n := by
  constructor
  · intro member
    obtain ⟨front, back, split⟩ := List.append_of_mem member
    have number := (genuine.number_of_split split).1
    omega
  · intro below
    have placed := (genuine.number_iff n (tree.numberOf n - 2 + 1)).mp (by omega)
    rw [← Array.getElem?_toList, ← List.getElem?_tail] at placed
    exact List.mem_of_getElem? placed

theorem count_belowEntry (below : 1 < tree.numberOf n) : tree.belowEntry.count n = 1 := by
  have once := List.nodup_iff_count.mp (genuine.order_nodup.sublist (List.tail_sublist _)) n
  have some := List.count_pos_iff.mpr (genuine.mem_belowEntry_iff.mpr below)
  exact Nat.le_antisymm once some

end SpanningTree.Genuine

namespace Semidominators

variable {s later : Semidominators} {done more rest pending : List Task} {task : Task}
  {n source semi v : Node}

theorem waiting_of_lowest {low : Node} (run : s.lowest tree n = .ok (low, later)) :
    later.waiting = s.waiting := by
  obtain ⟨⟨_, forest⟩, _, run⟩ := bind_eq_ok_iff.mp run
  rw [← (Prod.mk.inj (Except.ok.inj run)).2]

theorem waiting_of_considerEdge (run : s.considerEdge tree n source = .ok later) :
    later.waiting = s.waiting := by
  obtain ⟨k, _, run⟩ := bind_eq_ok_iff.mp run
  split at run
  · rw [← Except.ok.inj run]
  · obtain ⟨⟨low, t⟩, asked, run⟩ := bind_eq_ok_iff.mp run
    obtain ⟨_, _, run⟩ := bind_eq_ok_iff.mp run
    obtain ⟨_, _, run⟩ := bind_eq_ok_iff.mp run
    rw [← waiting_of_lowest asked]
    split at run
    · obtain ⟨_, _, run⟩ := bind_eq_ok_iff.mp run
      obtain ⟨_, _, run⟩ := bind_eq_ok_iff.mp run
      rw [← Except.ok.inj run]
    · rw [← Except.ok.inj run]

theorem waiting_of_answer (run : s.answer tree semi n = .ok later) :
    later.waiting = s.waiting := by
  obtain ⟨⟨low, t⟩, asked, run⟩ := bind_eq_ok_iff.mp run
  obtain ⟨_, _, run⟩ := bind_eq_ok_iff.mp run
  obtain ⟨_, _, run⟩ := bind_eq_ok_iff.mp run
  obtain ⟨_, _, run⟩ := bind_eq_ok_iff.mp run
  rw [← waiting_of_lowest asked, ← Except.ok.inj run]

/-- How often `v` waits anywhere. -/
def timesWaiting (s : Semidominators) (v : Node) : Nat := s.waiting.toList.flatten.count v

theorem timesWaiting_eq_zero (nowhere : ∀ n, v ∉ s.waitingAt n) : s.timesWaiting v = 0 := by
  refine List.count_eq_zero.mpr fun member => ?_
  obtain ⟨list, listed, member⟩ := List.mem_flatten.mp member
  obtain ⟨n, atN⟩ := List.mem_iff_getElem?.mp listed
  rw [Array.getElem?_toList] at atN
  exact nowhere n (by rwa [waitingAt, atN])

namespace Task

/-- Whether the task hangs `v` below its parent. -/
def links (v : Node) : Task → Bool
  | .link _ n => n == v
  | _ => false

/-- Whether the task answers `v`, which was taken from where it waited. -/
def answers (v : Node) : Task → Bool
  | .answer _ n => n == v
  | _ => false

end Task

/-- Putting a node somewhere adds to what waits, and taking nodes away gives rise to their
answers. -/
theorem balance_of_perform (run : perform g tree s task = .ok (more, later)) (v : Node) :
    s.timesWaiting v + [task].count (.wait v) =
      later.timesWaiting v + more.countP (Task.answers v) := by
  unfold timesWaiting
  cases task with
  | handle n =>
    obtain ⟨link, _, run⟩ := bind_eq_ok_iff.mp run
    cases link with
    | none => cases run
    | some parent =>
      obtain ⟨rfl, rfl⟩ := Prod.mk.inj (Except.ok.inj run)
      simp [Task.answers, Function.comp_def]
  | consider n source =>
    obtain ⟨t, considered, run⟩ := bind_eq_ok_iff.mp run
    obtain ⟨rfl, rfl⟩ := Prod.mk.inj (Except.ok.inj run)
    simp [waiting_of_considerEdge considered]
  | wait n =>
    obtain ⟨t, waited, run⟩ := bind_eq_ok_iff.mp run
    obtain ⟨rfl, rfl⟩ := Prod.mk.inj (Except.ok.inj run)
    obtain ⟨semi, _, waited⟩ := bind_eq_ok_iff.mp waited
    obtain ⟨old, known, waited⟩ := bind_eq_ok_iff.mp waited
    obtain ⟨table, stored, waited⟩ := bind_eq_ok_iff.mp waited
    obtain rfl := Except.ok.inj waited
    have counts := count_flatten_store known stored v
    by_cases same : n = v
    · subst same
      simp at counts ⊢
      omega
    · simp [same] at counts ⊢
      omega
  | link parent n =>
    obtain ⟨forest, _, run⟩ := bind_eq_ok_iff.mp run
    obtain ⟨rfl, rfl⟩ := Prod.mk.inj (Except.ok.inj run)
    simp
  | release semi =>
    obtain ⟨released, known, run⟩ := bind_eq_ok_iff.mp run
    obtain ⟨table, emptied, run⟩ := bind_eq_ok_iff.mp run
    obtain ⟨rfl, rfl⟩ := Prod.mk.inj (Except.ok.inj run)
    have counts := count_flatten_store known emptied v
    have answers : (released.reverse.map (Task.answer semi)).countP (Task.answers v) =
        released.count v := by
      rw [List.countP_map, List.countP_reverse]
      rfl
    rw [answers]
    simp at counts ⊢
    omega
  | answer semi n =>
    obtain ⟨t, answered, run⟩ := bind_eq_ok_iff.mp run
    obtain ⟨rfl, rfl⟩ := Prod.mk.inj (Except.ok.inj run)
    simp [waiting_of_answer answered]
  | settle n =>
    obtain ⟨links, _, run⟩ := bind_eq_ok_iff.mp run
    obtain ⟨rfl, rfl⟩ := Prod.mk.inj (Except.ok.inj run)
    simp

/-- A task that comes once with every node that is handled, and not otherwise. -/
structure ComesWith (q : Task → Bool) (v : Node) : Prop where
  handle : ∀ n, q (.handle n) = false
  consider : ∀ n source, q (.consider n source) = false
  answer : ∀ semi n, q (.answer semi n) = false
  settle : ∀ n, q (.settle n) = false
  once : ∀ p n, [Task.wait n, .link p n, .release p].countP q = if n = v then 1 else 0

theorem comesWith_wait (v : Node) : ComesWith (· == .wait v) v where
  handle n := by simp
  consider n source := by simp
  answer semi n := by simp
  settle n := by simp
  once p n := by by_cases same : n = v <;> simp [same]

theorem comesWith_links (v : Node) : ComesWith (Task.links v) v where
  handle _ := rfl
  consider _ _ := rfl
  answer _ _ := rfl
  settle _ := rfl
  once p n := by by_cases same : n = v <;> simp [Task.links, same]

theorem count_handle_lastPass : (lastPass tree).count (.handle v) = 0 := by
  simp [lastPass, List.count_eq_zero]

variable {q : Task → Bool}

theorem ComesWith.lastPass (comes : ComesWith q v) :
    (Semidominators.lastPass tree).countP q = 0 := by
  simp [Semidominators.lastPass, List.countP_map, Function.comp_def, comes.settle]

theorem ComesWith.perform (comes : ComesWith q v)
    (run : Semidominators.perform g tree s task = .ok (more, later)) :
    more.countP q = [task].count (.handle v) ∧ more.count (.handle v) = 0 := by
  cases task with
  | handle n =>
    obtain ⟨link, _, run⟩ := bind_eq_ok_iff.mp run
    cases link with
    | none => cases run
    | some parent =>
      obtain ⟨rfl, rfl⟩ := Prod.mk.inj (Except.ok.inj run)
      have considers : ((g.predecessors n).map (Task.consider n)).countP q = 0 := by
        simp [List.countP_map, Function.comp_def, comes.consider]
      rw [List.countP_append, considers, comes.once]
      by_cases same : n = v <;> simp [same, List.count_eq_zero]
  | release semi =>
    obtain ⟨released, known, run⟩ := bind_eq_ok_iff.mp run
    obtain ⟨table, emptied, run⟩ := bind_eq_ok_iff.mp run
    obtain ⟨rfl, rfl⟩ := Prod.mk.inj (Except.ok.inj run)
    simp [List.countP_map, Function.comp_def, comes.answer, List.count_eq_zero]
  | _ =>
    obtain ⟨_, _, run⟩ := bind_eq_ok_iff.mp run
    obtain ⟨rfl, rfl⟩ := Prod.mk.inj (Except.ok.inj run)
    simp

namespace Point

/-- At every point, what has been put somewhere has been answered, or will be next, or waits. -/
theorem balance (point : Point g tree done pending s) (v : Node) :
    done.count (.wait v) =
      done.countP (Task.answers v) + pending.countP (Task.answers v) + s.timesWaiting v := by
  induction point with
  | start =>
    have nowhere : (initial g.nodeCount).timesWaiting v = 0 := by
      simp [timesWaiting, initial]
    simp [nowhere, lastPass, Task.answers, Function.comp_def]
  | @next done more rest task s later _ run ih =>
    have step := balance_of_perform run v
    have first : (task :: rest).countP (Task.answers v) =
        [task].countP (Task.answers v) + rest.countP (Task.answers v) := by
      rw [← List.countP_append]
      rfl
    rw [first] at ih
    simp only [List.count_append, List.countP_append]
    omega

/-- Until a node is handled, the tasks that come with it are still to come. -/
theorem once (point : Point g tree done pending s) (comes : ComesWith q v) :
    done.countP q + pending.countP q + pending.count (.handle v) = tree.belowEntry.count v := by
  induction point with
  | start =>
    have handles : (tree.belowEntry.reverse.map Task.handle).count (.handle v) =
        tree.belowEntry.count v := by
      rw [List.map_reverse, List.count_reverse, List.count_eq_countP, List.countP_map,
        List.count_eq_countP]
      exact List.countP_congr fun n _ => by simp
    have none : (tree.belowEntry.reverse.map Task.handle).countP q = 0 := by
      simp [List.countP_map, Function.comp_def, comes.handle]
    rw [List.countP_append, none, comes.lastPass, List.count_append, handles,
      count_handle_lastPass, List.countP_nil]
    omega
  | @next done more rest task s later _ run ih =>
    obtain ⟨new, none⟩ := comes.perform run
    have first : (task :: rest).countP q = [task].countP q + rest.countP q := by
      rw [← List.countP_append]
      rfl
    have first' : (task :: rest).count (.handle v) =
        [task].count (.handle v) + rest.count (.handle v) := by
      rw [← List.count_append]
      rfl
    rw [first, first'] at ih
    simp only [List.count_append, List.countP_append]
    omega

/-- When the last pass is next, all tasks that come with the handled nodes are performed. -/
theorem once_of_last (point : Point g tree done (lastPass tree) s) (comes : ComesWith q v)
    (genuine : tree.Genuine g entry) (below : 1 < tree.numberOf v) : done.countP q = 1 := by
  have once := point.once comes
  rw [genuine.count_belowEntry below, comes.lastPass, count_handle_lastPass] at once
  exact once

/-- When the last pass is next and nobody waits, whoever was put somewhere has been answered. -/
theorem balance_of_last (point : Point g tree done (lastPass tree) s)
    (nowhere : ∀ n, v ∉ s.waitingAt n) :
    done.count (.wait v) = done.countP (Task.answers v) := by
  have balance := point.balance v
  have none : (lastPass tree).countP (Task.answers v) = 0 := by
    simp [lastPass, Task.answers, Function.comp_def]
  rw [none, timesWaiting_eq_zero nowhere] at balance
  exact balance

end Point

end Semidominators

end ReachingValues
