import ReachingValues.Proofs.Dominators.Semidominators

/-!
What handling a node does once its semidominator is found: the node is put among those that wait
there, it is hung below its parent, and the nodes that wait at the parent are answered one after
another. Each of these steps is given its own description of the state it leaves.
-/

namespace ReachingValues

open SpanningTree

variable {α : Type} {g : Graph α} {entry : Node} {tree : SpanningTree}

namespace Semidominators

variable {s s' : Semidominators} {limit : Nat} {n p v w : Node} {seen : List Node}

/-- The semidominator of `w` is found and `w` waits there; nothing else has changed since `s`. -/
structure Ready (s st : Semidominators) (g : Graph α) (tree : SpanningTree) (limit : Nat)
    (w : Node) : Prop extends st.Consistent g tree limit where
  semi : tree.Semidominates g (st.semiOf w) w
  semi_eq : ∀ n, n ≠ w → st.semiOf n = s.semiOf n
  dominator_eq : ∀ n, st.dominatorOf n = s.dominatorOf n
  waiting_eq : ∀ n, st.waitingAt n =
    if n = st.semiOf w then w :: s.waitingAt n else s.waitingAt n

/-- The state when the node numbered just above the limit has been hung below its parent: those
that wait at the parent of another node above the limit are numbered lower than that node. -/
structure Hung (s : Semidominators) (g : Graph α) (tree : SpanningTree) (limit : Nat) : Prop
    extends s.Known g tree limit where
  released : ∀ n p v, limit + 1 < tree.numberOf n → tree.parentOf n = some p →
    v ∈ s.waitingAt p → tree.numberOf v < tree.numberOf n

/-- Nobody waits at `p` any more, and of those who did in `s` the nodes in `seen` are answered. -/
structure Answering (s s' : Semidominators) (g : Graph α) (tree : SpanningTree) (limit : Nat)
    (p : Node) (seen : List Node) : Prop extends s'.Consistent g tree limit where
  semi_eq : s'.semi = s.semi
  waiting_eq : ∀ n, s'.waitingAt n = if n = p then [] else s.waitingAt n
  answered : ∀ v ∈ seen, ∃ d, s'.dominatorOf v = some d ∧ Answers s.semiOf g tree v d
  others : ∀ v, v ∉ seen → s'.dominatorOf v = s.dominatorOf v

theorem Considered.wait (considered : Considered s s' g tree limit w (g.predecessors w))
    (semi : tree.Semidominates g (s'.semiOf w) w) (inside : w < g.nodeCount) :
    ∃ st, s'.wait w = .ok st ∧ Ready s st g tree limit w := by
  obtain ⟨st, waited, consistent, semiEq, _, dominatorEq, waits⟩ :=
    considered.toConsistent.wait inside
  have semis : ∀ n, st.semiOf n = s'.semiOf n := fun n => by rw [semiOf, semiOf, semiEq]
  refine ⟨st, waited, consistent, (semis w).symm ▸ semi, fun n other => ?_, fun n => ?_,
    fun n => ?_⟩
  · exact (semis n).trans (considered.semi_eq n other)
  · rw [dominatorOf, dominatorOf, dominatorEq, considered.dominator_eq]
  · have old : s'.waitingAt n = s.waitingAt n := by
      rw [waitingAt, waitingAt, considered.waiting_eq]
    rw [waits, old, semis]

namespace Ready

variable {st : Semidominators} (ready : Ready s st g tree (limit + 1) w)

include ready

theorem origin (member : v ∈ st.waitingAt n) : v = w ∧ n = st.semiOf w ∨ v ∈ s.waitingAt n := by
  rw [ready.waiting_eq] at member
  split at member
  · rename_i same
    exact (List.mem_cons.mp member).imp_left fun first => ⟨first, same⟩
  · exact Or.inr member

theorem stays (before : v ∈ s.waitingAt n) : v ∈ st.waitingAt n := by
  rw [ready.waiting_eq]
  split
  · exact List.mem_cons_of_mem _ before
  · exact before

variable (handled : s.Handled g tree (limit + 1)) (genuine : tree.Genuine g entry)
  (number : tree.numberOf w = limit + 1) (parent : tree.parentOf w = some p)

include handled genuine number parent

/-- An answer for a node of higher number does not depend on what is known of `w` now. -/
theorem answered (beyond : limit + 1 < tree.numberOf v) :
    v ∈ st.waitingAt (st.semiOf v) ∨
      ∃ d, st.dominatorOf v = some d ∧ Answers st.semiOf g tree v d := by
  have kept : st.semiOf v = s.semiOf v := ready.semi_eq v (by rintro rfl; omega)
  refine (handled.answered v beyond).imp (fun waiting => ready.stays (kept.symm ▸ waiting)) ?_
  rintro ⟨d, dominator, answers⟩
  refine ⟨d, (ready.dominator_eq v).trans dominator, answers.congr kept fun lowest => ?_⟩
  refine ready.semi_eq d fun equal => ?_
  rw [equal, handled.untouched w (Nat.le_of_eq number)] at lowest
  have atParent := genuine.parent_spec parent
  exact lowest.ne genuine (by omega) rfl

/-- The node that waits is hung below its parent. -/
theorem attach : ∃ forest, st.forest.attach p w = .ok forest ∧
    ({ st with forest } : Semidominators).Hung g tree limit := by
  have inside := genuine.lt_nodeCount (n := w) (by omega)
  have isRoot : tree.upBeyond (limit + 1) w = none := if_neg (by omega)
  obtain ⟨forest, attached, compresses⟩ := ready.compresses.attach inside isRoot
  rw [upBeyond_pred genuine number parent] at compresses
  have waits : w ∈ st.waitingAt (st.semiOf w) := by
    rw [ready.waiting_eq, if_pos rfl]
    exact List.mem_cons_self
  refine ⟨forest, attached, ⟨⟨ready.semi_size, ready.waiting_size, ready.dominator_size,
    ready.semi_lt, compresses⟩, fun n beyond => ?_, fun n small => ?_, fun n v member => ?_,
    fun v beyond => ?_, fun n small => ?_⟩, fun n q v beyond link member => ?_⟩
  · by_cases same : n = w
    · rw [same]
      exact ready.semi
    · have later := genuine.succ_lt_number number beyond same
      exact (ready.semi_eq n same).symm ▸ handled.done n later
  · have other : n ≠ w := by rintro rfl; omega
    exact (ready.semi_eq n other).trans (handled.untouched n (by omega))
  · rcases ready.origin member with ⟨rfl, same⟩ | before
    · exact ⟨by omega, same.symm⟩
    · obtain ⟨beyond, atN⟩ := handled.waits_at_semi n v before
      exact ⟨by omega, (ready.semi_eq v (by rintro rfl; omega)).trans atN⟩
  · by_cases same : v = w
    · exact Or.inl (same ▸ waits)
    · exact ready.answered handled genuine number parent
        (genuine.succ_lt_number number beyond same)
  · exact (ready.dominator_eq n).trans (handled.unanswered n (by omega))
  · rcases ready.origin member with ⟨rfl, _⟩ | before
    · omega
    · exact handled.released n q v beyond link before

end Ready

/-- When a child of `p` has been hung, the whole way from `p` down to any node of higher number is
in the forest: it cannot begin with a sibling of lower number. -/
theorem lt_number_of_way (genuine : tree.Genuine g entry) (number : tree.numberOf w = limit + 1)
    (parent : tree.parentOf w = some p) (beyond : limit < tree.numberOf v) {y : Node}
    (upper : tree.Above p y) (other : y ≠ p) (lower : tree.Above y v) :
    limit < tree.numberOf y := by
  obtain ⟨c, childOf, above⟩ := upper.child (Ne.symm other)
  have le := genuine.number_le above
  have atC := genuine.parent_spec childOf
  by_cases small : limit < tree.numberOf y
  · exact small
  · have sibling := genuine.interval c w v (above.trans lower) (by omega) (by omega) (by omega)
    obtain ⟨q, link, higher⟩ := sibling.parent (by rintro rfl; omega)
    obtain rfl := Option.some.inj (link.symm.trans parent)
    have bound := genuine.number_le higher
    omega

/-- A node that waits at the parent of the node hung last is answered. -/
theorem answer_ok {st : Semidominators} (consistent : st.Consistent g tree limit)
    (done : ∀ n, limit < tree.numberOf n → tree.Semidominates g (st.semiOf n) n)
    (genuine : tree.Genuine g entry) (positive : 0 < limit) (number : tree.numberOf w = limit + 1)
    (parent : tree.parentOf w = some p) (beyond : limit < tree.numberOf v)
    (semi : st.semiOf v = p) :
    ∃ st', answer tree p st v = .ok st' ∧ st'.Consistent g tree limit ∧ st'.semi = st.semi ∧
      st'.waiting = st.waiting ∧ ∃ d, Answers st.semiOf g tree v d ∧
        ∀ m, st'.dominatorOf m = if m = v then some d else st.dominatorOf m := by
  have inside := genuine.lt_nodeCount (n := v) (by omega)
  obtain ⟨low, forest, run, again, insideLow, _, best⟩ :=
    consistent.lowest genuine positive inside
  obtain ⟨above, beyondLow, least⟩ := best beyond
  have room : v < st.dominator.size := by rw [consistent.dominator_size]; exact inside
  have semiLow : fetch st.semi low = .ok (st.semiOf low) := consistent.fetch_semi insideLow
  have semiV : fetch st.semi v = .ok (st.semiOf v) := consistent.fetch_semi inside
  obtain ⟨found, choice, answers⟩ : ∃ found,
      found = (if st.semiOf low = st.semiOf v then p else low) ∧
        Answers st.semiOf g tree v found := by
    refine ⟨_, rfl, ?_⟩
    have atV := done v beyond
    have onWay : tree.Above p v := semi ▸ atV.above genuine (by omega)
    have parentLess := (genuine.parent_spec parent).2.2
    have clear : tree.Clear g (tree.numberOf (st.semiOf low)) p v := by
      intro x y start detour upper other lower
      have beyondY := lt_number_of_way genuine number parent beyond upper other lower
      exact Nat.le_trans (least y lower beyondY) ((done y beyondY).least x start detour)
    by_cases same : st.semiOf low = st.semiOf v
    · rw [if_pos same]
      refine Or.inl ⟨semi.symm, ?_⟩
      rw [same, semi] at clear
      rw [semi]
      exact clear
    · rw [if_neg same]
      have below := genuine.above_of_le onWay above (by omega) (by omega)
      refine Or.inr ⟨?_, ?_, semi ▸ below, above, done low beyondLow, semi ▸ clear⟩
      · rintro rfl
        rw [semi] at beyondLow
        omega
      · rintro rfl
        exact same rfl
  refine ⟨{ st with forest, dominator := st.dominator.setIfInBounds v (some found) }, ?_, ?_, rfl,
    rfl, found, answers, fun m => getD_setIfInBounds room m _ none⟩
  · rw [answer, run, ok_bind, choice]
    simp only [semiLow, semiV, ok_bind, store_eq room, pure_eq_ok]
  · refine ⟨again.semi_size, again.waiting_size, ?_, again.semi_lt, again.compresses⟩
    rw [Array.size_setIfInBounds, consistent.dominator_size]

/-- The nodes that wait at `p` are taken from there. -/
theorem Known.open (known : s.Known g tree limit) (inside : p < g.nodeCount) :
    fetch s.waiting p = .ok (s.waitingAt p) ∧ ∃ waiting, store s.waiting p [] = .ok waiting ∧
      Answering s { s with waiting } g tree limit p [] := by
  have room : p < s.waiting.size := by rw [known.waiting_size]; exact inside
  have size : (s.waiting.setIfInBounds p []).size = g.nodeCount := by
    rw [Array.size_setIfInBounds, known.waiting_size]
  exact ⟨fetch_eq room [], _, store_eq room _,
    ⟨known.semi_size, size, known.dominator_size, known.semi_lt, known.compresses⟩, rfl,
    fun n => getD_setIfInBounds room n [] [], by simp, fun _ _ => rfl⟩

namespace Answering

variable (answering : Answering s s' g tree limit p seen)

include answering

theorem semiOf_eq : s'.semiOf = s.semiOf := by
  funext m
  rw [semiOf, semiOf, answering.semi_eq]

/-- One more of the nodes that waited is answered. -/
theorem step (known : s.Known g tree limit) (genuine : tree.Genuine g entry) (positive : 0 < limit)
    (number : tree.numberOf w = limit + 1) (parent : tree.parentOf w = some p)
    (waited : v ∈ s.waitingAt p) :
    ∃ later, answer tree p s' v = .ok later ∧
      Answering s later g tree limit p (seen ++ [v]) := by
  obtain ⟨beyond, atP⟩ := known.waits_at_semi p v waited
  have semis := answering.semiOf_eq
  obtain ⟨later, run, after, semi, waiting, d, answers, dominators⟩ :=
    answer_ok answering.toConsistent (fun n more => semis ▸ known.done n more) genuine positive
      number parent beyond (by rw [semis, atP])
  refine ⟨later, run, after, semi.trans answering.semi_eq, fun n => ?_, fun u member => ?_,
    fun u absent => ?_⟩
  · rw [waitingAt, waiting]
    exact answering.waiting_eq n
  · rw [dominators]
    by_cases same : u = v
    · rw [if_pos same, same]
      exact ⟨d, rfl, semis ▸ answers⟩
    · rw [if_neg same]
      exact answering.answered u (by simpa [same] using member)
  · simp only [List.mem_append, List.mem_singleton, not_or] at absent
    rw [dominators, if_neg absent.2]
    exact answering.others u absent.1

/-- When all that waited are answered, the node that was hung last is handled. -/
theorem handled (hung : s.Hung g tree limit) (genuine : tree.Genuine g entry)
    (number : tree.numberOf w = limit + 1) (parent : tree.parentOf w = some p)
    (all : ∀ v, v ∈ seen ↔ v ∈ s.waitingAt p) : s'.Handled g tree limit := by
  have semis := answering.semiOf_eq
  have stayed : ∀ n v, v ∈ s'.waitingAt n → n ≠ p ∧ v ∈ s.waitingAt n := fun n v member => by
    rw [answering.waiting_eq] at member
    split at member
    · cases member
    · rename_i other
      exact ⟨other, member⟩
  refine ⟨⟨answering.toConsistent, ?_, ?_, fun n v member => ?_, fun v beyond => ?_,
    fun n small => ?_⟩, fun n q v beyond link member => ?_⟩
  · rw [semis]
    exact hung.done
  · rw [semis]
    exact hung.untouched
  · rw [semis]
    exact hung.waits_at_semi n v (stayed n v member).2
  · rw [semis]
    by_cases waited : v ∈ s.waitingAt p
    · exact Or.inr (answering.answered v ((all v).mpr waited))
    · rw [answering.others v (mt (all v).mp waited), answering.waiting_eq]
      refine (hung.answered v beyond).imp_left fun member => ?_
      rwa [if_neg]
      rintro same
      exact waited (same ▸ member)
  · have absent : n ∉ seen := fun member => by
      have beyond := (hung.waits_at_semi p n ((all n).mp member)).1
      omega
    exact (answering.others n absent).trans (hung.unanswered n small)
  · obtain ⟨other, before⟩ := stayed q v member
    have notW : n ≠ w := by
      rintro rfl
      exact other (Option.some.inj (link.symm.trans parent))
    exact hung.released n q v (genuine.succ_lt_number number beyond notW) link before

end Answering

/-- Answering all nodes that wait at the parent of the node hung last. -/
theorem Hung.release (hung : s.Hung g tree limit) (genuine : tree.Genuine g entry)
    (positive : 0 < limit) (number : tree.numberOf w = limit + 1)
    (parent : tree.parentOf w = some p) :
    ∃ s', release tree s p = .ok s' ∧ s'.Handled g tree limit := by
  have inside := genuine.lt_nodeCount (genuine.parent_spec parent).2.1
  obtain ⟨known, waiting, emptied, start⟩ := hung.toKnown.open inside
  obtain ⟨s', run, answering⟩ := foldlM_ok (answer tree p) (s.waitingAt p).reverse
    { s with waiting } (fun seen s' => Answering s s' g tree limit p seen) start
    fun seen v rest state split answering =>
      answering.step hung.toKnown genuine positive number parent
        (List.mem_reverse.mp (by simp [split]))
  refine ⟨s', ?_, answering.handled hung genuine number parent fun v => List.mem_reverse⟩
  rw [Semidominators.release, known, ok_bind, emptied, ok_bind]
  exact run

/-- Handling the node of the highest number that is not done. -/
theorem Handled.handle (handled : s.Handled g tree (limit + 1)) (genuine : tree.Genuine g entry)
    (number : tree.numberOf w = limit + 1) (positive : 0 < limit) :
    ∃ s', handle g tree s w = .ok s' ∧ s'.Handled g tree limit := by
  obtain ⟨p, parent, edge, numbered, less⟩ := genuine.parent_some w (by omega)
  have inside := genuine.lt_nodeCount (n := w) (by omega)
  have room : w < tree.parent.size := by rwa [tree.parent_size, genuine.size_eq]
  obtain ⟨s₁, considered, found, semi⟩ := handled.consider genuine number (by omega)
  obtain ⟨st, waited, ready⟩ := found.wait semi inside
  obtain ⟨forest, attached, hung⟩ := ready.attach handled genuine number parent
  obtain ⟨s', released, again⟩ := hung.release genuine positive number parent
  refine ⟨s', ?_, again⟩
  have link : fetch tree.parent w = .ok (some p) := parent ▸ fetch_eq room none
  rw [Semidominators.handle, link, ok_bind]
  simp only [considered, waited, attached, ok_bind]
  exact released

end Semidominators

end ReachingValues
