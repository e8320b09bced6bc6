import ReachingValues.Proofs.Dominators.SpanningTree
import ReachingValues.Proofs.Graph.Dominance

/-!
A detour leads to a node through nodes of higher numbers only. The lowest node from which a detour
leads to `w` is the semidominator of `w`. It is an ancestor of `w`, and it is the immediate
dominator unless some node between the two is entered by a detour from even higher up; the node
whose semidominator is lowest then shares its immediate dominator with `w`.
-/

namespace ReachingValues

namespace SpanningTree

variable {α : Type} {g : Graph α} {entry : Node} {t : SpanningTree}

/-- A path of at least one edge whose inner nodes are all numbered higher than its last node. -/
inductive Detour (t : SpanningTree) (g : Graph α) : Node → Node → Prop where
  | edge {v w : Node} : w ∈ g.successors v → Detour t g v w
  | step {v m w : Node} : m ∈ g.successors v → t.numberOf w < t.numberOf m → Detour t g m w →
      Detour t g v w

namespace Detour

variable {u v w x : Node}

theorem trans (first : t.Detour g x u) (less : t.numberOf w < t.numberOf u)
    (second : t.Detour g u w) : t.Detour g x w := by
  induction first with
  | edge edge => exact .step edge less second
  | step edge more _ ih => exact .step edge (Nat.lt_trans less more) (ih less second)

theorem path (detour : t.Detour g v w) :
    ∃ visited, g.Path v visited w ∧ ∀ n ∈ visited, n = v ∨ n = w ∨ t.numberOf w < t.numberOf n := by
  induction detour with
  | @edge v w edge =>
    exact ⟨[v, w], .step edge (.here (Graph.contains_of_mem_successors edge).2), by simp⟩
  | @step v m w edge more rest ih =>
    obtain ⟨visited, path, inner⟩ := ih
    refine ⟨v :: visited, .step edge path, fun n member => ?_⟩
    rcases List.mem_cons.mp member with rfl | later
    · exact Or.inl rfl
    · rcases inner n later with rfl | rest
      · exact Or.inr (Or.inr more)
      · exact Or.inr rest

section

variable (genuine : t.Genuine g entry)

include genuine

/-- A detour stays below every node above its start that is numbered lower than its end. -/
theorem stays_below (detour : t.Detour g v w) (above : t.Above u v) (numbered : 0 < t.numberOf u)
    (less : t.numberOf u < t.numberOf w) : t.Above u w := by
  induction detour with
  | @edge v w edge =>
    have source : 0 < t.numberOf v := Nat.lt_of_lt_of_le numbered (genuine.number_le above)
    by_cases forward : t.numberOf v < t.numberOf w
    · exact above.trans (genuine.forward v w edge source forward)
    · exact genuine.interval u w v above numbered (by omega) (by omega)
  | @step v m w edge more rest ih =>
    have source : 0 < t.numberOf v := Nat.lt_of_lt_of_le numbered (genuine.number_le above)
    by_cases forward : t.numberOf v < t.numberOf m
    · exact ih (above.trans (genuine.forward v m edge source forward)) less
    · exact ih (genuine.interval u m v above numbered (by omega) (by omega)) less

theorem above_of_lt (detour : t.Detour g v w) (numbered : 0 < t.numberOf v)
    (less : t.numberOf v < t.numberOf w) : t.Above v w :=
  detour.stays_below genuine .here numbered less

/-- A detour may begin further up as long as that is below its end in number. -/
theorem from_above (detour : t.Detour g v w) (above : t.Above u v)
    (less : t.numberOf w < t.numberOf u) : t.Detour g u w := by
  induction above with
  | here => exact detour
  | @up p n parent rest ih =>
    obtain ⟨edge, _, lower⟩ := genuine.parent_spec parent
    have bound := genuine.number_le rest
    exact ih (.step edge (by omega) detour)

/-- The last edge of a detour leaves its start or some node below one that the detour has reached by
a detour of its own. -/
theorem last_edge (detour : t.Detour g x w) (numbered : 0 < t.numberOf x) :
    ∃ v, w ∈ g.successors v ∧
      (v = x ∨ ∃ u, t.numberOf w < t.numberOf u ∧ t.Above u v ∧ t.Detour g x u) := by
  induction detour with
  | @edge v w edge => exact ⟨v, edge, Or.inl rfl⟩
  | @step x m w edge more rest ih =>
    obtain ⟨v, last, same | ⟨u, higher, above, inner⟩⟩ := ih (by omega)
    · subst same
      exact ⟨v, last, Or.inr ⟨v, more, .here, .edge edge⟩⟩
    · by_cases less : t.numberOf u < t.numberOf m
      · exact ⟨v, last, Or.inr ⟨u, higher, above, .step edge less inner⟩⟩
      · refine ⟨v, last, Or.inr ⟨m, more, ?_, .edge edge⟩⟩
        by_cases same : t.numberOf m = t.numberOf u
        · rwa [genuine.eq_of_number_eq (by omega) same]
        · exact (inner.above_of_lt genuine (by omega) (by omega)).trans above

end

end Detour

/-- The lowest reached node from which a detour leads to `w`. -/
structure Semidominates (t : SpanningTree) (g : Graph α) (s w : Node) : Prop where
  numbered : 0 < t.numberOf s
  detour : t.Detour g s w
  least : ∀ v, 0 < t.numberOf v → t.Detour g v w → t.numberOf s ≤ t.numberOf v

namespace Semidominates

theorem unique {s s' w : Node} (genuine : t.Genuine g entry) (one : t.Semidominates g s w)
    (other : t.Semidominates g s' w) : s = s' :=
  genuine.eq_of_number_eq one.numbered (Nat.le_antisymm
    (one.least s' other.numbered other.detour) (other.least s one.numbered one.detour))

variable {s w : Node} (genuine : t.Genuine g entry) (semi : t.Semidominates g s w)
  (below : 1 < t.numberOf w)

include genuine semi below

theorem number_lt : t.numberOf s < t.numberOf w := by
  obtain ⟨p, _, edge, numbered, less⟩ := genuine.parent_some w below
  exact Nat.lt_of_le_of_lt (semi.least p numbered (.edge edge)) less

theorem above : t.Above s w :=
  semi.detour.above_of_lt genuine semi.numbered (semi.number_lt genuine below)

theorem ne : s ≠ w := by
  rintro rfl
  exact Nat.lt_irrefl _ (semi.number_lt genuine below)

end Semidominates

/-- The semidominator is a minimum over the edges that enter `w`: over their sources, and over the
semidominators of all nodes of higher number above the sources. -/
theorem Genuine.semidominates (genuine : t.Genuine g entry) {s w : Node} {semi : Node → Node}
    (done : ∀ u, t.numberOf w < t.numberOf u → t.Semidominates g (semi u) u)
    (below : 1 < t.numberOf w) (numbered : 0 < t.numberOf s) (detour : t.Detour g s w)
    (sources : ∀ v, w ∈ g.successors v → 0 < t.numberOf v → t.numberOf v ≤ t.numberOf w →
      t.numberOf s ≤ t.numberOf v)
    (higher : ∀ v u, w ∈ g.successors v → t.numberOf w < t.numberOf u → t.Above u v →
      t.numberOf s ≤ t.numberOf (semi u)) : t.Semidominates g s w := by
  refine ⟨numbered, detour, fun x start leads => ?_⟩
  obtain ⟨v, last, rfl | ⟨u, more, above, inner⟩⟩ := leads.last_edge genuine start
  · by_cases less : t.numberOf v ≤ t.numberOf w
    · exact sources v last start less
    · have atSource := higher v v last (by omega) .here
      have bound := (done v (by omega)).number_lt genuine (by omega)
      omega
  · exact Nat.le_trans (higher v u last more above) ((done u more).least x start inner)

namespace Spans

variable (spans : t.Spans g entry) {d e n s u w x y : Node} {visited : List Node}

include spans

theorem entry_above (numbered : 0 < t.numberOf n) : t.Above entry n := by
  induction size : t.numberOf n using Nat.strongRecOn generalizing n with
  | ind size ih =>
    subst size
    by_cases root : t.numberOf n ≤ 1
    · rw [spans.first n (by omega)]
      exact .here
    · obtain ⟨p, parent, _, parentNumbered, lower⟩ := spans.parent_some n (by omega)
      exact .up parent (ih _ lower parentNumbered rfl)

theorem below_iff (n : Node) : 1 < t.numberOf n ↔ n ≠ entry ∧ g.Reaches entry n := by
  rw [← spans.numbered_iff]
  refine ⟨fun below => ⟨?_, by omega⟩, fun ⟨other, numbered⟩ => ?_⟩
  · rintro rfl
    obtain ⟨p, _, _, numbered, less⟩ := spans.parent_some n below
    have bound := spans.number_le (spans.entry_above numbered)
    omega
  · have unequal : t.numberOf n ≠ 1 := fun one => other (spans.first n one)
    omega

theorem numbered_of_mem_successors (numbered : 0 < t.numberOf n) (edge : w ∈ g.successors n) :
    0 < t.numberOf w :=
  (spans.numbered_iff w).mpr (((spans.numbered_iff n).mp numbered).step edge)

theorem above_of_dominates (dominates : g.Dominates entry d n) : t.Above d n := by
  have numbered := (spans.numbered_iff n).mpr dominates.1
  obtain ⟨visited, path, between⟩ := spans.path (spans.entry_above numbered) numbered
  exact (between d (dominates.2 visited path)).2

/-- A dominator also dominates what lies below it on the way down to the dominated node. -/
theorem dominates_between (dominates : g.Dominates entry d w) (upper : t.Above d s)
    (lower : t.Above s w) : g.Dominates entry d s := by
  have numbered := (spans.numbered_iff w).mpr dominates.1
  have atS := spans.numbered_of_above lower numbered
  refine ⟨(spans.numbered_iff s).mp atS, fun visited path => ?_⟩
  obtain ⟨down, rest, between⟩ := spans.path lower numbered
  obtain ⟨joined, whole, members⟩ := path.append rest
  rcases (members d).mp (dominates.2 joined whole) with early | late
  · exact early
  · have same := spans.eq_of_above upper atS (spans.number_le (between d late).1)
    rw [same]
    exact path.target_mem

/-- No strict dominator lies between a node and its semidominator. -/
theorem dominates_semidominator (semi : t.Semidominates g s w) (below : 1 < t.numberOf w)
    (strict : g.StrictlyDominates entry d w) : g.Dominates entry d s := by
  have above := spans.above_of_dominates strict.2
  obtain ⟨upper, toS, higher⟩ := spans.path (spans.entry_above semi.numbered) semi.numbered
  obtain ⟨lower, fromS, inner⟩ := semi.detour.path
  obtain ⟨joined, whole, members⟩ := toS.append fromS
  have aboveS : t.Above d s := by
    rcases (members d).mp (strict.2.2 joined whole) with early | late
    · exact (higher d early).2
    · rcases inner d late with rfl | same | more
      · exact .here
      · exact absurd same strict.1
      · have bound := spans.number_le above
        omega
  exact spans.dominates_between strict.2 aboveS (semi.above spans.toGenuine below)

/-- A path down to `w` that misses the ancestor `e` of `w` passes `e` by: a detour leads from above
`e` to below it. The last case says what a part of such a path looks like that begins below `e`. -/
theorem path_cases (above : t.Above e w) (path : g.Path n visited w) (numbered : 0 < t.numberOf n) :
    e ∈ visited ∨
      (∃ x y, 0 < t.numberOf x ∧ t.numberOf x < t.numberOf e ∧ t.Detour g x y ∧
        t.Above e y ∧ y ≠ e ∧ t.Above y w) ∨
      t.numberOf e < t.numberOf n ∧ ∃ y, t.Above e y ∧ y ≠ e ∧ t.Above y w ∧
        (n = y ∨ t.numberOf y < t.numberOf n ∧ t.Detour g n y) := by
  induction path with
  | @here w inside =>
    by_cases same : e = w
    · exact Or.inl (by simp [same])
    · have less := spans.number_lt above numbered same
      exact Or.inr (Or.inr ⟨less, w, above, Ne.symm same, .here, Or.inl rfl⟩)
  | @step n m w visited edge rest ih =>
    rcases ih above (spans.numbered_of_mem_successors numbered edge) with
      member | passed | ⟨less, y, upper, other, lower, reached⟩
    · exact Or.inl (List.mem_cons_of_mem _ member)
    · exact Or.inr (Or.inl passed)
    have detour : t.Detour g n y := by
      rcases reached with rfl | ⟨more, rest⟩
      · exact .edge edge
      · exact .step edge more rest
    rcases Nat.lt_trichotomy (t.numberOf n) (t.numberOf e) with higher | same | deeper
    · exact Or.inr (Or.inl ⟨n, y, numbered, higher, detour, upper, other, lower⟩)
    · rw [spans.eq_of_number_eq numbered same]
      exact Or.inl List.mem_cons_self
    · refine Or.inr (Or.inr ⟨deeper, ?_⟩)
      by_cases before : t.numberOf n < t.numberOf y
      · -- the path comes to the way from `e` to `w` at `n` already
        have onWay := detour.above_of_lt spans.toGenuine numbered before
        have belowE := spans.above_of_le upper onWay (by omega) (by omega)
        exact ⟨n, belowE, by rintro rfl; omega, onWay.trans lower, Or.inl rfl⟩
      · by_cases arrived : n = y
        · exact ⟨y, upper, other, lower, Or.inl arrived⟩
        · have unequal : t.numberOf n ≠ t.numberOf y :=
            fun same => arrived (spans.eq_of_number_eq numbered same)
          exact ⟨y, upper, other, lower, Or.inr ⟨by omega, detour⟩⟩

/-- An ancestor of a node dominates it unless it is passed by. -/
theorem dominates_of_not_passed (numbered : 0 < t.numberOf w) (above : t.Above e w)
    (kept : ∀ x y, 0 < t.numberOf x → t.numberOf x < t.numberOf e → t.Detour g x y →
      t.Above e y → y ≠ e → ¬ t.Above y w) : g.Dominates entry e w := by
  have top := spans.entry_above numbered
  have ancestor := spans.numbered_of_above above numbered
  refine ⟨(spans.numbered_iff w).mp numbered, fun visited path => ?_⟩
  rcases spans.path_cases above path (spans.numbered_of_above top numbered) with
    member | ⟨x, y, start, higher, detour, upper, other, lower⟩ | ⟨deeper, _⟩
  · exact member
  · exact absurd lower (kept x y start higher detour upper other)
  · have bound := spans.number_le (spans.entry_above ancestor)
    omega

/-- A detour that passes `e` by can be made part of a path, so `e` is no dominator below its end. -/
theorem not_dominates_of_passed (numbered : 0 < t.numberOf u) (start : 0 < t.numberOf x)
    (higher : t.numberOf x < t.numberOf e) (detour : t.Detour g x y) (upper : t.Above e y)
    (other : y ≠ e) (lower : t.Above y u) : ¬ g.Dominates entry e u := by
  intro dominates
  obtain ⟨first, toX, aboveX⟩ := spans.path (spans.entry_above start) start
  obtain ⟨second, toY, inner⟩ := detour.path
  obtain ⟨third, toU, belowY⟩ := spans.path lower numbered
  obtain ⟨front, toY', frontMembers⟩ := toX.append toY
  obtain ⟨whole, path, members⟩ := toY'.append toU
  have bound := spans.number_le upper
  rcases (members e).mp (dominates.2 whole path) with early | late
  · rcases (frontMembers e).mp early with first | second
    · have top := spans.number_le (aboveX e first).2
      omega
    · rcases inner e second with rfl | same | more
      · omega
      · exact other same.symm
      · omega
  · have atE := spans.numbered_of_above upper (spans.numbered_of_above lower numbered)
    have back := spans.number_le (belowY e late).1
    exact other (spans.eq_of_above (belowY e late).1 atE bound)

end Spans

/-- No detour from a node numbered below `bound` ends strictly below `s` and above `w`. -/
def Clear (t : SpanningTree) (g : Graph α) (bound : Nat) (s w : Node) : Prop :=
  ∀ x y, 0 < t.numberOf x → t.Detour g x y → t.Above s y → y ≠ s → t.Above y w →
    bound ≤ t.numberOf x

namespace Semidominates

variable {s u v w e : Node}

/-- If the way from the semidominator is entered only from below it, it is the immediate
dominator. -/
theorem immediatelyDominates (semi : t.Semidominates g s w) (spans : t.Spans g entry)
    (below : 1 < t.numberOf w) (clear : t.Clear g (t.numberOf s) s w) :
    g.ImmediatelyDominates entry s w := by
  have above := semi.above spans.toGenuine below
  refine ⟨⟨semi.ne spans.toGenuine below, ?_⟩, fun d => spans.dominates_semidominator semi below⟩
  refine spans.dominates_of_not_passed (by omega) above ?_
  intro x y start higher detour upper other lower
  have bound := clear x y start detour upper other lower
  omega

/-- Otherwise a node on that way whose semidominator is lowest has the same immediate dominator. -/
theorem immediatelyDominates_of_lowest (semi : t.Semidominates g s w) (spans : t.Spans g entry)
    (below : 1 < t.numberOf w) (upper : t.Above s u) (other : u ≠ s) (lower : t.Above u w)
    (lowest : t.Semidominates g v u) (clear : t.Clear g (t.numberOf v) s w)
    (immediate : g.ImmediatelyDominates entry e u) : g.ImmediatelyDominates entry e w := by
  have atU := spans.numbered_of_above lower (by omega)
  have lessU := spans.number_lt upper atU (Ne.symm other)
  have leU := spans.number_le lower
  have belowU : 1 < t.numberOf u := by have := semi.numbered; omega
  have aboveV := spans.above_of_dominates
    (spans.dominates_semidominator lowest belowU immediate.strict)
  have bound := spans.number_le aboveV
  have lessV := lowest.number_lt spans.toGenuine belowU
  have aboveE := spans.above_of_dominates immediate.strict.2
  refine ⟨⟨by rintro rfl; omega, ?_⟩, fun d strict => ?_⟩
  · refine spans.dominates_of_not_passed (by omega) (aboveE.trans lower) ?_
    intro x y start higher detour belowE different aboveW
    have aboveS : t.Above y s := by
      have aboveSW := semi.above spans.toGenuine below
      by_cases le : t.numberOf y ≤ t.numberOf s
      · exact spans.above_of_le aboveW aboveSW (by omega) le
      · have belowS := spans.above_of_le aboveSW aboveW (by omega) (by omega)
        have late := clear x y start detour belowS (by rintro rfl; omega) aboveW
        omega
    exact spans.not_dominates_of_passed atU start higher detour belowE different
      (aboveS.trans upper) immediate.strict.2
  · have aboveS := spans.above_of_dominates (spans.dominates_semidominator semi below strict)
    have le := spans.number_le aboveS
    refine immediate.lowest d ⟨by rintro rfl; omega, ?_⟩
    exact spans.dominates_between strict.2 (aboveS.trans upper) lower

end Semidominates

end SpanningTree

end ReachingValues
