import Mathlib.Data.List.Perm.Subperm
import ReachingValues.Proofs.Dominators.Tree

/-!
Questions about dominance are answered on the way up. The links lead from a reached node to the
entry and no further, and the nodes they pass are the dominators of the node, each below the ones
that follow.
-/

namespace ReachingValues

variable {α : Type} {g : Graph α} {entry a b d n : Node} {way : List Node}

namespace Graph

/-- The nodes of a list are the dominators of a node, from the node itself up to the entry. -/
structure DominatorChain (g : Graph α) (entry n : Node) (way : List Node) : Prop where
  head_eq : way.head? = some n
  last_eq : way.getLast? = some entry
  nodup : way.Nodup
  mem_iff : ∀ a, a ∈ way ↔ g.Dominates entry a n
  ordered : way.Pairwise fun lower upper => g.Dominates entry upper lower

namespace DominatorChain

theorem of_entry (inside : g.contains entry) : g.DominatorChain entry entry [entry] where
  head_eq := rfl
  last_eq := rfl
  nodup := List.pairwise_singleton _ _
  mem_iff a := by
    rw [List.mem_singleton]
    constructor
    · rintro rfl
      exact .refl (.refl inside)
    · exact fun dominates => List.mem_singleton.mp (dominates.2 _ (.here inside))
  ordered := List.pairwise_singleton _ _

/-- The dominators of a node are those of its immediate dominator, and the node itself. -/
theorem below (chain : g.DominatorChain entry d way)
    (immediate : g.ImmediatelyDominates entry d n) : g.DominatorChain entry n (n :: way) where
  head_eq := rfl
  last_eq := by rw [List.getLast?_cons, chain.last_eq, Option.getD_some]
  nodup := by
    refine List.nodup_cons.mpr ⟨fun member => ?_, chain.nodup⟩
    have upper := (chain.mem_iff n).mp member
    exact immediate.strict.1 (immediate.strict.2.antisymm upper)
  mem_iff a := by
    rw [List.mem_cons, chain.mem_iff, ← immediate.strictlyDominates_iff]
    constructor
    · rintro (rfl | strict)
      · exact .refl immediate.strict.2.1
      · exact strict.2
    · intro dominates
      by_cases same : a = n
      · exact Or.inl same
      · exact Or.inr ⟨same, dominates⟩
  ordered := List.pairwise_cons.mpr ⟨fun a member =>
    ((chain.mem_iff a).mp member).trans immediate.strict.2, chain.ordered⟩

/-- No node is passed twice, so there are not more of them than nodes. -/
theorem length_le (chain : g.DominatorChain entry n way) : way.length ≤ g.nodeCount := by
  have subset : way ⊆ g.nodes := fun a member => by
    have reach := ((chain.mem_iff a).mp member).reaches
    exact List.mem_range.mpr (contains_iff.mp reach.contains.2)
  have bound := (chain.nodup.subperm subset).length_le
  rwa [nodes, List.length_range] at bound

end DominatorChain

end Graph

namespace DominatorTree

variable {t : DominatorTree}

/-- The node that follows on the way up; after the entry there is none. Any other node needs a
link. -/
def ascend (t : DominatorTree) (n : Node) : Except Fault (Option Node) := do
  if n = t.entry then return none
  match ← fetch t.links n with
  | none => .error (.missingLink n)
  | some above => return some above

/-- Where the way up from `n` begins, if there is one. -/
def foot (t : DominatorTree) (n : Node) : Option Node := if t.isReachable n then some n else none

/-- A way up to its end, followed without a bound on its length. -/
inductive Ascent (t : DominatorTree) : Option Node → List Node → Prop
  | done : Ascent t none []
  | next {n : Node} {above : Option Node} {way : List Node} :
      t.ascend n = .ok above → Ascent t above way → Ascent t (some n) (n :: way)

namespace Faithful

variable (faithful : t.Faithful g entry)

include faithful

theorem ascend_entry : t.ascend entry = .ok none := by
  rw [ascend, if_pos faithful.entry_eq.symm]
  rfl

theorem ascend_of_immediatelyDominates (immediate : g.ImmediatelyDominates entry d n) :
    t.ascend n = .ok (some d) := by
  have link := (faithful.immediateDominator_iff n d).mpr immediate
  have other : n ≠ t.entry := faithful.entry_eq.symm ▸ immediate.strict.ne_entry
  have inside : n < t.nodeCount := by
    rw [faithful.nodeCount_eq]
    exact Graph.contains_iff.mp immediate.strict.2.1.contains.2
  have known : fetch t.links n = .ok (some d) := link ▸ fetch_eq inside none
  rw [ascend, if_neg other, known]
  rfl

theorem immediateDominator_of_ascend {above : Option Node} (step : t.ascend n = .ok above) :
    t.immediateDominator n = above := by
  rw [ascend] at step
  split at step
  · rename_i same
    obtain rfl := Except.ok.inj step
    exact faithful.immediateDominator_eq_none (Or.inl (same.trans faithful.entry_eq))
  · obtain ⟨link, known, last⟩ := bind_eq_ok_iff.mp step
    cases link with
    | none => cases last
    | some d =>
      obtain rfl := Except.ok.inj last
      rw [immediateDominator, fetch_eq_ok_iff.mp known]
      rfl

/-- A bound on the length of a way up cuts nothing off, if the way is not longer. -/
theorem elim_upwardsWithin {foot : Option Node} {steps : Nat} (ascent : t.Ascent foot way)
    (enough : way.length ≤ steps) : foot.elim [] (t.upwardsWithin steps) = way := by
  induction ascent generalizing steps with
  | done => rfl
  | @next n above way step rest ih =>
    rw [List.length_cons] at enough
    obtain ⟨steps, rfl⟩ := Nat.exists_eq_add_one_of_ne_zero (n := steps) (by omega)
    have onward := ih (Nat.le_of_succ_le_succ enough)
    rw [Option.elim_some, upwardsWithin, faithful.immediateDominator_of_ascend step, ← onward]
    cases above <;> rfl

/-- The way up from a reached node passes its dominators. -/
theorem exists_ascent (reach : g.Reaches entry n) :
    ∃ way, t.Ascent (some n) way ∧ g.DominatorChain entry n way := by
  refine Graph.Reaches.dominator_induct reach ?_ ?_
  · exact ⟨[entry], .next faithful.ascend_entry .done, .of_entry reach.contains.1⟩
  · rintro d c immediate ⟨way, ascent, chain⟩
    exact ⟨c :: way, .next (faithful.ascend_of_immediatelyDominates immediate) ascent,
      chain.below immediate⟩

theorem dominators_of_reaches (reach : g.Reaches entry n) :
    t.Ascent (t.foot n) (t.dominators n) ∧ g.DominatorChain entry n (t.dominators n) := by
  obtain ⟨way, ascent, chain⟩ := faithful.exists_ascent reach
  have known := (faithful.isReachable_iff n).mpr reach
  have same : t.dominators n = way := by
    have whole := faithful.elim_upwardsWithin ascent (faithful.nodeCount_eq ▸ chain.length_le)
    rwa [dominators, if_pos known]
  rw [same, foot, if_pos known]
  exact ⟨ascent, chain⟩

theorem dominators_of_not_reaches (unreached : ¬ g.Reaches entry n) :
    t.foot n = none ∧ t.dominators n = [] := by
  have unknown : ¬ t.isReachable n := fun known => unreached ((faithful.isReachable_iff n).mp known)
  exact ⟨if_neg unknown, if_neg unknown⟩

theorem mem_dominators_iff : a ∈ t.dominators b ↔ g.Dominates entry a b := by
  by_cases reach : g.Reaches entry b
  · exact (faithful.dominators_of_reaches reach).2.mem_iff a
  · rw [(faithful.dominators_of_not_reaches reach).2]
    exact ⟨fun member => (nomatch member), fun dominates => absurd dominates.1 reach⟩

theorem dominates_iff : t.dominates a b ↔ g.Dominates entry a b := by
  simp only [dominates, Bool.and_eq_true, List.contains_iff_mem, faithful.mem_dominators_iff,
    faithful.isReachable_iff, and_iff_right_iff_imp]
  exact fun dominates => ⟨dominates.reaches, dominates.1⟩

end Faithful

end DominatorTree

/-- For every graph and entry there is a tree whose answers on dominance are those of the paths, and
along which every way up is finite and lists the dominators of its first node. -/
theorem Graph.dominance_queries (g : Graph α) (entry : Node) :
    ∃ t, g.dominatorTree entry = .ok t ∧
      (∀ a b, t.dominates a b ↔ g.Dominates entry a b) ∧
      (∀ a b, t.strictlyDominates a b ↔ a ≠ b ∧ g.Dominates entry a b) ∧
      ∀ b, t.Ascent (t.foot b) (t.dominators b) ∧
        (¬ g.contains b ∨ ¬ g.Reaches entry b → t.dominators b = []) ∧
        (g.Reaches entry b → (t.dominators b).head? = some b ∧
          (t.dominators b).getLast? = some entry) ∧
        (t.dominators b).Nodup ∧
        (∀ a, a ∈ t.dominators b ↔ g.Dominates entry a b) ∧
        (t.dominators b).Pairwise fun lower upper => g.Dominates entry upper lower := by
  obtain ⟨t, run, faithful⟩ := g.dominatorTree_faithful entry
  refine ⟨t, run, fun a b => faithful.dominates_iff, fun a b => ?_, fun b => ?_⟩
  · rw [DominatorTree.strictlyDominates, Bool.and_eq_true, bne_iff_ne, faithful.dominates_iff]
  by_cases reach : g.Reaches entry b
  · obtain ⟨ascent, chain⟩ := faithful.dominators_of_reaches reach
    refine ⟨ascent, fun outside => ?_, fun _ => ⟨chain.head_eq, chain.last_eq⟩, chain.nodup,
      chain.mem_iff, chain.ordered⟩
    exact absurd reach (outside.elim (fun unknown reach => unknown reach.contains.2) id)
  · obtain ⟨start, none⟩ := faithful.dominators_of_not_reaches reach
    rw [start, none]
    refine ⟨.done, fun _ => rfl, fun reached => absurd reached reach, .nil, fun a => ?_, .nil⟩
    rw [← faithful.mem_dominators_iff, none]

end ReachingValues
