import Mathlib.Logic.Relation
import ReachingValues.Proofs.Tree.Shape
import ReachingValues.Tree.Walk

/-!
A walk visits exactly the nodes below the root, each once, and each after one that lists it, be the
view a tree or not.
-/

namespace ReachingValues

namespace Order

@[simp] theorem mem_join {order : Order} {children waiting : List Node} {n : Node} :
    n ∈ order.join children waiting ↔ n ∈ children ∨ n ∈ waiting := by
  cases order <;> simp [join, or_comm]

/-- What has been met when the children of a waiting node join the others. -/
theorem join_perm (order : Order) (children waiting done : List Node) (node : Node) :
    (order.join children waiting ++ node :: done).Perm
      (children ++ (node :: waiting ++ done)) := by
  have joined : (order.join children waiting).Perm (children ++ waiting) := by
    cases order with
    | depthFirst => exact children.reverse_perm.append_right waiting
    | breadthFirst => exact List.perm_append_comm
  have inner : (waiting ++ node :: done).Perm (node :: waiting ++ done) := List.perm_middle
  refine (joined.append_right (node :: done)).trans ?_
  rw [List.append_assoc]
  exact inner.append_left children

/-- Children that have not been met before can join the others. -/
theorem nodup_join {order : Order} {children waiting done : List Node} {node : Node}
    (once : children.Nodup) (old : (node :: waiting ++ done).Nodup)
    (new : ∀ c ∈ children, c ∉ node :: waiting ++ done) :
    (order.join children waiting ++ node :: done).Nodup := by
  rw [(order.join_perm children waiting done node).nodup_iff, List.nodup_append]
  refine ⟨once, old, ?_⟩
  rintro c listed m known rfl
  exact new c listed known

end Order

namespace TreeView

variable {t : TreeView} {order : Order} {c n p start : Node} {visited waiting : List Node}

theorem walkFrom_fresh (member : n ∈ t.walkFrom order visited waiting) : n ∉ visited := by
  induction visited, waiting using walkFrom.induct t order with
  | case1 visited => rw [walkFrom] at member; cases member
  | case2 visited top rest old ih =>
    rw [walkFrom, if_pos old] at member
    exact ih member
  | case3 visited top rest fresh ih =>
    rw [walkFrom, if_neg fresh] at member
    rcases List.mem_cons.mp member with rfl | later
    · exact fresh
    · exact fun early => ih later (List.mem_cons_of_mem _ early)

theorem walkFrom_nodup : (t.walkFrom order visited waiting).Nodup := by
  induction visited, waiting using walkFrom.induct t order with
  | case1 visited => rw [walkFrom]; exact List.nodup_nil
  | case2 visited top rest old ih => rwa [walkFrom, if_pos old]
  | case3 visited top rest fresh ih =>
    rw [walkFrom, if_neg fresh]
    exact List.nodup_cons.mpr ⟨fun later => walkFrom_fresh later List.mem_cons_self, ih⟩

theorem walkFrom_leads (led : ∀ w ∈ waiting, t.Leads start w)
    (member : n ∈ t.walkFrom order visited waiting) : t.Leads start n := by
  induction visited, waiting using walkFrom.induct t order with
  | case1 visited => rw [walkFrom] at member; cases member
  | case2 visited top rest old ih =>
    rw [walkFrom, if_pos old] at member
    exact ih (fun w inRest => led w (List.mem_cons_of_mem _ inRest)) member
  | case3 visited top rest fresh ih =>
    rw [walkFrom, if_neg fresh] at member
    have atTop := led top List.mem_cons_self
    rcases List.mem_cons.mp member with rfl | later
    · exact atTop
    · refine ih (fun w joined => ?_) later
      rcases Order.mem_join.mp joined with listed | inRest
      · exact atTop.concat listed
      · exact led w (List.mem_cons_of_mem _ inRest)

theorem waiting_walkFrom (member : n ∈ waiting) :
    n ∈ visited ∨ n ∈ t.walkFrom order visited waiting := by
  induction visited, waiting using walkFrom.induct t order with
  | case1 visited => cases member
  | case2 visited top rest old ih =>
    rw [walkFrom, if_pos old]
    rcases List.mem_cons.mp member with rfl | inRest
    · exact Or.inl old
    · exact ih inRest
  | case3 visited top rest fresh ih =>
    rw [walkFrom, if_neg fresh]
    by_cases same : n = top
    · exact Or.inr (same ▸ List.mem_cons_self)
    · have inRest : n ∈ rest := by simpa [same] using member
      rcases ih (Order.mem_join.mpr (Or.inr inRest)) with early | later
      · exact Or.inl (by simpa [same] using early)
      · exact Or.inr (List.mem_cons_of_mem _ later)

theorem walkFrom_closed (member : p ∈ t.walkFrom order visited waiting)
    (listed : c ∈ t.children p) : c ∈ visited ∨ c ∈ t.walkFrom order visited waiting := by
  induction visited, waiting using walkFrom.induct t order with
  | case1 visited => rw [walkFrom] at member; cases member
  | case2 visited top rest old ih =>
    rw [walkFrom, if_pos old] at member ⊢
    exact ih member
  | case3 visited top rest fresh ih =>
    rw [walkFrom, if_neg fresh] at member ⊢
    have found : c ∈ top :: visited ∨
        c ∈ t.walkFrom order (top :: visited) (order.join (t.children top) rest) := by
      rcases List.mem_cons.mp member with rfl | later
      · exact waiting_walkFrom (Order.mem_join.mpr (Or.inl listed))
      · exact ih later
    rcases found with early | later
    · rcases List.mem_cons.mp early with rfl | old
      · exact Or.inr List.mem_cons_self
      · exact Or.inl old
    · exact Or.inr (List.mem_cons_of_mem _ later)

/-- A node that did not wait at first has been put there by one that lists it. -/
theorem walkFrom_listed {front back : List Node}
    (split : t.walkFrom order visited waiting = front ++ n :: back) :
    n ∈ waiting ∨ ∃ p ∈ front, n ∈ t.children p := by
  induction visited, waiting using walkFrom.induct t order generalizing front with
  | case1 visited => rw [walkFrom] at split; simp at split
  | case2 visited top rest old ih =>
    rw [walkFrom, if_pos old] at split
    exact (ih split).imp_left (List.mem_cons_of_mem _)
  | case3 visited top rest fresh ih =>
    rw [walkFrom, if_neg fresh] at split
    rcases List.cons_eq_append_iff.mp split with ⟨rfl, same⟩ | ⟨front', rfl, later⟩
    · obtain ⟨rfl, _⟩ := List.cons.inj same
      exact Or.inl List.mem_cons_self
    · rcases ih later with joined | ⟨p, before, listed⟩
      · rcases Order.mem_join.mp joined with listed | inRest
        · exact Or.inr ⟨top, List.mem_cons_self, listed⟩
        · exact Or.inl (List.mem_cons_of_mem _ inRest)
      · exact Or.inr ⟨p, List.mem_cons_of_mem _ before, listed⟩

/-- The links lead from the root to the second node on a way that does not come by the first. -/
inductive LeadsAround (t : TreeView) (x : Node) : Node → Prop where
  | root : t.root ≠ x → LeadsAround t x t.root
  | down {p c : Node} : LeadsAround t x p → c ∈ t.children p → c ≠ x → LeadsAround t x c

theorem LeadsAround.leads {x : Node} (around : t.LeadsAround x n) : t.Leads t.root n := by
  induction around with
  | root _ => exact .here
  | down _ listed _ ih => exact ih.concat listed

theorem LeadsAround.ne_root {x : Node} (around : t.LeadsAround x n) : x ≠ t.root := by
  induction around with
  | root other => exact other.symm
  | down _ _ _ ih => exact ih

/-- The nodes in front of another one have been found without it. -/
theorem walkFrom_around {front back : List Node} {x : Node}
    (split : t.walkFrom order visited waiting = front ++ back) (unpassed : x ∉ front)
    (found : ∀ w ∈ waiting, w ≠ x → t.LeadsAround x w) : ∀ p ∈ front, t.LeadsAround x p := by
  induction visited, waiting using walkFrom.induct t order generalizing front with
  | case1 visited =>
    rw [walkFrom] at split
    obtain ⟨rfl, _⟩ := List.append_eq_nil_iff.mp split.symm
    exact fun p early => by cases early
  | case2 visited top rest old ih =>
    rw [walkFrom, if_pos old] at split
    exact ih split unpassed fun w inRest => found w (List.mem_cons_of_mem _ inRest)
  | case3 visited top rest fresh ih =>
    rw [walkFrom, if_neg fresh] at split
    rcases List.cons_eq_append_iff.mp split with ⟨rfl, _⟩ | ⟨front', rfl, later⟩
    · exact fun p early => by cases early
    · rw [List.mem_cons, not_or] at unpassed
      have atTop := found top List.mem_cons_self (Ne.symm unpassed.1)
      refine List.forall_mem_cons.mpr ⟨atTop, ih later unpassed.2 fun w joined other => ?_⟩
      rcases Order.mem_join.mp joined with listed | inRest
      · exact .down atTop listed other
      · exact found w (List.mem_cons_of_mem _ inRest) other

theorem walk_nodup : (t.walk order).Nodup := walkFrom_nodup

theorem mem_walk_iff : n ∈ t.walk order ↔ t.Leads t.root n := by
  have root : t.root ∈ t.walk order :=
    (waiting_walkFrom List.mem_cons_self).resolve_left List.not_mem_nil
  constructor
  · refine walkFrom_leads fun w member => ?_
    exact List.mem_singleton.mp member ▸ .here
  · intro leads
    refine leads.induct (fun p c member listed => ?_) root
    exact (walkFrom_closed member listed).resolve_left List.not_mem_nil

theorem exists_walk_eq_cons : ∃ rest, t.walk order = t.root :: rest :=
  ⟨_, by rw [walk, walkFrom, if_neg List.not_mem_nil]⟩

/-- A walk that has visited the nodes in `done` knows the node: it starts there, or a visited node
lists it. -/
def Met (t : TreeView) (done : List Node) (n : Node) : Prop :=
  n = t.root ∨ ∃ p ∈ done, n ∈ t.children p

theorem met_append : t.Met (visited ++ [p]) n ↔ t.Met visited n ∨ n ∈ t.children p := by
  simp only [Met, List.mem_append, List.mem_singleton, or_and_right, exists_or, exists_eq_left,
    or_assoc]

theorem met_walk_iff : t.Met (t.walk order) n ↔ t.Leads t.root n := by
  constructor
  · rintro (rfl | ⟨p, passed, listed⟩)
    · exact .here
    · exact (mem_walk_iff.mp passed).concat listed
  · intro leads
    rcases leads.last with same | ⟨p, toLister, listed⟩
    · exact Or.inl same.symm
    · exact Or.inr ⟨p, mem_walk_iff.mpr toLister, listed⟩

theorem walk_met {front back : List Node} (split : t.walk order = front ++ n :: back) :
    t.Met front n :=
  (walkFrom_listed split).imp_left List.mem_singleton.mp

theorem walk_fresh {front back : List Node} (split : t.walk order = front ++ n :: back) :
    n ∉ front := by
  have once : (t.walk order).Nodup := walk_nodup
  rw [split] at once
  exact fun early => (List.nodup_append.mp once).2.2 n early n List.mem_cons_self rfl

/-- As no node is visited twice, the nodes visited before another one are those in front of it. -/
theorem before_iff {front back : List Node} (split : t.walk order = front ++ n :: back) :
    [p, n].Sublist (t.walk order) ↔ p ∈ front := by
  rw [split]
  constructor
  · intro before
    obtain ⟨upTo, after, cut, first, later⟩ := List.cons_sublist_iff.mp before
    have once : (upTo ++ after).Nodup := by
      rw [← cut, ← split]
      exact walk_nodup
    have unpassed : n ∉ upTo := fun early =>
      (List.nodup_append.mp once).2.2 n early n (List.singleton_sublist.mp later) rfl
    rcases List.append_eq_append_iff.mp cut with ⟨mid, longer, rest⟩ | ⟨mid, longer, _⟩
    · cases mid with
      | nil => rwa [longer, List.append_nil] at first
      | cons m mid =>
        obtain ⟨rfl, _⟩ := List.cons.inj rest
        exact absurd (longer ▸ List.mem_append_right front List.mem_cons_self) unpassed
    · exact longer ▸ List.mem_append_left mid first
  · intro passed
    exact (List.singleton_sublist.mpr passed).append (List.singleton_sublist.mpr List.mem_cons_self)

theorem leads_of_before (before : [p, c].Sublist (t.walk order)) :
    t.Leads t.root p ∧ t.Leads t.root c :=
  ⟨mem_walk_iff.mp (before.subset List.mem_cons_self),
    mem_walk_iff.mp (before.subset (List.mem_cons_of_mem _ List.mem_cons_self))⟩

theorem leadsAround_of_before (before : [p, c].Sublist (t.walk order)) : t.LeadsAround c p := by
  obtain ⟨front, back, split⟩ := List.append_of_mem (mem_walk_iff.mpr (leads_of_before before).2)
  refine walkFrom_around split (walk_fresh split) (fun w first other => ?_) p
    ((before_iff split).mp before)
  obtain rfl := List.mem_singleton.mp first
  exact .root other

/-- Every node but the root is visited after one that lists it. -/
theorem exists_before (led : t.Leads t.root c) (other : c ≠ t.root) (order : Order) :
    ∃ p, c ∈ t.children p ∧ [p, c].Sublist (t.walk order) := by
  obtain ⟨front, back, split⟩ := List.append_of_mem (mem_walk_iff.mpr led)
  obtain ⟨p, passed, listed⟩ := (walk_met split).resolve_left other
  exact ⟨p, listed, (before_iff split).mpr passed⟩

/-- The links that lead to a node visited later. -/
def Forward (t : TreeView) (visits : List Node) (p c : Node) : Prop :=
  c ∈ t.children p ∧ [p, c].Sublist visits

theorem leads_of_onward (onward : Relation.ReflTransGen (t.Forward visited) p n) : t.Leads p n := by
  induction onward with
  | refl => exact .here
  | tail _ last ih => exact ih.concat last.1

theorem leads_root_of_onward (onward : Relation.ReflTransGen (t.Forward (t.walk order)) p n)
    (led : t.Leads t.root n) : t.Leads t.root p := by
  rcases Relation.ReflTransGen.cases_head onward with rfl | ⟨c, first, _⟩
  · exact led
  · exact (leads_of_before first.2).1

namespace Shaped

variable (shaped : t.Shaped)

include shaped

/-- Along a tree a node is visited after its parent. -/
theorem parent_before (above : t.Leads t.root p) (listed : c ∈ t.children p) :
    [p, c].Sublist (t.walk order) := by
  have other : c ≠ t.root := fun same => shaped.root_unlisted p above (same ▸ listed)
  obtain ⟨q, also, before⟩ := exists_before (above.concat listed) other order
  exact shaped.lister_unique q p c (leads_of_before before).1 above also listed ▸ before

theorem onward_of_leads (above : t.Leads t.root p) (leads : t.Leads p n) :
    Relation.ReflTransGen (t.Forward (t.walk order)) p n := by
  induction leads with
  | here => exact .refl
  | down listed _ ih =>
    exact .head ⟨listed, shaped.parent_before above listed⟩ (ih (above.concat listed))

end Shaped

/-- A walk when the nodes in `visited`, the latest first, have been visited and others wait, as it is
along a tree: each node has been met once. -/
structure Frontier (t : TreeView) (visited waiting : List Node) : Prop where
  once : (waiting ++ visited).Nodup
  met : ∀ m ∈ waiting ++ visited, t.Met visited m
  led : ∀ m ∈ waiting ++ visited, t.Leads t.root m

namespace Frontier

theorem initial (t : TreeView) : t.Frontier [] [t.root] where
  once := by simp
  met m member := by
    have same : m = t.root := by simpa using member
    exact Or.inl same
  led m member := by
    have same : m = t.root := by simpa using member
    exact same ▸ .here

theorem walkFrom_cons (frontier : t.Frontier visited (n :: waiting)) :
    t.walkFrom order visited (n :: waiting) =
      n :: t.walkFrom order (n :: visited) (order.join (t.children n) waiting) := by
  have fresh : n ∉ visited := fun old =>
    (List.nodup_cons.mp frontier.once).1 (List.mem_append_right waiting old)
  rw [walkFrom, if_neg fresh]

variable (shaped : t.Shaped)

include shaped

/-- A child of a node that waits is neither the root nor listed by a node visited before. -/
theorem fresh (frontier : t.Frontier visited (n :: waiting)) (listed : c ∈ t.children n) :
    c ∉ n :: waiting ++ visited := by
  have atNode := frontier.led n List.mem_cons_self
  intro old
  rcases frontier.met c old with rfl | ⟨p, passed, also⟩
  · exact shaped.root_unlisted n atNode listed
  · have above := frontier.led p (List.mem_append_right _ passed)
    obtain rfl := shaped.lister_unique p n c above atNode also listed
    exact (List.nodup_cons.mp frontier.once).1 (List.mem_append_right _ passed)

theorem visit (frontier : t.Frontier visited (n :: waiting)) (order : Order) :
    t.Frontier (n :: visited) (order.join (t.children n) waiting) := by
  have atNode := frontier.led n List.mem_cons_self
  have moved := order.join_perm (t.children n) waiting visited n
  refine ⟨Order.nodup_join (shaped.children_nodup n atNode) frontier.once fun c =>
    frontier.fresh shaped, fun m member => ?_, fun m member => ?_⟩
  all_goals rcases List.mem_append.mp (moved.mem_iff.mp member) with listed | old
  · exact Or.inr ⟨n, List.mem_cons_self, listed⟩
  · rcases frontier.met m old with same | ⟨p, passed, listed⟩
    · exact Or.inl same
    · exact Or.inr ⟨p, List.mem_cons_of_mem _ passed, listed⟩
  · exact atNode.concat listed
  · exact frontier.led m old

end Frontier

end TreeView

end ReachingValues
