import ReachingValues.Tree.View

/-!
When the links below the root of a view form a tree: every node is listed at most once, and the root
is not. A node then has exactly the ancestors of the one that lists it, and that one.
-/

namespace ReachingValues

namespace TreeView

variable {t : TreeView} {a c m n p q : Node}

theorem mem_inner_of_mem_children (listed : c ∈ t.children p) : p ∈ t.inner :=
  Classical.byContradiction fun outside => by
    rw [t.children_eq_nil p outside] at listed
    cases listed

namespace Leads

theorem concat (leads : t.Leads n p) (listed : c ∈ t.children p) : t.Leads n c := by
  induction leads with
  | here => exact .down listed .here
  | down first _ ih => exact .down first (ih listed)

theorem last (leads : t.Leads n m) : n = m ∨ ∃ p, t.Leads n p ∧ m ∈ t.children p := by
  induction leads with
  | here => exact Or.inl rfl
  | @down n child m listed _ ih =>
    right
    rcases ih with rfl | ⟨p, leads, last⟩
    · exact ⟨n, .here, listed⟩
    · exact ⟨p, .down listed leads, last⟩

/-- A set that holds the start and whatever its members list holds all that the links lead to. -/
theorem induct {holds : Node → Prop} (leads : t.Leads n m)
    (closed : ∀ p c, holds p → c ∈ t.children p → holds c) (start : holds n) : holds m := by
  induction leads with
  | here => exact start
  | down listed _ ih => exact ih (closed _ _ start listed)

theorem trans (upper : t.Leads a n) (lower : t.Leads n m) : t.Leads a m :=
  lower.induct (fun _ _ => concat) upper

end Leads

/-- How far up the handles go can be counted out. -/
theorem lt_of_links {bound : Nat} (root : t.root < bound)
    (links : ∀ p ∈ t.inner, ∀ c ∈ t.children p, c < bound) (n : Node)
    (leads : t.Leads t.root n) : n < bound :=
  leads.induct (fun p c _ listed => links p (mem_inner_of_mem_children listed) c listed) root

/-- Below the root every node is listed at most once, and the root is not. -/
structure Shaped (t : TreeView) : Prop where
  root_unlisted : ∀ p, t.Leads t.root p → t.root ∉ t.children p
  lister_unique : ∀ p q c, t.Leads t.root p → t.Leads t.root q →
    c ∈ t.children p → c ∈ t.children q → p = q
  children_nodup : ∀ p, t.Leads t.root p → (t.children p).Nodup

/-- The way down from the root to the second node passes the first one before its end. -/
def ProperAncestor (t : TreeView) (a n : Node) : Prop :=
  t.Leads t.root a ∧ ∃ c ∈ t.children a, t.Leads c n

/-- The same way down, seen from its end. -/
theorem properAncestor_iff_last :
    t.ProperAncestor a n ↔ t.Leads t.root a ∧ ∃ p, t.Leads a p ∧ n ∈ t.children p := by
  constructor
  · rintro ⟨above, c, first, leads⟩
    rcases leads.last with rfl | ⟨p, toLister, last⟩
    · exact ⟨above, a, .here, first⟩
    · exact ⟨above, p, .down first toLister, last⟩
  · rintro ⟨above, p, _ | ⟨first, leads⟩, last⟩
    · exact ⟨above, n, last, .here⟩
    · exact ⟨above, _, first, leads.concat last⟩

namespace Shaped

variable (shaped : t.Shaped)

include shaped

theorem not_properAncestor_root : ¬ t.ProperAncestor a t.root := by
  intro circle
  obtain ⟨above, p, leads, last⟩ := properAncestor_iff_last.mp circle
  exact shaped.root_unlisted p (above.trans leads) last

theorem properAncestor_iff (above : t.Leads t.root p) (listed : n ∈ t.children p) :
    t.ProperAncestor a n ↔ a = p ∨ t.ProperAncestor a p := by
  constructor
  · intro ancestor
    obtain ⟨start, q, leads, last⟩ := properAncestor_iff_last.mp ancestor
    obtain rfl := shaped.lister_unique q p n (start.trans leads) above last listed
    cases leads with
    | here => exact Or.inl rfl
    | down first leads => exact Or.inr ⟨start, _, first, leads⟩
  · rintro (rfl | ⟨start, c, first, leads⟩)
    · exact ⟨above, n, listed, .here⟩
    · exact ⟨start, c, first, leads.concat listed⟩

/-- Along a tree nothing leads back to where it starts. -/
theorem not_properAncestor_self (led : t.Leads t.root n) : ¬ t.ProperAncestor n n := by
  have closed : ∀ p c, t.Leads t.root p ∧ ¬ t.ProperAncestor p p → c ∈ t.children p →
      t.Leads t.root c ∧ ¬ t.ProperAncestor c c := by
    rintro p c ⟨above, uncircled⟩ listed
    refine ⟨above.concat listed, fun circle => ?_⟩
    rcases (shaped.properAncestor_iff above listed).mp circle with rfl | ⟨_, x, first, leads⟩
    · exact uncircled circle
    · exact uncircled ⟨above, c, listed, .down first leads⟩
  exact (led.induct closed ⟨.here, shaped.not_properAncestor_root⟩).2

theorem properAncestor_iff_leads :
    t.ProperAncestor a n ↔ a ≠ n ∧ t.Leads t.root a ∧ t.Leads a n := by
  constructor
  · rintro ⟨above, c, listed, leads⟩
    refine ⟨?_, above, .down listed leads⟩
    rintro rfl
    exact shaped.not_properAncestor_self above ⟨above, c, listed, leads⟩
  · rintro ⟨other, above, _ | ⟨listed, leads⟩⟩
    · exact absurd rfl other
    · exact ⟨above, _, listed, leads⟩

end Shaped

end TreeView

end ReachingValues
