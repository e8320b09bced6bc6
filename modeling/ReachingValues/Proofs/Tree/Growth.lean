import ReachingValues.Proofs.InPlace
import ReachingValues.Tree.Grown

/-!
Trees that are grown child by child. A node is added once, below one that is there, so the accepted
calls determine the tree: who is in it, who is above whom, and the order of the children. That the
parents lead to the root follows from the order in time, as a parent was there before its child.
-/

namespace ReachingValues

namespace GrownTree

variable {t u : GrownTree} {c m n p q root : Node} {k : Nat}

theorem node?_single (root n : Node) :
    (single root).node? n = if n = root then some ⟨none, []⟩ else none := by
  rw [node?, single, getD_setIfInBounds (lt_size_lengthen #[] root none), getD_lengthen]
  rfl

theorem node?_attach (t : GrownTree) (p c n : Node) :
    (t.attach p c).node? n =
      if n = p then
        (if n = c then some ⟨some p, t.children c⟩ else t.node? n).map
          fun place => { place with children := place.children ++ [c] }
      else if n = c then some ⟨some p, t.children c⟩ else t.node? n := by
  have placed := getD_setIfInBounds (lt_size_lengthen t.places c none) n
    (some ⟨some p, t.children c⟩) none
  rw [getD_lengthen] at placed
  rw [node?, attach, Array.getElem?_modify]
  by_cases above : n = p
  · rw [if_pos above.symm, if_pos above, node?, ← placed]
    cases ((lengthen t.places (c + 1) none).setIfInBounds c (some ⟨some p, t.children c⟩))[n]? <;> rfl
  · rw [if_neg (Ne.symm above), if_neg above, node?, ← placed]

theorem size_places_attach (t : GrownTree) (p c : Node) :
    (t.attach p c).places.size = max t.places.size (c + 1) := by
  rw [attach, Array.size_modify, Array.size_setIfInBounds, size_lengthen]

theorem node?_of_le (beyond : t.places.size ≤ n) : t.node? n = none := by
  rw [node?, Array.getElem?_eq_none beyond]
  rfl

theorem lt_size_of_contains (known : t.contains n) : n < t.places.size := by
  refine Nat.lt_of_not_le fun beyond => ?_
  rw [contains, node?_of_le beyond] at known
  cases known

theorem node?_of_not_contains (absent : ¬ t.contains n) : t.node? n = none := by
  simpa [contains] using absent

theorem contains_attach (t : GrownTree) (p c n : Node) :
    (t.attach p c).contains n = if n = c then true else t.contains n := by
  rw [contains, node?_attach, contains]
  split
  · split <;> simp
  · split <;> simp

theorem parent_attach (t : GrownTree) (p c n : Node) :
    (t.attach p c).parent n = if n = c then some p else t.parent n := by
  rw [parent, node?_attach, parent]
  split
  · split
    · rfl
    · cases t.node? n <;> rfl
  · split <;> rfl

section Attach

variable (known : t.contains p) (absent : ¬ t.contains c)

include absent

theorem children_of_absent : t.children c = [] := by
  rw [children, node?_of_not_contains absent]
  rfl

include known

theorem children_attach (n : Node) :
    (t.attach p c).children n = if n = p then t.children n ++ [c] else t.children n := by
  have apart : p ≠ c := fun same => absent (same ▸ known)
  rw [children, node?_attach]
  by_cases above : n = p
  · subst above
    obtain ⟨place, found⟩ := Option.isSome_iff_exists.mp known
    simp [apart, found, children]
  · rw [if_neg above, if_neg above]
    by_cases new : n = c
    · subst new
      simp [children_of_absent absent]
    · rw [if_neg new, children]

end Attach

theorem addChild_ok (run : t.addChild p c = .ok u) :
    t.contains p ∧ ¬ t.contains c ∧ u = t.attach p c := by
  unfold addChild at run
  split at run
  · split at run
    · cases run
    · exact ⟨‹_›, ‹_›, (Except.ok.inj run).symm⟩
  · cases run

/-- The node that the given number of steps from child to parent lead to. -/
def climb (t : GrownTree) : Nat → Node → Option Node
  | 0, n => some n
  | steps + 1, n => (t.parent n).bind (t.climb steps)

/-- Parents that stay what they were lead to where they led. -/
theorem climb_of_kept (kept : ∀ n p, t.parent n = some p → u.parent n = some p)
    (led : t.climb k n = some m) : u.climb k n = some m := by
  induction k generalizing n with
  | zero => exact led
  | succ k ih =>
    obtain ⟨p, above, rest⟩ := Option.bind_eq_some_iff.mp led
    rw [climb, kept n p above]
    exact ih rest

/-- The tree came to be by adding, one after another, the second node of each pair below the
first one. -/
structure GrownBy (t : GrownTree) (added : List (Node × Node)) : Prop where
  contains_iff : ∀ n, t.contains n ↔ n = t.root ∨ n ∈ added.map (·.2)
  parent_iff : ∀ p c, t.parent c = some p ↔ (p, c) ∈ added
  children_eq : ∀ p, t.children p = (added.filter (·.1 == p)).map (·.2)
  once : (t.root :: added.map (·.2)).Nodup
  climbs : ∀ n, t.contains n → ∃ k, t.climb k n = some t.root

namespace GrownBy

theorem single (root : Node) : (single root).GrownBy [] where
  contains_iff n := by
    rw [contains, node?_single]
    split <;> simp_all [GrownTree.single]
  parent_iff p c := by
    rw [parent, node?_single]
    split <;> simp
  children_eq p := by
    rw [children, node?_single]
    split <;> rfl
  once := by simp
  climbs n known := by
    rw [contains, node?_single] at known
    split at known
    · rename_i same
      exact ⟨0, congrArg some same⟩
    · cases known

variable {added : List (Node × Node)} (grown : t.GrownBy added)

include grown

theorem contains_of_mem (member : (q, n) ∈ added) : t.contains n :=
  (grown.contains_iff n).mpr (Or.inr (List.mem_map_of_mem (f := (·.2)) member))

theorem attach (known : t.contains p) (absent : ¬ t.contains c) :
    (t.attach p c).GrownBy (added ++ [(p, c)]) where
  contains_iff n := by
    rw [contains_attach, List.map_append, List.mem_append]
    split
    · simp_all
    · have other : n ≠ c := ‹_›
      simp [other, grown.contains_iff n, GrownTree.attach]
  parent_iff q n := by
    rw [parent_attach, List.mem_append, List.mem_singleton, Prod.mk.injEq]
    split
    · rename_i same
      subst same
      have unadded : (q, n) ∉ added := fun member => absent (grown.contains_of_mem member)
      simp [unadded, eq_comm]
    · have other : n ≠ c := ‹_›
      simp [other, grown.parent_iff]
  children_eq q := by
    rw [children_attach known absent, grown.children_eq, List.filter_append, List.map_append]
    by_cases same : q = p <;> simp [same, Ne.symm]
  once := by
    have new : c ∉ t.root :: added.map (·.2) := fun member => by
      rw [List.mem_cons, ← grown.contains_iff] at member
      exact absent member
    rw [List.map_append, ← List.cons_append]
    refine List.nodup_append.mpr ⟨grown.once, List.pairwise_singleton _ _, fun a early b last => ?_⟩
    obtain rfl := List.mem_singleton.mp last
    exact fun same => new (same ▸ early)
  climbs n inside := by
    have kept : ∀ m q, t.parent m = some q → (t.attach p c).parent m = some q := by
      intro m q above
      have other : m ≠ c := fun same =>
        absent (same ▸ grown.contains_of_mem ((grown.parent_iff q m).mp above))
      rw [parent_attach, if_neg other, above]
    rw [contains_attach] at inside
    split at inside
    · rename_i same
      obtain ⟨k, led⟩ := grown.climbs p known
      refine ⟨k + 1, ?_⟩
      rw [climb, parent_attach, if_pos same]
      exact climb_of_kept kept led
    · obtain ⟨k, led⟩ := grown.climbs n inside
      exact ⟨k, climb_of_kept kept led⟩

theorem mem_children_iff : c ∈ t.children p ↔ (p, c) ∈ added := by
  rw [grown.children_eq]
  simp

theorem children_nodup (p : Node) : (t.children p).Nodup := by
  rw [grown.children_eq]
  exact (List.nodup_cons.mp grown.once).2.sublist (List.filter_sublist.map _)

theorem size_eq : t.size = 1 + added.length := by
  have places : t.places.toList = (List.range t.places.size).map t.node? := by
    refine List.ext_getElem? fun i => ?_
    by_cases inside : i < t.places.size
    · simp [inside, node?]
    · simp [Nat.le_of_not_lt inside]
  have counted : t.size = ((List.range t.places.size).filter t.contains).length := by
    rw [size, ← Array.countP_toList, places, List.countP_map, List.countP_eq_length_filter]
    rfl
  have members : ∀ n, n ∈ (List.range t.places.size).filter t.contains ↔
      n ∈ t.root :: added.map (·.2) := fun n => by
    rw [List.mem_filter, List.mem_range, List.mem_cons, ← grown.contains_iff, and_iff_right_iff_imp]
    exact lt_size_of_contains
  have same := (List.perm_ext_iff_of_nodup (List.nodup_range.filter _) grown.once).mpr members
  rw [counted, same.length_eq, List.length_cons, List.length_map, Nat.add_comm]

end GrownBy

/-- A tree as three tables, one for each thing there is to know about a node. -/
structure Columns where
  root : Node
  parents : Array (Option Node)
  children : Array (List Node)
  present : Array Bool

/-- What `f` says of each of the first nodes. -/
def column {β : Type} (f : Node → β) (count : Nat) : Array β := (Array.range count).map f

def columns (t : GrownTree) : Columns where
  root := t.root
  parents := column t.parent t.places.size
  children := column t.children t.places.size
  present := column t.contains t.places.size

section Column

variable {β : Type} {f g : Node → β} {count : Nat}

theorem getElem?_column (n : Node) :
    (column f count)[n]? = if n < count then some (f n) else none := by
  simp [column, Array.getElem?_range]

theorem size_column : (column f count).size = count := by
  simp [column]

theorem lengthen_column {default : β} (beyond : ∀ n, count ≤ n → f n = default) (places : Nat) :
    lengthen (column f count) places default = column f (max count places) := by
  refine Array.ext_getElem? fun i => ?_
  rw [lengthen, Array.getElem?_append, size_column, getElem?_column, getElem?_column,
    Array.getElem?_replicate]
  by_cases old : i < count
  · simp [old, Nat.lt_of_lt_of_le old (Nat.le_max_left _ _)]
  · rw [if_neg old, beyond i (Nat.le_of_not_lt old)]
    have within : i - count < places - count ↔ i < max count places := by omega
    simp only [within]

theorem column_modify {change : β → β} {i : Node}
    (changed : ∀ n, g n = if n = i then change (f n) else f n) :
    (column f count).modify i change = column g count := by
  refine Array.ext_getElem? fun n => ?_
  rw [Array.getElem?_modify, getElem?_column, getElem?_column, changed]
  by_cases same : n = i
  · subst same
    rw [if_pos rfl, if_pos rfl]
    split <;> rfl
  · rw [if_neg same, if_neg (Ne.symm same)]

end Column

namespace Columns

def contains (t : Columns) (n : Node) : Bool := t.present[n]?.getD false

/-- Makes sure that every table has a place for `n`. -/
def reserve (n : Node) : InPlace Columns Unit := do
  let t ← get
  if t.present.size < n + 1 then
    set { t with
      parents := resize t.parents (n + 1) none
      children := resize t.children (n + 1) []
      present := resize t.present (n + 1) false }

def attach (parent child : Node) : InPlace Columns Unit := do
  reserve child
  InPlace.amend parents (fun t changed => { t with parents := changed }) child fun _ => some parent
  InPlace.amend present (fun t changed => { t with present := changed }) child fun _ => true
  InPlace.amend children (fun t changed => { t with children := changed }) parent (· ++ [child])
  return

/-- Adds a child table by table. -/
def addChild (parent child : Node) : InPlace Columns Unit := do
  let t ← get
  if t.contains parent then
    if t.contains child then throw (.invalidTree (.childPresent child)) else attach parent child
  else throw (.invalidTree (.parentMissing parent child))

theorem outcome_reserve (t : GrownTree) (n : Node) : (reserve n).outcome t.columns =
    (.ok (), ⟨t.root, column t.parent (max t.places.size (n + 1)),
      column t.children (max t.places.size (n + 1)),
      column t.contains (max t.places.size (n + 1))⟩) := by
  have size : t.columns.present.size = t.places.size := size_column
  have empty : ∀ m, t.places.size ≤ m → t.node? m = none := fun m => node?_of_le
  rw [reserve, InPlace.outcome_get_bind, size]
  by_cases short : t.places.size < n + 1
  · have fits : ∀ {β : Type} (f : Node → β), (column f t.places.size).size ≤ n + 1 :=
      fun f => size_column.symm ▸ Nat.le_of_lt short
    rw [if_pos short]
    simp only [columns, resize_of_le (fits _)]
    rw [lengthen_column fun m beyond => by rw [parent, empty m beyond]; rfl,
      lengthen_column fun m beyond => by rw [GrownTree.children, empty m beyond]; rfl,
      lengthen_column fun m beyond => by rw [GrownTree.contains, empty m beyond]; rfl]
    rfl
  · rw [if_neg short, Nat.max_eq_left (Nat.le_of_not_lt short)]
    rfl

theorem outcome_attach {t : GrownTree} (known : t.contains p) (absent : ¬ t.contains c) :
    (attach p c).outcome t.columns = (.ok (), (t.attach p c).columns) := by
  have room : c < max t.places.size (c + 1) :=
    Nat.lt_of_lt_of_le (Nat.lt_succ_self c) (Nat.le_max_right _ _)
  have above : p < max t.places.size (c + 1) :=
    Nat.lt_of_lt_of_le (lt_size_of_contains known) (Nat.le_max_left _ _)
  have parents : (column t.parent (max t.places.size (c + 1))).modify c (fun _ => some p) =
      column (t.attach p c).parent (max t.places.size (c + 1)) :=
    column_modify (parent_attach t p c)
  have present : (column t.contains (max t.places.size (c + 1))).modify c (fun _ => true) =
      column (t.attach p c).contains (max t.places.size (c + 1)) :=
    column_modify (contains_attach t p c)
  have children : (column t.children (max t.places.size (c + 1))).modify p (· ++ [c]) =
      column (t.attach p c).children (max t.places.size (c + 1)) :=
    column_modify (children_attach known absent)
  rw [attach, InPlace.outcome_bind (outcome_reserve t c),
    InPlace.outcome_bind (InPlace.outcome_amend (size_column.symm ▸ room) _ _),
    InPlace.outcome_bind (InPlace.outcome_amend (size_column.symm ▸ room) _ _),
    InPlace.outcome_bind (InPlace.outcome_amend (size_column.symm ▸ above) _ _),
    columns, size_places_attach]
  simp only [parents, present, children]
  rfl

end Columns

/-- Makes a call, which adds the second node below the first one. -/
def perform (t : GrownTree) (call : Node × Node) : Except Error (Unit × GrownTree) :=
  ((t.addChild call.1 call.2).mapError .invalidTree).map ((), ·)

theorem GrownBy.perform {added : List (Node × Node)} {call : Node × Node} {answer : Unit}
    (grown : t.GrownBy added) (run : t.perform call = .ok (answer, u)) :
    u.root = t.root ∧ u.GrownBy (added ++ [call]) := by
  cases adding : t.addChild call.1 call.2 with
  | error defect => simp [GrownTree.perform, adding, Except.map] at run
  | ok later =>
    obtain ⟨known, absent, rfl⟩ := addChild_ok adding
    simp only [GrownTree.perform, adding, mapError_ok, Except.map] at run
    obtain ⟨_, rfl⟩ := Prod.mk.inj (Except.ok.inj run)
    exact ⟨rfl, grown.attach known absent⟩

end GrownTree

end ReachingValues
