import Mathlib.Data.List.Perm.Subperm
import ReachingValues.Proofs.Analysis.SuppliedTree

/-!
Results as finite maps. A set is made for a block when a visited block first lists it, which may be
long before its own visit, and along a malformed view sets may still grow after it. But every block
that is listed is visited in the end, so a finished walk leaves sets for exactly the blocks in its
list of visits, and a comparison along one of two such lists, which looks one-sided, is an equality
of maps.
-/

namespace ReachingValues

variable {d : Definitions} {tree : TreeView} {seed : ValueSet} {order : Order} {t u r : ReachTable}

namespace ReachTable

/-- Every block is listed once, and the listed blocks are those that have a set. -/
structure Regular (t : ReachTable) : Prop where
  nodup : t.blocks.Nodup
  isSome_iff : ∀ b, (t.get? b).isSome ↔ b ∈ t.blocks

theorem regular_of_propagate (run : d.propagate tree seed order = .ok t) : t.Regular where
  nodup := by
    rw [(Definitions.visits_of_propagate run).1]
    exact TreeView.walk_nodup
  isSome_iff := Definitions.isSome_of_propagate run

namespace Regular

/-- The entries are the listed blocks, each with its set. -/
theorem map_toList (regular : t.Regular) :
    t.toList.map (fun entry => (entry.1, some entry.2)) = t.blocks.map fun b => (b, t.get? b) := by
  rw [toList, List.map_filterMap, ← List.filterMap_eq_map]
  refine List.filterMap_congr fun b listed => ?_
  obtain ⟨values, known⟩ := Option.isSome_iff_exists.mp ((regular.isSome_iff b).mpr listed)
  simp [known]

theorem length_toList (regular : t.Regular) : t.toList.length = t.size := by
  simpa [size] using congrArg List.length regular.map_toList

theorem mem_toList_iff (regular : t.Regular) {b : Node} {values : ValueSet} :
    (b, values) ∈ t.toList ↔ t.get? b = some values := by
  simp only [toList, List.mem_filterMap, Option.map_eq_some_iff, Prod.mk.injEq]
  constructor
  · rintro ⟨_, _, _, known, rfl, rfl⟩
    exact known
  · intro known
    exact ⟨b, (regular.isSome_iff b).mp (known ▸ rfl), values, known, rfl, rfl⟩

/-- One list of visits is compared only against the other map, but no block is counted twice in
either list, so a block that only the other list had would make that one longer. -/
theorem sameContent_iff (regular : t.Regular) (other : u.Regular) :
    t.sameContent u ↔ ∀ b, t.get? b = u.get? b := by
  simp only [sameContent, Bool.and_eq_true, beq_iff_eq, List.all_eq_true, Prod.forall,
    regular.mem_toList_iff]
  constructor
  · rintro ⟨length, within⟩ b
    have subset : t.blocks ⊆ u.blocks := fun c listed => by
      obtain ⟨values, known⟩ := Option.isSome_iff_exists.mp ((regular.isSome_iff c).mpr listed)
      exact (other.isSome_iff c).mp ((within c values known).symm ▸ rfl)
    have perm := (regular.nodup.subperm subset).perm_of_length_le (Nat.le_of_eq length.symm)
    cases known : t.get? b with
    | some values => exact (within b values known).symm
    | none =>
      have unlisted : b ∉ u.blocks := by
        rw [← perm.mem_iff, ← regular.isSome_iff, known]
        simp
      rw [← other.isSome_iff, Option.not_isSome_iff_eq_none] at unlisted
      exact unlisted.symm
  · intro agree
    have blocks : t.blocks.Perm u.blocks :=
      (List.perm_ext_iff_of_nodup regular.nodup other.nodup).mpr fun b => by
        rw [← regular.isSome_iff, ← other.isSome_iff, agree]
    exact ⟨blocks.length_eq, fun b values known => (agree b).symm.trans known⟩

end Regular

/-- Some propagation returns the table. -/
def Propagated (t : ReachTable) : Prop :=
  ∃ d tree seed order, Definitions.propagate d tree seed order = .ok t

theorem Propagated.regular : t.Propagated → t.Regular
  | ⟨_, _, _, _, run⟩ => regular_of_propagate run

theorem sameContent_equivalence :
    Equivalence fun t u : { t : ReachTable // t.Propagated } => t.1.sameContent u.1 = true := by
  have maps : ∀ t u : { t : ReachTable // t.Propagated },
      t.1.sameContent u.1 ↔ ∀ b, t.1.get? b = u.1.get? b :=
    fun t u => t.2.regular.sameContent_iff u.2.regular
  refine ⟨fun t => (maps t t).mpr fun b => rfl, fun {t u} same => ?_, fun {t u r} same next => ?_⟩
  · exact (maps u t).mpr fun b => ((maps t u).mp same b).symm
  · exact (maps t r).mpr fun b => ((maps t u).mp same b).trans ((maps u r).mp next b)

/-- A result of propagation is a finite map whose keys are listed in the order of the visits, along
whatever view and from whatever sets it was made, and two results have the same content just when
they are the same map. Sets over different universes are different. -/
theorem finite_map_of_propagate {d e : Definitions} {tree view : TreeView} {seed start : ValueSet}
    {order along : Order} {r s : ReachTable} (left : d.propagate tree seed order = .ok r)
    (right : e.propagate view start along = .ok s) :
    r.blocks.Nodup ∧
    (∀ b, (r.get? b).isSome ↔ b ∈ r.blocks) ∧
    r.toList.map (fun entry => (entry.1, some entry.2)) = r.blocks.map (fun b => (b, r.get? b)) ∧
    r.toList.length = r.size ∧
    (r.sameContent s ↔ ∀ b, r.get? b = s.get? b) ∧
    Equivalence fun t u : { t : ReachTable // t.Propagated } => t.1.sameContent u.1 = true := by
  have one := regular_of_propagate left
  have other := regular_of_propagate right
  exact ⟨one.nodup, one.isSome_iff, one.map_toList, one.length_toList, one.sameContent_iff other,
    sameContent_equivalence⟩

/-- Every block defines the value of its own number. -/
def numbered : Definitions := ⟨Array.ofFn fun b : Fin 4 => (IndexSet.empty 4).withIndex b b.2⟩

/-- In depth-first order the join is visited before one of the two blocks that list it, and its set
still grows after its visit. -/
theorem finite_map_of_propagate_tangled : ∃ r s,
    numbered.propagate Program.tangled.view (.empty 4) .depthFirst = .ok r ∧
    numbered.propagate Program.tangled.view (.empty 4) .breadthFirst = .ok s ∧
    r.blocks = [0, 2, 3, 1] ∧ s.blocks = [0, 1, 2, 3] ∧ ∀ b, r.get? b = s.get? b := by
  obtain ⟨r, left, one⟩ : ∃ r, numbered.propagate Program.tangled.view (.empty 4) .depthFirst =
    .ok r ∧ r.blocks = [0, 2, 3, 1] := ⟨_, by with_unfolding_all rfl, by with_unfolding_all rfl⟩
  obtain ⟨s, right, other⟩ : ∃ s, numbered.propagate Program.tangled.view (.empty 4) .breadthFirst =
    .ok s ∧ s.blocks = [0, 1, 2, 3] := ⟨_, by with_unfolding_all rfl, by with_unfolding_all rfl⟩
  have same : (do
      let r ← numbered.propagate Program.tangled.view (.empty 4) .depthFirst
      let s ← numbered.propagate Program.tangled.view (.empty 4) .breadthFirst
      return r.sameContent s) = Except.ok true := by decide +kernel
  rw [left, ok_bind, right, ok_bind, pure_eq_ok] at same
  obtain ⟨_, _, _, _, maps, _⟩ := finite_map_of_propagate left right
  exact ⟨r, s, left, right, one, other, maps.mp (Except.ok.inj same)⟩

end ReachTable

end ReachingValues
