import ReachingValues.Proofs.Dominators.Compression

/-!
Compression as it is done without recursion: one loop collects the nodes on the way up, and another
one shortens their links from the last of them down, reading links that it has just rewritten. The
first loop ends because links of a compressed forest lead upwards in the plain one. Whatever is
compressed, a node keeps its root and the rank of what a query answers for it.
-/

namespace ReachingValues

namespace Forest

variable {f f' : Forest} {size : Nat} {up : Node → Option Node} {rank : Node → Nat}
  {ranked : Node → Except Fault Nat} {height : Node → Nat} {n a b low low' root : Node}
  {met met' : List Node}

/-- The run of the first loop from `n` on, with the nodes that it collects. It stops at a node that
is linked to a root. -/
inductive Climbs (f : Forest) : Node → List Node → Prop
  | stop {n above : Node} : f.linkOf n = some above → f.linkOf above = none → Climbs f n []
  | pass {n above top : Node} {path : List Node} : f.linkOf n = some above →
      f.linkOf above = some top → Climbs f above path → Climbs f n (n :: path)

/-- Makes `n` skip the node to which it is linked by now. -/
def shorten (ranked : Node → Except Fault Nat) (f : Forest) (n : Node) : Except Fault Forest := do
  match ← fetch f.link n with
  | none => .error (.missingLink n)
  | some above => f.skip ranked n above

/-- The second loop, which takes the collected nodes from the last one to the first. -/
def compressAlong (ranked : Node → Except Fault Nat) (f : Forest) (path : List Node) :
    Except Fault Forest :=
  path.reverse.foldlM (shorten ranked) f

/-- The first loop ends, and the two loops do what the recursion does. The link that the second loop
reads from a node is the one that the first loop followed, as only links further up have changed. -/
theorem Compresses.climbs (compresses : f.Compresses size up rank)
    (plain : IsPlain size up height) (ranks : ∀ n < size, ranked n = .ok (rank n)) {steps : Nat}
    (inside : n < size) (enough : height n < steps) (linked : f.linkOf n ≠ none) :
    ∃ path, f.Climbs n path ∧
      Forest.compressWithin ranked steps f n = f.compressAlong ranked path := by
  induction steps generalizing n with
  | zero => omega
  | succ steps ih =>
    obtain ⟨above, lower⟩ := Option.ne_none_iff_exists'.mp linked
    obtain ⟨met, way, low⟩ := compresses.linked n above lower
    have insideAbove := plain.end_lt_size way inside
    have falls := plain.height_lt way (List.ne_nil_of_mem low.1)
    rw [Forest.compressWithin, compresses.fetch_link inside, ok_bind, lower]
    simp only [compresses.fetch_link insideAbove, ok_bind]
    cases upper : f.linkOf above with
    | none => exact ⟨[], .stop lower upper, rfl⟩
    | some top =>
      have shallow : height above < steps := by omega
      obtain ⟨path, climbs, same⟩ := ih insideAbove shallow (by simp [upper])
      obtain ⟨g, run, again, _, kept⟩ :=
        compresses.compressWithin plain ranks insideAbove shallow
      have link : fetch g.link n = .ok (some above) := by
        rw [again.fetch_link inside, kept n falls, lower]
      refine ⟨n :: path, .pass lower upper climbs, ?_⟩
      rw [compressAlong, List.reverse_cons, List.foldlM_append, ← compressAlong, ← same]
      simp only [run, ok_bind, List.foldlM_cons, List.foldlM_nil, shorten, link, bind_pure]

/-- A query leaves the forest alone if it is for a root. Otherwise the two loops have run. -/
theorem Compresses.loops_of_lowest (compresses : f.Compresses size up rank)
    (plain : IsPlain size up height) (ranks : ∀ n < size, ranked n = .ok (rank n))
    (inside : n < size) (shallow : height n < size) (run : f.lowest ranked n = .ok (low, f')) :
    (up n = none → f' = f) ∧
      (up n ≠ none → ∃ path, f.Climbs n path ∧ f.compressAlong ranked path = .ok f') := by
  rw [Forest.lowest, compresses.fetch_link inside, ok_bind] at run
  have atRoot := compresses.root_iff n
  cases link : f.linkOf n with
  | none =>
    rw [link] at run
    obtain ⟨rfl, rfl⟩ := Prod.mk.inj (Except.ok.inj run)
    exact ⟨fun _ => rfl, fun below => absurd (atRoot.mp link) below⟩
  | some above =>
    obtain ⟨path, climbs, same⟩ :=
      compresses.climbs plain ranks inside shallow (by simp [link])
    rw [link] at run
    obtain ⟨f₁, compressed, run⟩ := bind_eq_ok_iff.mp run
    obtain ⟨best, _, run⟩ := bind_eq_ok_iff.mp run
    obtain ⟨rfl, rfl⟩ := Prod.mk.inj (Except.ok.inj run)
    rw [compress, compresses.link_size, same] at compressed
    refine ⟨fun root => ?_, fun _ => ⟨path, climbs, compressed⟩⟩
    rw [atRoot.mpr root] at link
    cases link

/-- There is one way up to a root only. -/
theorem Way.unique (one : Way up n met a) (other : Way up n met' b) (atA : up a = none)
    (atB : up b = none) : met = met' ∧ a = b := by
  induction one generalizing met' with
  | here =>
    cases other with
    | here => exact ⟨rfl, rfl⟩
    | up parent _ => rw [atA] at parent; cases parent
  | up parent _ ih =>
    cases other with
    | here => rw [atB] at parent; cases parent
    | up parent' rest =>
      obtain rfl := Option.some.inj (parent.symm.trans parent')
      obtain ⟨rfl, rfl⟩ := ih rest atA
      exact ⟨rfl, rfl⟩

/-- The way up from `n` ends at `root`. -/
def HasRoot (up : Node → Option Node) (n root : Node) : Prop :=
  up root = none ∧ ∃ met, Way up n met root

theorem HasRoot.unique (one : HasRoot up n a) (other : HasRoot up n b) : a = b := by
  obtain ⟨atA, _, toA⟩ := one
  obtain ⟨atB, _, toB⟩ := other
  exact (toA.unique toB atA atB).2

namespace Compresses

/-- A link stands for a way in the plain forest. -/
theorem hasRoot_up (compresses : f.Compresses size up rank) (ends : HasRoot f.linkOf n root) :
    HasRoot up n root := by
  obtain ⟨atRoot, met, way⟩ := ends
  refine ⟨(compresses.root_iff root).mp atRoot, ?_⟩
  clear atRoot
  induction way with
  | here => exact ⟨[], .here⟩
  | up link _ ih =>
    obtain ⟨first, toAbove, _⟩ := compresses.linked _ _ link
    obtain ⟨second, toRoot⟩ := ih
    exact ⟨first ++ second, toAbove.append toRoot⟩

theorem exists_root (compresses : f.Compresses size up rank) (plain : IsPlain size up height)
    (n : Node) : ∃ root, HasRoot f.linkOf n root := by
  induction size : height n using Nat.strongRecOn generalizing n with
  | ind _ ih =>
    subst size
    cases link : f.linkOf n with
    | none => exact ⟨n, link, [], .here⟩
    | some above =>
      obtain ⟨met, way, low⟩ := compresses.linked n above link
      have falls := plain.height_lt way (List.ne_nil_of_mem low.1)
      obtain ⟨root, atRoot, met, way⟩ := ih _ falls above rfl
      exact ⟨root, atRoot, n :: met, .up link way⟩

/-- All compressed forms of a plain forest have the same roots. -/
theorem same_root (one : f.Compresses size up rank) (other : f'.Compresses size up rank)
    (plain : IsPlain size up height) (n : Node) :
    ∃ root, HasRoot up n root ∧ HasRoot f.linkOf n root ∧ HasRoot f'.linkOf n root := by
  obtain ⟨root, first⟩ := one.exists_root plain n
  obtain ⟨root', second⟩ := other.exists_root plain n
  have above := one.hasRoot_up first
  obtain rfl := above.unique (other.hasRoot_up second)
  exact ⟨root, above, first, second⟩

end Compresses

/-- A root finds itself. Any other node finds a node of lowest rank on its way up to its root. -/
def Finds (up : Node → Option Node) (rank : Node → Nat) (n low : Node) : Prop :=
  ∃ met root, Way up n met root ∧ up root = none ∧ (met = [] ∧ low = n ∨ Lowest rank low met)

namespace Finds

theorem eq_of_root (finds : Finds up rank n low) (atN : up n = none) : low = n := by
  obtain ⟨met, root, way, _, ⟨_, same⟩ | best⟩ := finds
  · exact same
  · cases way with
    | here => exact absurd best.1 List.not_mem_nil
    | up parent _ => rw [atN] at parent; cases parent

theorem lowest (finds : Finds up rank n low) (below : up n ≠ none) :
    ∃ met root, Way up n met root ∧ up root = none ∧ Lowest rank low met := by
  obtain ⟨met, root, way, atRoot, ⟨rfl, _⟩ | best⟩ := finds
  · cases way
    exact absurd atRoot below
  · exact ⟨met, root, way, atRoot, best⟩

/-- What is found may differ, but not its rank. -/
theorem rank_eq (one : Finds up rank n low) (other : Finds up rank n low') :
    rank low = rank low' := by
  by_cases root : up n = none
  · rw [one.eq_of_root root, other.eq_of_root root]
  · obtain ⟨met, a, way, atA, member, least⟩ := one.lowest root
    obtain ⟨met', b, way', atB, member', least'⟩ := other.lowest root
    obtain ⟨rfl, _⟩ := way.unique way' atA atB
    exact Nat.le_antisymm (least low' member') (least' low member)

end Finds

end Forest

end ReachingValues
