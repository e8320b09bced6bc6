import ReachingValues.Dominators.Forest

/-!
A forest with shortened links answers as the plain forest does from which it came. What the links
must satisfy is that each leads to some ancestor and that the best node beside it is best on the way
to that ancestor. Skipping a link keeps this because the best of two adjoining ways is the better of
their best nodes.
-/

namespace ReachingValues

namespace Forest

def linkOf (f : Forest) (n : Node) : Option Node := f.link[n]?.getD none

def bestOf (f : Forest) (n : Node) : Node := f.best[n]?.getD n

/-- The nodes met on the way up from the first node to the last, the last left out. -/
inductive Way (up : Node → Option Node) : Node → List Node → Node → Prop where
  | here {n : Node} : Way up n [] n
  | up {n m a : Node} {met : List Node} : up n = some m → Way up m met a → Way up n (n :: met) a

namespace Way

variable {up up' : Node → Option Node} {n m a x : Node} {met more : List Node}

theorem append (first : Way up n met m) (second : Way up m more a) :
    Way up n (met ++ more) a := by
  induction first with
  | here => exact second
  | up parent _ ih => exact .up parent (ih second)

theorem up_ne_none (way : Way up n met a) (member : x ∈ met) : up x ≠ none := by
  induction way with
  | here => simp at member
  | up parent rest ih =>
    rcases List.mem_cons.mp member with rfl | later
    · simp [parent]
    · exact ih later

theorem mono (way : Way up n met a) (keeps : ∀ n m, up n = some m → up' n = some m) :
    Way up' n met a := by
  induction way with
  | here => exact .here
  | up parent _ ih => exact .up (keeps _ _ parent) ih

end Way

/-- A node of the list of which none is ranked lower. -/
def Lowest (rank : Node → Nat) (low : Node) (met : List Node) : Prop :=
  low ∈ met ∧ ∀ x ∈ met, rank low ≤ rank x

theorem Lowest.append {rank : Node → Nat} {low high : Node} {met more : List Node}
    (first : Lowest rank low met) (second : Lowest rank high more) :
    Lowest rank (if rank high < rank low then high else low) (met ++ more) := by
  have one := first.2
  have two := second.2
  by_cases less : rank high < rank low
  · rw [if_pos less]
    refine ⟨List.mem_append_right _ second.1, fun x member => ?_⟩
    rcases List.mem_append.mp member with early | late
    · exact Nat.le_trans (Nat.le_of_lt less) (one x early)
    · exact two x late
  · rw [if_neg less]
    refine ⟨List.mem_append_left _ first.1, fun x member => ?_⟩
    rcases List.mem_append.mp member with early | late
    · exact one x early
    · exact Nat.le_trans (Nat.not_lt.mp less) (two x late)

/-- The forest is a compressed form of the plain forest in which `up` leads from a node to its
parent. -/
structure Compresses (f : Forest) (size : Nat) (up : Node → Option Node) (rank : Node → Nat) :
    Prop where
  link_size : f.link.size = size
  best_size : f.best.size = size
  root_iff : ∀ n, f.linkOf n = none ↔ up n = none
  best_root : ∀ n, up n = none → f.bestOf n = n
  linked : ∀ n a, f.linkOf n = some a → ∃ met, Way up n met a ∧ Lowest rank (f.bestOf n) met

/-- A plain forest over the nodes below `size`, in which links lead to lower places. -/
structure IsPlain (size : Nat) (up : Node → Option Node) (height : Node → Nat) : Prop where
  inside : ∀ n m, up n = some m → n < size ∧ m < size
  falls : ∀ n m, up n = some m → height m < height n

namespace IsPlain

variable {size : Nat} {up : Node → Option Node} {height : Node → Nat}
  (plain : IsPlain size up height)
  {n a x : Node} {met : List Node}

include plain

theorem height_lt (way : Way up n met a) (some : met ≠ []) : height a < height n := by
  induction way with
  | here => exact absurd rfl some
  | @up n m a met parent rest ih =>
    have step := plain.falls n m parent
    by_cases last : met = []
    · subst last
      cases rest
      exact step
    · exact Nat.lt_trans (ih last) step

theorem lt_size (way : Way up n met a) (member : x ∈ met) : x < size := by
  obtain ⟨m, parent⟩ := Option.ne_none_iff_exists'.mp (way.up_ne_none member)
  exact (plain.inside x m parent).1

theorem end_lt_size (way : Way up n met a) (start : n < size) : a < size := by
  induction way with
  | here => exact start
  | up parent _ ih => exact ih (plain.inside _ _ parent).2

end IsPlain

namespace Compresses

variable {f : Forest} {size : Nat} {up : Node → Option Node} {rank : Node → Nat}
  {ranked : Node → Except Fault Nat} {height : Node → Nat} {n above top : Node}

/-- Ranks matter for nodes below a root only. -/
theorem congr_rank {other : Node → Nat} (compresses : f.Compresses size up rank)
    (same : ∀ n, up n ≠ none → rank n = other n) : f.Compresses size up other where
  link_size := compresses.link_size
  best_size := compresses.best_size
  root_iff := compresses.root_iff
  best_root := compresses.best_root
  linked n a link := by
    obtain ⟨met, way, member, least⟩ := compresses.linked n a link
    refine ⟨met, way, member, fun x other => ?_⟩
    rw [← same _ (way.up_ne_none member), ← same x (way.up_ne_none other)]
    exact least x other

theorem fetch_link (compresses : f.Compresses size up rank) (inside : n < size) :
    fetch f.link n = .ok (f.linkOf n) :=
  fetch_eq (by rw [compresses.link_size]; exact inside) none

theorem fetch_best (compresses : f.Compresses size up rank) (inside : n < size) :
    fetch f.best n = .ok (f.bestOf n) :=
  fetch_eq (by rw [compresses.best_size]; exact inside) n

/-- A link may be replaced by one that leads further up, with the best of the longer way. -/
theorem relink (compresses : f.Compresses size up rank) (below : up n ≠ none) {f' : Forest}
    {best : Node} (link_size : f'.link.size = size) (best_size : f'.best.size = size)
    (links : ∀ m, f'.linkOf m = if m = n then some top else f.linkOf m)
    (bests : ∀ m, f'.bestOf m = if m = n then best else f.bestOf m)
    (way : ∃ met, Way up n met top ∧ Lowest rank best met) : f'.Compresses size up rank := by
  refine ⟨link_size, best_size, fun m => ?_, fun m root => ?_, fun m a link => ?_⟩
  · rw [links]
    split
    · rename_i same
      simp [same, below]
    · exact compresses.root_iff m
  · rw [bests, if_neg (by rintro rfl; exact below root)]
    exact compresses.best_root m root
  · rw [links] at link
    rw [bests]
    by_cases same : m = n
    · subst same
      rw [if_pos rfl] at link ⊢
      obtain rfl := Option.some.inj link
      exact way
    · rw [if_neg same] at link ⊢
      exact compresses.linked m a link

theorem skip (compresses : f.Compresses size up rank) (plain : IsPlain size up height)
    (ranks : ∀ n < size, ranked n = .ok (rank n)) (lower : f.linkOf n = some above)
    (upper : f.linkOf above = some top) :
    ∃ f', f.skip ranked n above = .ok f' ∧ f'.Compresses size up rank ∧
      ∀ m, f'.linkOf m = if m = n then some top else f.linkOf m := by
  obtain ⟨met, first, lowFirst⟩ := compresses.linked n above lower
  obtain ⟨more, second, lowSecond⟩ := compresses.linked above top upper
  have below : up n ≠ none := fun root => by
    rw [(compresses.root_iff n).mpr root] at lower
    cases lower
  obtain ⟨parent, atN⟩ := Option.ne_none_iff_exists'.mp below
  have insideN := (plain.inside n parent atN).1
  have insideAbove := plain.end_lt_size first insideN
  have insideBest := plain.lt_size first lowFirst.1
  have insideUpper := plain.lt_size second lowSecond.1
  have room : n < f.best.size := by rw [compresses.best_size]; exact insideN
  have roomLink : n < f.link.size := by rw [compresses.link_size]; exact insideN
  obtain ⟨best, choice, bestSize, bestAt⟩ : ∃ best : Array Node,
      best = (if rank (f.bestOf above) < rank (f.bestOf n)
        then f.best.setIfInBounds n (f.bestOf above) else f.best) ∧ best.size = size ∧
      ∀ m, best[m]?.getD m = if m = n then
        (if rank (f.bestOf above) < rank (f.bestOf n) then f.bestOf above else f.bestOf n)
        else f.bestOf m := by
    refine ⟨_, rfl, ?_, fun m => ?_⟩
    · split <;> simp [compresses.best_size]
    · split
      · exact getD_setIfInBounds room m _ m
      · split
        · rename_i same
          rw [same]
          rfl
        · rfl
  have linkAt : ∀ m, (f.link.setIfInBounds n (some top))[m]?.getD none =
      if m = n then some top else f.linkOf m := fun m => getD_setIfInBounds roomLink m _ none
  have linkSize : (f.link.setIfInBounds n (some top)).size = size := by
    rw [Array.size_setIfInBounds, compresses.link_size]
  refine ⟨⟨f.link.setIfInBounds n (some top), best⟩, ?_, ?_, linkAt⟩
  · simp only [Forest.skip, compresses.fetch_best insideAbove, compresses.fetch_best insideN,
      ranks _ insideUpper, ranks _ insideBest, ok_bind, compresses.fetch_link insideAbove,
      upper, store_eq roomLink, store_eq room, pure_eq_ok, choice]
    split <;> rfl
  · exact compresses.relink below linkSize bestSize linkAt bestAt
      ⟨met ++ more, first.append second, lowFirst.append lowSecond⟩

/-- Compression keeps the answers and links the node to its root. Nodes from higher places on are
left alone. -/
theorem compressWithin (plain : IsPlain size up height)
    (ranks : ∀ n < size, ranked n = .ok (rank n)) {steps : Nat}
    (compresses : f.Compresses size up rank) (inside : n < size) (enough : height n < steps) :
    ∃ f', Forest.compressWithin ranked steps f n = .ok f' ∧ f'.Compresses size up rank ∧
      (∀ a, f'.linkOf n = some a → up a = none) ∧
      ∀ m, height n < height m → f'.linkOf m = f.linkOf m := by
  induction steps generalizing n with
  | zero => omega
  | succ steps ih =>
    rw [Forest.compressWithin, compresses.fetch_link inside, ok_bind]
    cases lower : f.linkOf n with
    | none => exact ⟨f, rfl, compresses, by simp [lower], fun _ _ => rfl⟩
    | some above =>
      obtain ⟨met, way, low⟩ := compresses.linked n above lower
      have insideAbove := plain.end_lt_size way inside
      have falls := plain.height_lt way (List.ne_nil_of_mem low.1)
      simp only [compresses.fetch_link insideAbove, ok_bind]
      cases upper : f.linkOf above with
      | none =>
        refine ⟨f, rfl, compresses, fun a link => ?_, fun _ _ => rfl⟩
        obtain rfl := Option.some.inj (lower.symm.trans link)
        exact (compresses.root_iff above).mp upper
      | some middle =>
        obtain ⟨g, run, again, direct, kept⟩ := ih insideAbove (by omega)
        have notRoot : g.linkOf above ≠ none := fun root => by
          rw [(compresses.root_iff above).mpr ((again.root_iff above).mp root)] at upper
          cases upper
        obtain ⟨top, link⟩ := Option.ne_none_iff_exists'.mp notRoot
        have same : g.linkOf n = some above := (kept n falls).trans lower
        obtain ⟨f', skipped, final, links⟩ := again.skip plain ranks same link
        refine ⟨f', ?_, final, fun a atN => ?_, fun m higher => ?_⟩
        · simp only [run, ok_bind]
          exact skipped
        · rw [links, if_pos rfl] at atN
          obtain rfl := Option.some.inj atN
          exact direct top link
        · rw [links, if_neg (by rintro rfl; omega)]
          exact kept m (by omega)

/-- The answer is best on the way up to the root in the plain forest, and a root answers for
itself. -/
theorem lowest (compresses : f.Compresses size up rank) (plain : IsPlain size up height)
    (ranks : ∀ n < size, ranked n = .ok (rank n)) (inside : n < size) (shallow : height n < size) :
    ∃ low f', f.lowest ranked n = .ok (low, f') ∧ f'.Compresses size up rank ∧
      ∃ met root, Way up n met root ∧ up root = none ∧
        (met = [] ∧ low = n ∨ Lowest rank low met) := by
  rw [Forest.lowest, compresses.fetch_link inside, ok_bind]
  cases link : f.linkOf n with
  | none =>
    exact ⟨n, f, rfl, compresses, [], n, .here, (compresses.root_iff n).mp link, Or.inl ⟨rfl, rfl⟩⟩
  | some above =>
    obtain ⟨f', run, again, direct, _⟩ := compresses.compressWithin plain ranks inside shallow
    have notRoot : f'.linkOf n ≠ none := fun root => by
      rw [(compresses.root_iff n).mpr ((again.root_iff n).mp root)] at link
      cases link
    obtain ⟨root, atRoot⟩ := Option.ne_none_iff_exists'.mp notRoot
    obtain ⟨met, way, low⟩ := again.linked n root atRoot
    refine ⟨f'.bestOf n, f', ?_, again, met, root, way, direct root atRoot, Or.inr low⟩
    simp only [compress, compresses.link_size, run, ok_bind, again.fetch_best inside, pure_eq_ok]

theorem attach (compresses : f.Compresses size up rank) (inside : n < size) (root : up n = none) :
    ∃ f', f.attach above n = .ok f' ∧
      f'.Compresses size (fun m => if m = n then some above else up m) rank := by
  have room : n < f.link.size := by rw [compresses.link_size]; exact inside
  refine ⟨⟨f.link.setIfInBounds n (some above), f.best⟩, ?_, ?_⟩
  · rw [Forest.attach, store_eq room, ok_bind, pure_eq_ok]
  have linkAt : ∀ m, (⟨f.link.setIfInBounds n (some above), f.best⟩ : Forest).linkOf m =
      if m = n then some above else f.linkOf m := fun m => getD_setIfInBounds room m _ none
  constructor
  · rw [Array.size_setIfInBounds, compresses.link_size]
  · exact compresses.best_size
  · intro m
    rw [linkAt]
    by_cases same : m = n
    · simp [same]
    · rw [if_neg same, if_neg same]
      exact compresses.root_iff m
  · intro m notLinked
    by_cases same : m = n
    · simp [same] at notLinked
    · rw [if_neg same] at notLinked
      exact compresses.best_root m notLinked
  · intro m a link
    rw [linkAt] at link
    by_cases same : m = n
    · subst same
      rw [if_pos rfl] at link
      obtain rfl := Option.some.inj link
      have itself : f.bestOf m = m := compresses.best_root m root
      refine ⟨[m], .up (if_pos rfl) .here, ?_⟩
      have best : (⟨f.link.setIfInBounds m (some above), f.best⟩ : Forest).bestOf m = m := itself
      simp [Lowest, best]
    · rw [if_neg same] at link
      obtain ⟨met, way, low⟩ := compresses.linked m a link
      refine ⟨met, way.mono fun x y parent => ?_, low⟩
      rw [if_neg (by rintro rfl; simp [root] at parent)]
      exact parent

end Compresses

theorem compresses_singletons (size : Nat) (rank : Node → Nat) :
    (singletons size).Compresses size (fun _ => none) rank where
  link_size := Array.size_replicate
  best_size := Array.size_range
  root_iff n := by
    simp only [linkOf, singletons, Array.getElem?_replicate, iff_true]
    split <;> rfl
  best_root n _ := by
    simp only [bestOf, singletons, Array.getElem?_range]
    split <;> rfl
  linked n a link := by
    simp only [linkOf, singletons, Array.getElem?_replicate] at link
    split at link <;> cases link

end Forest

end ReachingValues
