import ReachingValues.Proofs.Analysis.Members

/-!
How results change with the settings. Two runs for different classes visit the same blocks, and as
every type has one digit at most, their sets are united by uniting the classes and have nothing in
common unless a digit that stands for a class has been asked for in both runs.
-/

namespace ReachingValues

/-- The digit that stands for the class of a type. -/
def Ty.digit? : Ty → Option Nat
  | .int _ => some 0
  | .float _ => some 1
  | .pointer => some 2
  | .void | .label => none

namespace TyClasses

variable {s t : TyClasses}

/-- A set has a class of one digit if it has the digit. -/
theorem contains_twoPow {i : Nat} (inside : i < 8) :
    s.contains ⟨BitVec.twoPow 8 i⟩ = s.bits.getLsbD i := by
  have nonzero : BitVec.twoPow 8 i ≠ 0#8 := fun zero => by
    have digit := congrArg (·.getLsbD i) zero
    simp [inside] at digit
  rw [contains, BitVec.and_twoPow]
  cases s.bits.getLsbD i with
  | true => simp
  | false => simpa using nonzero.symm

theorem getLsbD_truncate {i : Nat} (known : i < 3) :
    s.truncate.bits.getLsbD i = s.bits.getLsbD i := by
  have digits : all.bits = (BitVec.allOnes 3).setWidth 8 := rfl
  simp only [truncate, digits, BitVec.getLsbD_and, BitVec.getLsbD_setWidth,
    BitVec.getLsbD_allOnes]
  simp [known, Nat.lt_trans known (by decide : 3 < 8)]

theorem intersects_of_getLsbD {i : Nat} (left : s.bits.getLsbD i) (right : t.bits.getLsbD i) :
    s.intersects t := by
  rw [intersects, bne_iff_ne]
  intro zero
  have digit := congrArg (·.getLsbD i) zero
  simp [left, right] at digit

end TyClasses

namespace Ty

variable {s t : TyClasses}

theorem digit?_lt {k : Ty} {i : Nat} (digit : k.digit? = some i) : i < 3 := by
  cases k <;> simp_all [digit?] <;> omega

/-- A type is tracked if the digit for its class is among those asked for. -/
theorem isTracked_eq (k : Ty) (s : TyClasses) : k.isTracked s = k.digit?.any s.bits.getLsbD := by
  cases k with
  | void => rfl
  | label => rfl
  | int bits => exact TyClasses.contains_twoPow (i := 0) (by decide)
  | float bits => exact TyClasses.contains_twoPow (i := 1) (by decide)
  | pointer => exact TyClasses.contains_twoPow (i := 2) (by decide)

theorem isTracked_union (k : Ty) (s t : TyClasses) :
    k.isTracked (s.union t) = (k.isTracked s || k.isTracked t) := by
  rw [isTracked_eq, isTracked_eq, isTracked_eq]
  cases k.digit? with
  | none => rfl
  | some i => simp [TyClasses.union]

/-- A type that is tracked in two ways has a class that was asked for both times. -/
theorem intersects_of_isTracked {k : Ty} (left : k.isTracked s) (right : k.isTracked t) :
    s.truncate.intersects t.truncate := by
  rw [isTracked_eq, Option.any_eq_true] at left right
  obtain ⟨i, digit, inLeft⟩ := left
  obtain ⟨_, same, inRight⟩ := right
  obtain rfl := Option.some.inj (digit.symm.trans same)
  have known := digit?_lt digit
  exact TyClasses.intersects_of_getLsbD ((TyClasses.getLsbD_truncate known).trans inLeft)
    ((TyClasses.getLsbD_truncate known).trans inRight)

end Ty

namespace ReachTable

/-- At every block the table has the union of what two others have there, and no set if they have
none; the blocks were visited alike. -/
structure Unites (both left right : ReachTable) : Prop where
  blocks_left : both.blocks = left.blocks
  blocks_right : both.blocks = right.blocks
  sets : ∀ b, left.get? b = none ∧ right.get? b = none ∧ both.get? b = none ∨
    ∃ s t u, left.get? b = some s ∧ right.get? b = some t ∧ both.get? b = some u ∧
      (s.union t).map IndexSet.Growth.set = .ok u

/-- At every block the table lacks just the given values, all of which another one has there; the
blocks were visited alike. -/
structure LeavesOut (bare : ReachTable) (lost : ValueId → Prop) (full : ReachTable) : Prop where
  blocks_eq : bare.blocks = full.blocks
  sets : ∀ b, full.get? b = none ∧ bare.get? b = none ∨
    ∃ s t, full.get? b = some s ∧ bare.get? b = some t ∧ t.capacity = s.capacity ∧
      ∀ v, (s.contains v ↔ t.contains v ∨ lost v) ∧ ¬ (t.contains v ∧ lost v)

end ReachTable

namespace Program

variable {p : Program} {f : Function} {k : FunctionId} {b : Node} {v : ValueId}

theorem tracks_union (tyOf : Value → Ty) (A B : TyClasses) :
    p.tracks tyOf (A.union B) v = (p.tracks tyOf A v || p.tracks tyOf B v) := by
  unfold tracks
  cases p.value? v with
  | none => rfl
  | some value => exact Ty.isTracked_union _ A B

theorem intersects_of_tracks {tyOf : Value → Ty} {A B : TyClasses} (left : p.tracks tyOf A v)
    (right : p.tracks tyOf B v) : A.truncate.intersects B.truncate := by
  obtain ⟨value, known, inLeft⟩ := tracks_iff.mp left
  obtain ⟨_, same, inRight⟩ := tracks_iff.mp right
  obtain rfl := Option.some.inj (known.symm.trans same)
  exact Ty.intersects_of_isTracked inLeft inRight

/-- Without global variables a block is offered just what else it was offered. -/
theorem WellFormed.offers_without_globals (wellFormed : p.WellFormed)
    (known : p.functions[k]? = some f) :
    p.Offers f false b v ↔ p.Offers f true b v ∧ v ∉ p.globals := by
  constructor
  · intro offers
    have introduces := offers.introduces.resolve_left fun asked => Bool.noConfusion asked.1
    exact ⟨Or.inr (offers.resolve_left fun asked => Bool.noConfusion asked.1),
      fun global => wellFormed.not_introduces_of_global known global introduces⟩
  · rintro ⟨⟨_, global⟩ | own, other⟩
    · exact absurd global other
    · exact Or.inr own

/-- Runs for two sets of classes and one for both together. -/
theorem WellFormed.run_union (wellFormed : p.WellFormed) (known : p.functions[k]? = some f)
    (settings : Settings) (A B : TyClasses) :
    ∃ left right both, p.run { settings with tracked := A } k = .ok left ∧
      p.run { settings with tracked := B } k = .ok right ∧
      p.run { settings with tracked := A.union B } k = .ok both ∧
      both.Unites left right ∧ (A.truncate.intersects B.truncate = false →
        ∀ b v, left.contains b v = false ∨ right.contains b v = false) := by
  obtain ⟨left, runLeft, ofLeft⟩ := wellFormed.run_describes known { settings with tracked := A }
  obtain ⟨right, runRight, ofRight⟩ := wellFormed.run_describes known { settings with tracked := B }
  obtain ⟨both, runBoth, ofBoth⟩ :=
    wellFormed.run_describes known { settings with tracked := A.union B }
  refine ⟨left, right, both, runLeft, runRight, runBoth,
    ⟨ofBoth.visits_eq ofLeft rfl, ofBoth.visits_eq ofRight rfl, fun b => ?_⟩, fun apart b v => ?_⟩
  · by_cases reach : f.flow.Reaches f.entry b
    · obtain ⟨s, atLeft⟩ := ofLeft.exists_set reach
      obtain ⟨t, atRight⟩ := ofRight.exists_set reach
      obtain ⟨u, atBoth⟩ := ofBoth.exists_set reach
      have size : s.capacity = u.capacity :=
        (ofLeft.capacity_eq b s atLeft).trans (ofBoth.capacity_eq b u atBoth).symm
      have same : t.capacity = s.capacity :=
        (ofRight.capacity_eq b t atRight).trans (ofLeft.capacity_eq b s atLeft).symm
      refine Or.inr ⟨s, t, u, atLeft, atRight, atBoth,
        IndexSet.map_union_eq_ok_iff.mpr ⟨same, IndexSet.eq_iff.mpr ⟨size, fun v => ?_⟩⟩⟩
      rw [IndexSet.contains_withAll, Bool.eq_iff_iff, Bool.or_eq_true,
        ofLeft.contains_iff b s atLeft, ofRight.contains_iff b t atRight,
        ofBoth.contains_iff b u atBoth, tracks_union, Bool.or_eq_true, and_or_left]
    · exact Or.inl ⟨ofLeft.get?_eq_none reach, ofRight.get?_eq_none reach,
        ofBoth.get?_eq_none reach⟩
  · rw [← Bool.not_eq_true, ← Bool.not_eq_true, ← Decidable.not_and_iff_not_or_not,
      ofLeft.contains_eq_true_iff, ofRight.contains_eq_true_iff]
    rintro ⟨⟨_, _, tracked⟩, _, _, tracked'⟩
    exact Bool.noConfusion ((intersects_of_tracks tracked tracked').symm.trans apart)

/-- Runs with and without global variables. -/
theorem WellFormed.run_without_globals (wellFormed : p.WellFormed)
    (known : p.functions[k]? = some f) (settings : Settings) :
    ∃ full bare, p.run { settings with includeGlobals := true } k = .ok full ∧
      p.run { settings with includeGlobals := false } k = .ok bare ∧
      bare.LeavesOut (p.TracksGlobal settings.tracked) full := by
  obtain ⟨full, runFull, ofFull⟩ :=
    wellFormed.run_describes known { settings with includeGlobals := true }
  obtain ⟨bare, runBare, ofBare⟩ :=
    wellFormed.run_describes known { settings with includeGlobals := false }
  refine ⟨full, bare, runFull, runBare, ofBare.visits_eq ofFull rfl, fun b => ?_⟩
  by_cases reach : f.flow.Reaches f.entry b
  · obtain ⟨s, atFull⟩ := ofFull.exists_set reach
    obtain ⟨t, atBare⟩ := ofBare.exists_set reach
    refine Or.inr ⟨s, t, atFull, atBare, (ofBare.capacity_eq b t atBare).trans
      (ofFull.capacity_eq b s atFull).symm, fun v => ?_⟩
    rw [ofBare.contains_iff b t atBare, ofFull.contains_iff b s atFull,
      wellFormed.offers_without_globals known, wellFormed.tracksGlobal_iff]
    have offered : v ∈ p.globals → p.Offers f true b v := fun global => Or.inl ⟨rfl, global⟩
    grind
  · exact Or.inl ⟨ofFull.get?_eq_none reach, ofBare.get?_eq_none reach⟩

/-- The settings act on results by set algebra: the sets for united classes are the unions of those
for each, these have nothing in common unless the classes have a known digit in common, and a run
that leaves out global variables lacks those with storage of a tracked type and nothing else. -/
theorem run_set_algebra (built : p.Built) (known : p.function k = .ok f) (settings : Settings) :
    (∀ A B : TyClasses, ∃ left right both, p.run { settings with tracked := A } k = .ok left ∧
      p.run { settings with tracked := B } k = .ok right ∧
      p.run { settings with tracked := A.union B } k = .ok both ∧
      both.Unites left right ∧ (A.truncate.intersects B.truncate = false →
        ∀ b v, left.contains b v = false ∨ right.contains b v = false)) ∧
    ∃ full bare, p.run { settings with includeGlobals := true } k = .ok full ∧
      p.run { settings with includeGlobals := false } k = .ok bare ∧
      bare.LeavesOut (p.TracksGlobal settings.tracked) full :=
  have wellFormed := built.wellFormed
  have known := function_eq_ok.mp known
  ⟨wellFormed.run_union known settings, wellFormed.run_without_globals known settings⟩

/-- A digit that stands for no class does not make integers and floats overlap. -/
theorem run_set_algebra_diamond : ∃ integers floats both full bare,
    diamond.run { Settings.standard with tracked := ⟨9⟩ } 0 = .ok integers ∧
    diamond.run { Settings.standard with tracked := ⟨10⟩ } 0 = .ok floats ∧
    diamond.run { Settings.standard with tracked := ⟨11⟩ } 0 = .ok both ∧
    both.Unites integers floats ∧
    (∀ b v, integers.contains b v = false ∨ floats.contains b v = false) ∧
    diamond.run .standard 0 = .ok full ∧
    diamond.run { Settings.standard with includeGlobals := false } 0 = .ok bare ∧
    bare.LeavesOut (diamond.TracksGlobal .integers) full := by
  obtain ⟨union, full, bare, runFull, runBare, lacks⟩ :=
    run_set_algebra diamond_built diamond_function .standard
  obtain ⟨integers, floats, both, runIntegers, runFloats, runBoth, unites, apart⟩ :=
    union ⟨9⟩ ⟨10⟩
  exact ⟨integers, floats, both, full, bare, runIntegers, runFloats, runBoth, unites,
    apart (by decide), runFull, runBare, lacks⟩

end Program

end ReachingValues
