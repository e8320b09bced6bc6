import ReachingValues.Proofs.Analysis.Members

/-!
The analysis of a function after its program has grown. All functions share one arena, and every
session makes it larger, but a function has only values of its own; so what its blocks receive stays
the same except for global variables that were declared since.
-/

namespace ReachingValues

namespace Program

variable {p q : Program} {f : Function} {k : FunctionId} {tracked : TyClasses} {b : Node}
  {v : ValueId} {includeGlobals : Bool}

theorem Continues.tracks_eq (continues : q.Continues p) (inside : v < p.valueCount)
    (tyOf : Value → Ty) : q.tracks tyOf tracked v = p.tracks tyOf tracked v := by
  rw [tracks, tracks, continues.value?_eq inside]

theorem WellFormed.lt_valueCount_of_offers (wellFormed : p.WellFormed)
    (known : p.functions[k]? = some f) (offers : p.Offers f includeGlobals b v) :
    v < p.valueCount := by
  rcases offers.introduces with ⟨_, global⟩ | introduces
  · obtain ⟨_, recorded, _⟩ := wellFormed.function?_of_global global
    exact lt_valueCount_of_origin? recorded
  · exact wellFormed.lt_valueCount_of_introduces known introduces

/-- All that growth can add to what a block is offered are new global variables. -/
theorem Continues.offers_iff (continues : q.Continues p) :
    q.Offers f includeGlobals b v ↔
      p.Offers f includeGlobals b v ∨ includeGlobals ∧ v ∉ p.globals ∧ v ∈ q.globals := by
  have globals : includeGlobals ∧ v ∈ q.globals ↔ includeGlobals ∧ v ∈ p.globals ∨
      includeGlobals ∧ v ∉ p.globals ∧ v ∈ q.globals := by
    have older : v ∈ p.globals → v ∈ q.globals := continues.mem_globals
    by_cases old : v ∈ p.globals <;> simp [old, older]
  rw [Offers, globals, Offers, or_right_comm]

/-- What a block is offered and was made for some function, by what the arena records, is the
function's own: global variables are made for none. -/
theorem WellFormed.introduces_of_offers (wellFormed : p.WellFormed)
    (offers : p.Offers f includeGlobals b v) {origin : Origin} {maker : FunctionId}
    (recorded : p.origin? v = some origin) (made : origin.function? = some maker) :
    f.Introduces v := by
  refine offers.introduces.resolve_left fun ⟨_, global⟩ => ?_
  obtain ⟨other, recorded', none⟩ := wellFormed.function?_of_global global
  obtain rfl := Option.some.inj (recorded.symm.trans recorded')
  rw [made] at none
  cases none

/-- However a program grows, its functions are visited as before, and their blocks receive what they
received and the new global variables, but no value of another function and none that was left
behind. -/
theorem run_isolated {name : String} {history later : List Step}
    (before : (empty name).performAll history = p) (after : p.performAll later = q)
    (known : p.function k = .ok f) (settings : Settings) :
    ∃ old new, p.run settings k = .ok old ∧ q.run settings k = .ok new ∧
      new.blocks = old.blocks ∧
      (∀ b, new.isReached b = old.isReached b) ∧
      ∀ b s, old.get? b = some s → ∃ t, new.get? b = some t ∧
        (∀ v, t.contains v ↔ s.contains v ∨
          settings.includeGlobals ∧ v ∉ p.globals ∧ q.TracksGlobal settings.tracked v) ∧
        (∀ v, t.contains v → v ∈ q.globals ∨ f.Introduces v) ∧
        (∀ j other v, j ≠ k → q.function j = .ok other → other.Introduces v →
          t.contains v = false) ∧
        ∀ v ∈ (empty name).leftBehind (history ++ later), t.contains v = false := by
  have whole : (empty name).performAll (history ++ later) = q := by
    rw [performAll_append, before, after]
  have built : p.Built := ⟨name, history, before.symm⟩
  have wellFormed := built.wellFormed
  have wellFormed' : q.WellFormed := after ▸ (built.performAll later).wellFormed
  have continues : q.Continues p := after ▸ Continues.performAll p later
  have known := function_eq_ok.mp known
  have known' := continues.function_eq known
  obtain ⟨old, run, describes⟩ := wellFormed.run_describes known settings
  obtain ⟨new, run', describes'⟩ := wellFormed'.run_describes known' settings
  have reached := describes'.isReached_eq describes
  refine ⟨old, new, run, run', describes'.visits_eq describes rfl, reached, fun b s found => ?_⟩
  obtain ⟨t, found'⟩ : ∃ t, new.get? b = some t := by
    have visited := reached b
    rw [ReachTable.isReached, ReachTable.isReached, found] at visited
    exact Option.isSome_iff_exists.mp visited
  have members := describes.contains_iff b s found
  have members' := describes'.contains_iff b t found'
  -- a value in the block that records a maker is one of the function's own
  have own : ∀ v origin maker, t.contains v → q.origin? v = some origin →
      origin.function? = some maker → f.Introduces v :=
    fun v origin maker member => wellFormed'.introduces_of_offers ((members' v).mp member).1
  refine ⟨t, found', fun v => ?_,
    fun v member => ((members' v).mp member).1.introduces.imp_left And.right,
    fun j other v different atJ introduces => ?_, fun v left => ?_⟩
  · rw [members, members', continues.offers_iff, wellFormed'.tracksGlobal_iff, or_and_right,
      and_assoc, and_assoc]
    refine or_congr_left (and_congr_right fun offers => ?_)
    rw [continues.tracks_eq (wellFormed.lt_valueCount_of_offers known offers)]
  · refine Bool.eq_false_iff.mpr fun member => different ?_
    have atJ := function_eq_ok.mp atJ
    obtain ⟨origin, recorded, made⟩ := wellFormed'.function?_of_introduces atJ introduces
    exact wellFormed'.introduces_unique atJ introduces known' (own v origin j member recorded made)
  · refine Bool.eq_false_iff.mpr fun member => ?_
    have start : (empty name).Built := ⟨name, [], rfl⟩
    obtain ⟨origin, maker, recorded, made⟩ := function?_of_leftBehind start left
    have accounts := accounts_of_history name (history ++ later)
    rw [whole] at recorded accounts
    exact (accounts.stray v left).2 k f known' (own v origin maker member recorded made)

/-- What may come after `diamond`: a global variable, a draft that is given up, and one that gets
the handle of that draft. -/
def afterDiamond : List Step :=
  [.globalVariable "h" (.int 64) none,
    .session ⟨"g", [("m", .int 32)], [], false⟩,
    .session ⟨"g", [("m", .int 32)], [.block "entry", .ret 0 (some 11)], true⟩]

/-- At the join the new global variable holds as well, but neither of the two parameters. -/
theorem run_isolated_diamond : ∃ new s, (diamond.performAll afterDiamond).run .standard 0 = .ok new ∧
    new.get? 3 = some s ∧ s.contains 9 = true ∧ s.contains 10 = false ∧ s.contains 11 = false := by
  obtain ⟨old, new, run, run', _, _, each⟩ := run_isolated
    (rfl : (empty "sample").performAll _ = diamond)
    (rfl : diamond.performAll afterDiamond = _) diamond_function .standard
  obtain ⟨_, same, describes⟩ :=
    diamond_built.wellFormed.run_describes (function_eq_ok.mp diamond_function) .standard
  obtain rfl := Except.ok.inj (run.symm.trans same)
  obtain ⟨s, found⟩ :=
    Option.isSome_iff_exists.mp ((describes.reached_iff 3).mpr diamond_join.reaches)
  obtain ⟨t, found', members, _, others, left⟩ := each 3 s found
  refine ⟨new, t, run', found', (members 9).mpr (Or.inr ⟨rfl, ?_, ?_, .int 64, none, rfl, rfl⟩),
    left 10 (by decide), others 1 _ 11 (by decide) rfl (Or.inl (by decide))⟩
  · have only : diamond.globals = #[0] := rfl
    show 9 ∉ diamond.globals
    simp [only]
  · exact Array.mem_of_getElem? (i := 1) rfl

end Program

end ReachingValues
