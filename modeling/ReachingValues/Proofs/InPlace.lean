import ReachingValues.Attempts

/-!
Changes made piece by piece. A change that is made in place keeps what it wrote before it failed, so
whether a failing call leaves a trace depends on the order of its checks and writes.
-/

namespace ReachingValues

variable {σ τ κ ρ α β : Type}

/-- The table with a changed entry at `index`. -/
def amend (table : Array α) (index : Nat) (change : α → α) : Except Fault (Array α) := do
  store table index (change (← fetch table index))

theorem amend_of_lt {table : Array α} {index : Nat} (inside : index < table.size)
    (change : α → α) : amend table index change = .ok (table.modify index change) := by
  rw [amend, fetch_of_lt inside, ok_bind, store_of_lt _ inside]
  refine congrArg _ (Array.ext_getElem? fun i => ?_)
  rw [Array.getElem?_set, Array.getElem?_modify]
  split
  · rename_i same
    subst same
    rw [Array.getElem?_eq_getElem inside, Option.map_some]
  · rfl

/-- Work on a state in place. -/
abbrev InPlace (σ : Type) := ExceptT Error (StateM σ)

namespace InPlace

/-- The answer of some work, and the state it leaves. -/
def outcome (work : InPlace σ α) (s : σ) : Except Error α × σ := work.run.run s

theorem outcome_bind {work : InPlace σ α} {s later : σ} {a : α}
    (run : work.outcome s = (.ok a, later)) (next : α → InPlace σ β) :
    outcome (work >>= next) s = (next a).outcome later := by
  have split : outcome (work >>= next) s =
      ExceptT.bindCont next (work.outcome s).1 (work.outcome s).2 := rfl
  rw [split, run]
  rfl

theorem outcome_bind_error {work : InPlace σ α} {s later : σ} {error : Error}
    (run : work.outcome s = (.error error, later)) (next : α → InPlace σ β) :
    outcome (work >>= next) s = (.error error, later) := by
  have split : outcome (work >>= next) s =
      ExceptT.bindCont next (work.outcome s).1 (work.outcome s).2 := rfl
  rw [split, run]
  rfl

theorem outcome_get_bind (next : σ → InPlace σ α) (s : σ) :
    outcome (get >>= next) s = (next s).outcome s := rfl

/-- Changes the entry at `index` in one of the tables that the state consists of. -/
def amend (table : σ → Array α) (replace : σ → Array α → σ) (index : Nat) (change : α → α) :
    InPlace σ Unit := do
  let s ← get
  match ReachingValues.amend (table s) index change with
  | .ok changed => set (replace s changed)
  | .error fault => throw (.fault fault)

theorem outcome_amend {table : σ → Array α} {index : Nat} {s : σ} (inside : index < (table s).size)
    (replace : σ → Array α → σ) (change : α → α) :
    (amend table replace index change).outcome s =
      (.ok (), replace s ((table s).modify index change)) := by
  rw [amend, outcome_get_bind, amend_of_lt inside]
  rfl

/-- Makes calls in place one after another, going on after failures, and returns all answers. -/
def attemptAll (perform : κ → InPlace σ ρ) (s : σ) : List κ → List (Except Error ρ) × σ
  | [] => ([], s)
  | call :: rest =>
    let (answer, later) := (perform call).outcome s
    let (answers, final) := attemptAll perform later rest
    (answer :: answers, final)

/-- What a call in place is to answer and to leave, if the plain call gives this result on `before`. A
failing call is to leave what was there. -/
def expected (view : τ → σ) (before : τ) : Except Error (ρ × τ) → Except Error ρ × σ
  | .ok (answer, later) => (.ok answer, view later)
  | .error error => (.error error, view before)

/-- If that is so for each call, it is for a run of them. -/
theorem attemptAll_eq {plain : τ → κ → Except Error (ρ × τ)} {perform : κ → InPlace σ ρ}
    {view : τ → σ}
    (agree : ∀ t call, (perform call).outcome (view t) = expected view t (plain t call)) (t : τ)
    (calls : List κ) :
    attemptAll perform (view t) calls =
      ((ReachingValues.attemptAll plain t calls).1,
        view (ReachingValues.attemptAll plain t calls).2) := by
  induction calls generalizing t with
  | nil => rfl
  | cons call rest ih =>
    rw [attemptAll, agree, ReachingValues.attemptAll]
    cases plain t call with
    | error error => simp only [expected, ih t]
    | ok result => simp only [expected, ih result.2]

end InPlace

end ReachingValues
