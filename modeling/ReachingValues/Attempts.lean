import ReachingValues.Error

/-!
Runs of calls that may be refused. A refused call is answered with an error and leaves the state as it
was, and the run goes on with the next one; so what a run makes is made by the accepted calls alone.
-/

namespace ReachingValues

variable {σ κ ρ : Type} (perform : σ → κ → Except Error (ρ × σ))

/-- Makes calls one after another, going on after failures, and returns all answers. -/
def attemptAll (s : σ) : List κ → List (Except Error ρ) × σ
  | [] => ([], s)
  | call :: rest =>
    match perform s call with
    | .ok (answer, later) =>
      let (answers, final) := attemptAll later rest
      (.ok answer :: answers, final)
    | .error error =>
      let (answers, final) := attemptAll s rest
      (.error error :: answers, final)

/-- The calls that were not answered with an error. -/
def accepted (calls : List κ) (answers : List (Except Error ρ)) : List κ :=
  ((calls.zip answers).filter fun pair => pair.2.isOk).map (·.1)

variable {perform} {s later : σ} {call : κ} {rest : List κ} {answer : ρ} {error : Error}

theorem attemptAll_cons_ok (run : perform s call = .ok (answer, later)) :
    attemptAll perform s (call :: rest) =
      (.ok answer :: (attemptAll perform later rest).1, (attemptAll perform later rest).2) := by
  rw [attemptAll, run]

theorem attemptAll_cons_error (run : perform s call = .error error) :
    attemptAll perform s (call :: rest) =
      (.error error :: (attemptAll perform s rest).1, (attemptAll perform s rest).2) := by
  rw [attemptAll, run]

variable (perform)

theorem length_attemptAll (s : σ) (calls : List κ) :
    (attemptAll perform s calls).1.length = calls.length := by
  induction calls generalizing s with
  | nil => rfl
  | cons call rest ih =>
    cases run : perform s call with
    | error error => rw [attemptAll_cons_error run, List.length_cons, List.length_cons, ih]
    | ok result => rw [attemptAll_cons_ok run, List.length_cons, List.length_cons, ih]

/-- Without the calls that are refused the others get the same answers and make the same state. -/
theorem attemptAll_accepted (s : σ) (calls : List κ) :
    attemptAll perform s (accepted calls (attemptAll perform s calls).1) =
      ((attemptAll perform s calls).1.filter (·.isOk), (attemptAll perform s calls).2) := by
  induction calls generalizing s with
  | nil => rfl
  | cons call rest ih =>
    cases run : perform s call with
    | error error =>
      rw [attemptAll_cons_error run]
      exact ih s
    | ok result =>
      obtain ⟨answer, later⟩ := result
      have kept : accepted (call :: rest) (.ok answer :: (attemptAll perform later rest).1) =
          call :: accepted rest (attemptAll perform later rest).1 := rfl
      rw [attemptAll_cons_ok run, kept, attemptAll_cons_ok run, ih later]
      rfl

/-- What every accepted call keeps holds after any calls, and tells of the accepted ones. -/
theorem attemptAll_induct (holds : List κ → σ → Prop) {s : σ} (start : holds [] s)
    (kept : ∀ done state call answer later, perform state call = .ok (answer, later) →
      holds done state → holds (done ++ [call]) later) (calls : List κ) :
    holds (accepted calls (attemptAll perform s calls).1) (attemptAll perform s calls).2 := by
  suffices general : ∀ done s, holds done s →
      holds (done ++ accepted calls (attemptAll perform s calls).1)
        (attemptAll perform s calls).2 from general [] s start
  clear start s
  induction calls with
  | nil =>
    intro done s now
    simpa [attemptAll, accepted] using now
  | cons call rest ih =>
    intro done s now
    rw [attemptAll]
    cases run : perform s call with
    | error error => exact ih done s now
    | ok result =>
      have later := ih (done ++ [call]) result.2 (kept done s call result.1 result.2 run now)
      rwa [List.append_assoc] at later

end ReachingValues
