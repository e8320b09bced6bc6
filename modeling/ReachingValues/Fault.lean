/-!
A fault is a precondition broken by the caller, as opposed to an error, which is an answer about
the input. Tables are read and written through `fetch` and `store`, so an index beyond the end is
never silently replaced by a default. On an index in range both succeed, which is all that proofs
about tables need. A table that grows on demand does so through `reserve`, which cannot make it
longer than tables of its kind can be.
-/

namespace ReachingValues

/-- The ways in which an operation can be called outside its domain. -/
inductive Fault where
  /-- An index was used that the table or set does not have. -/
  | indexOutOfRange (index size : Nat)
  /-- A table was to get more places than tables of its kind can have. -/
  | noRoom (places room : Nat)
  /-- Two sets over universes of different size were combined. -/
  | universeMismatch (left right : Nat)
  /-- A link was followed from a node that has none. -/
  | missingLink (node : Nat)
  /-- Links were followed for more steps than there are nodes. -/
  | linkCycle
  deriving DecidableEq

/-- The entry of `table` at `index`. -/
def fetch {α : Type} (table : Array α) (index : Nat) : Except Fault α :=
  match table[index]? with
  | some a => .ok a
  | none => .error (.indexOutOfRange index table.size)

/-- The table with `a` at `index`. -/
def store {α : Type} (table : Array α) (index : Nat) (a : α) : Except Fault (Array α) :=
  if h : index < table.size then .ok (table.set index a)
  else .error (.indexOutOfRange index table.size)

/-- The table with at least so many places, the new ones filled with `filler`. -/
def lengthen {α : Type} (table : Array α) (places : Nat) (filler : α) : Array α :=
  table ++ Array.replicate (places - table.size) filler

/-- The table with exactly so many places, which is cut off if it had more. -/
def resize {α : Type} (table : Array α) (places : Nat) (filler : α) : Array α :=
  (lengthen table places filler).take places

/-- Makes sure that a table, which can have `room` places, has one at `index`. -/
def reserve {α : Type} (table : Array α) (room index : Nat) (filler : α) :
    Except Fault (Array α) :=
  if index < table.size then .ok table
  else if index < room then .ok (resize table (index + 1) filler)
  else .error (.noRoom (index + 1) room)

theorem fetch_of_lt {α : Type} {table : Array α} {index : Nat} (h : index < table.size) :
    fetch table index = .ok table[index] := by
  simp [fetch, h]

theorem store_of_lt {α : Type} {table : Array α} {index : Nat} (a : α) (h : index < table.size) :
    store table index a = .ok (table.set index a) := by
  simp [store, h]

theorem fetch_eq {α : Type} {table : Array α} {index : Nat} (h : index < table.size) (default : α) :
    fetch table index = .ok (table[index]?.getD default) := by
  simp [fetch, h]

theorem fetch_eq_ok_iff {α : Type} {table : Array α} {index : Nat} {a : α} :
    fetch table index = .ok a ↔ table[index]? = some a := by
  unfold fetch
  split <;> simp_all

theorem store_eq {α : Type} {table : Array α} {index : Nat} (h : index < table.size) (a : α) :
    store table index a = .ok (table.setIfInBounds index a) := by
  simp [store, h, Array.setIfInBounds]

theorem getD_setIfInBounds {α : Type} {table : Array α} {index : Nat} (h : index < table.size)
    (i : Nat) (a default : α) :
    (table.setIfInBounds index a)[i]?.getD default =
      if i = index then a else table[i]?.getD default := by
  by_cases same : i = index
  · subst same; simp [h]
  · simp [same, Ne.symm same]

theorem size_lengthen {α : Type} (table : Array α) (places : Nat) (filler : α) :
    (lengthen table places filler).size = max table.size places := by
  rw [lengthen, Array.size_append, Array.size_replicate]
  omega

/-- Whoever takes `filler` for what is not there does not see that places were made. -/
theorem getD_lengthen {α : Type} (table : Array α) (places i : Nat) (filler : α) :
    (lengthen table places filler)[i]?.getD filler = table[i]?.getD filler := by
  rw [lengthen, Array.getElem?_append]
  split
  · rfl
  · rename_i beyond
    rw [Array.getElem?_replicate, Array.getElem?_eq_none (Nat.le_of_not_lt beyond)]
    split <;> rfl

theorem lt_size_lengthen {α : Type} (table : Array α) (index : Nat) (filler : α) :
    index < (lengthen table (index + 1) filler).size :=
  size_lengthen table (index + 1) filler ▸
    Nat.lt_of_lt_of_le (Nat.lt_succ_self index) (Nat.le_max_right _ _)

theorem lengthen_of_le {α : Type} {table : Array α} {places : Nat} (present : places ≤ table.size)
    (filler : α) : lengthen table places filler = table := by
  rw [lengthen, Nat.sub_eq_zero_of_le present, Array.replicate_zero, Array.append_empty]

theorem resize_of_le {α : Type} {table : Array α} {places : Nat} (short : table.size ≤ places)
    (filler : α) : resize table places filler = lengthen table places filler := by
  have size : (lengthen table places filler).size = places := by
    rw [size_lengthen, Nat.max_eq_right short]
  rw [resize, Array.take_eq_extract, Array.extract_eq_self_of_le (Nat.le_of_eq size)]

theorem reserve_of_lt {α : Type} {room index : Nat} (table : Array α) (filler : α)
    (inside : index < room) :
    reserve table room index filler = .ok (lengthen table (index + 1) filler) := by
  by_cases present : index < table.size
  · rw [reserve, if_pos present, lengthen_of_le present]
  · rw [reserve, if_neg present, if_pos inside,
      resize_of_le (Nat.le_succ_of_le (Nat.le_of_not_lt present))]

theorem reserve_of_le {α : Type} {table : Array α} {room index : Nat} (within : table.size ≤ room)
    (filler : α) (outside : room ≤ index) :
    reserve table room index filler = .error (.noRoom (index + 1) room) := by
  rw [reserve, if_neg (Nat.not_lt.mpr (Nat.le_trans within outside)),
    if_neg (Nat.not_lt.mpr outside)]

theorem eq_lengthen_of_reserve {α : Type} {table grown : Array α} {room index : Nat} {filler : α}
    (run : reserve table room index filler = .ok grown) :
    grown = lengthen table (index + 1) filler := by
  unfold reserve at run
  split at run
  · rename_i present
    rw [lengthen_of_le present, Except.ok.inj run]
  · rename_i absent
    split at run
    · rw [← Except.ok.inj run, resize_of_le (Nat.le_succ_of_le (Nat.le_of_not_lt absent))]
    · cases run

@[simp] theorem ok_bind {ε α β : Type} (a : α) (next : α → Except ε β) :
    (Except.ok a >>= next) = next a := rfl

@[simp] theorem error_bind {ε α β : Type} (error : ε) (next : α → Except ε β) :
    (Except.error error >>= next) = .error error := rfl

theorem bind_eq_ok_iff {ε α β : Type} {first : Except ε α} {next : α → Except ε β} {b : β} :
    first >>= next = .ok b ↔ ∃ a, first = .ok a ∧ next a = .ok b := by
  cases first <;> simp

@[simp] theorem pure_eq_ok {ε α : Type} (a : α) : (pure a : Except ε α) = .ok a := rfl

@[simp] theorem mapError_ok {ε δ α : Type} (change : ε → δ) (a : α) :
    (Except.ok a : Except ε α).mapError change = .ok a := rfl

@[simp] theorem mapError_error {ε δ α : Type} (change : ε → δ) (error : ε) :
    (Except.error error : Except ε α).mapError change = .error (change error) := rfl

theorem mapError_eq_ok_iff {ε δ α : Type} {change : ε → δ} {first : Except ε α} {a : α} :
    first.mapError change = .ok a ↔ first = .ok a := by
  cases first <;> simp

/-- What is seen of a result shows that there is one. -/
theorem exists_of_toOption_map {ε α β : Type} {first : Except ε α} {view : α → β} {b : β}
    (seen : first.toOption.map view = some b) : ∃ a, first = .ok a ∧ view a = b := by
  cases first with
  | error error => cases seen
  | ok a => exact ⟨a, rfl, Option.some.inj seen⟩

/-- A fold succeeds when every step does, given what holds after the steps before it. -/
theorem foldlM_ok {ε σ β : Type} (step : σ → β → Except ε σ) (list : List β) (start : σ)
    (holds : List β → σ → Prop) (initially : holds [] start)
    (kept : ∀ done next rest state, list = done ++ next :: rest → holds done state →
      ∃ later, step state next = .ok later ∧ holds (done ++ [next]) later) :
    ∃ final, list.foldlM step start = .ok final ∧ holds list final := by
  suffices general : ∀ rest done state, list = done ++ rest → holds done state →
      ∃ final, rest.foldlM step state = .ok final ∧ holds list final from
    general list [] start rfl initially
  intro rest
  induction rest with
  | nil =>
    intro done state split now
    exact ⟨state, rfl, by rwa [split, List.append_nil]⟩
  | cons next rest ih =>
    intro done state split now
    obtain ⟨later, run, after⟩ := kept done next rest state split now
    obtain ⟨final, tail, last⟩ := ih (done ++ [next]) later (by simpa using split) after
    refine ⟨final, ?_, last⟩
    rw [List.foldlM_cons, run, ok_bind]
    exact tail

/-- What holds at the start of a fold and is kept by its successful steps holds where it ends. -/
theorem holds_of_foldlM {ε σ β : Type} {step : σ → β → Except ε σ} {list : List β}
    {start final : σ} (holds : List β → σ → Prop) (initially : holds [] start)
    (kept : ∀ done next state later, holds done state → step state next = .ok later →
      holds (done ++ [next]) later)
    (run : list.foldlM step start = .ok final) : holds list final := by
  suffices general : ∀ rest done state, holds done state →
      rest.foldlM step state = .ok final → holds (done ++ rest) final from
    general list [] start initially run
  intro rest
  induction rest with
  | nil =>
    intro done state now run
    obtain rfl := Except.ok.inj run
    rwa [List.append_nil]
  | cons next rest ih =>
    intro done state now run
    rw [List.foldlM_cons] at run
    obtain ⟨later, first, tail⟩ := bind_eq_ok_iff.mp run
    simpa using ih (done ++ [next]) later (kept done next state later now first) tail

/-- A fold fails at the first step that does, after the steps before it. -/
theorem exists_of_foldlM_error {ε σ β : Type} {step : σ → β → Except ε σ} {list : List β}
    {start : σ} {error : ε} (run : list.foldlM step start = .error error) :
    ∃ done next rest state, list = done ++ next :: rest ∧ done.foldlM step start = .ok state ∧
      step state next = .error error := by
  induction list generalizing start with
  | nil => cases run
  | cons first rest ih =>
    rw [List.foldlM_cons] at run
    cases atFirst : step start first with
    | error other =>
      rw [atFirst, error_bind] at run
      exact ⟨[], first, rest, start, rfl, rfl, atFirst.trans (congrArg _ (Except.error.inj run))⟩
    | ok later =>
      rw [atFirst, ok_bind] at run
      obtain ⟨done, next, rest, state, split, before, failed⟩ := ih run
      refine ⟨first :: done, next, rest, state, congrArg _ split, ?_, failed⟩
      rw [List.foldlM_cons, atFirst, ok_bind, before]

theorem foldlM_congr {ε σ β : Type} {one other : σ → β → Except ε σ} {list : List β}
    (agree : ∀ b ∈ list, ∀ state, one state b = other state b) (start : σ) :
    list.foldlM one start = list.foldlM other start := by
  induction list generalizing start with
  | nil => rfl
  | cons first rest ih =>
    rw [List.foldlM_cons, List.foldlM_cons, agree first List.mem_cons_self]
    exact congrArg _ (funext fun later => ih (fun b member => agree b
      (List.mem_cons_of_mem _ member)) later)

/-- A map succeeds when it does on every entry, and keeps the order. -/
theorem mapM_ok {ε β γ : Type} (f : β → Except ε γ) (list : List β) (relates : β → γ → Prop)
    (each : ∀ b ∈ list, ∃ c, f b = .ok c ∧ relates b c) :
    ∃ out, list.mapM f = .ok out ∧ out.length = list.length ∧
      ∀ (i : Nat) b, list[i]? = some b → ∃ c, out[i]? = some c ∧ relates b c := by
  induction list with
  | nil => exact ⟨[], rfl, rfl, fun i b known => by simp at known⟩
  | cons first rest ih =>
    obtain ⟨c, atFirst, related⟩ := each first List.mem_cons_self
    obtain ⟨out, run, length, entries⟩ := ih fun b later => each b (List.mem_cons_of_mem _ later)
    refine ⟨c :: out, ?_, congrArg Nat.succ length, fun i b known => ?_⟩
    · rw [List.mapM_cons, atFirst, ok_bind, run, ok_bind, pure_eq_ok]
    · cases i with
      | zero =>
        obtain rfl := Option.some.inj known
        exact ⟨c, rfl, related⟩
      | succ i => exact entries i b known

/-- A map succeeds just when it does on every entry, and the results are those of the entries. -/
theorem mapM_eq_ok_iff {ε β γ : Type} {f : β → Except ε γ} {list : List β} {out : List γ} :
    list.mapM f = .ok out ↔ list.map f = out.map .ok := by
  induction list generalizing out with
  | nil => cases out <;> simp
  | cons first rest ih =>
    rw [List.mapM_cons, List.map_cons]
    cases atFirst : f first with
    | error error => cases out <;> simp
    | ok c =>
      cases later : rest.mapM f with
      | error error =>
        have never : ∀ tail : List γ, rest.map f ≠ tail.map .ok := fun tail all => by
          simpa [later] using ih.mpr all
        cases out <;> simp [never]
      | ok results =>
        have tail := ih.mp later
        cases out with
        | nil => simp
        | cons c' out' => simp [tail, List.map_inj_right]

/-- A map fails for the first entry on which it does, with the error of that entry. -/
theorem mapM_eq_error_iff {ε β γ : Type} {f : β → Except ε γ} {list : List β} {error : ε} :
    list.mapM f = .error error ↔ ∃ (i : Nat) (b : β), list[i]? = some b ∧ f b = .error error ∧
      ∀ j < i, ∀ a, list[j]? = some a → ∃ c, f a = .ok c := by
  induction list with
  | nil => simp
  | cons first rest ih =>
    rw [List.mapM_cons]
    cases atFirst : f first with
    | error other =>
      constructor
      · intro failed
        obtain rfl := Except.error.inj failed
        exact ⟨0, first, rfl, atFirst, fun j less => absurd less (Nat.not_lt_zero j)⟩
      · rintro ⟨i, b, known, failed, passed⟩
        cases i with
        | zero =>
          obtain rfl := Option.some.inj known
          rw [Except.error.inj (atFirst.symm.trans failed)]
          rfl
        | succ i =>
          obtain ⟨c, fine⟩ := passed 0 (Nat.succ_pos i) first rfl
          exact absurd (atFirst.symm.trans fine) (by simp)
    | ok c =>
      have onward : (Except.ok c >>= fun c => rest.mapM f >>= fun cs => pure (c :: cs)) =
          .error error ↔ rest.mapM f = .error error := by
        cases rest.mapM f <;> simp
      rw [onward, ih]
      constructor
      · rintro ⟨i, b, known, failed, passed⟩
        refine ⟨i + 1, b, known, failed, fun j less a atJ => ?_⟩
        cases j with
        | zero => exact ⟨c, Option.some.inj atJ ▸ atFirst⟩
        | succ j => exact passed j (Nat.lt_of_succ_lt_succ less) a atJ
      · rintro ⟨i, b, known, failed, passed⟩
        cases i with
        | zero =>
          obtain rfl := Option.some.inj known
          exact absurd (atFirst.symm.trans failed) (by simp)
        | succ i =>
          exact ⟨i, b, known, failed, fun j less => passed (j + 1) (Nat.succ_lt_succ less)⟩

theorem length_of_mapM {ε β γ : Type} {f : β → Except ε γ} {list : List β} {out : List γ}
    (run : list.mapM f = .ok out) : out.length = list.length := by
  simpa using (congrArg List.length (mapM_eq_ok_iff.mp run)).symm

theorem ok_of_mapM {ε β γ : Type} {f : β → Except ε γ} {list : List β} {out : List γ} {b : β}
    (run : list.mapM f = .ok out) (member : b ∈ list) : ∃ c, f b = .ok c := by
  have image := List.mem_map_of_mem (f := f) member
  rw [mapM_eq_ok_iff.mp run] at image
  obtain ⟨c, _, same⟩ := List.mem_map.mp image
  exact ⟨c, same.symm⟩

end ReachingValues
