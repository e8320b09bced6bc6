import ReachingValues.IndexSet.Lemmas

/-!
The enumeration and the count of the members. A cursor stands at an index, one step finds the first
member that does not lie before it and leaves the cursor right after that member, so the steps from
the first index on find every member once and in ascending order. Counting goes word by word and
comes to the same number.
-/

namespace ReachingValues

namespace Word

theorem toNat_cpop_eq_countP (word : Word) :
    word.cpop.toNat = (List.range 64).countP word.getLsbD := by
  have lower : ∀ n, word.cpopNatRec n 0 = (List.range n).countP word.getLsbD := by
    intro n
    induction n with
    | zero => rfl
    | succ n ih =>
      rw [BitVec.cpopNatRec_succ, BitVec.cpopNatRec_eq, ih, List.range_succ, List.countP_append]
      cases top : word.getLsbD n <;> simp [top]
  rw [BitVec.toNat_cpop, lower]

/-- The ones of the words make up the ones of the row. -/
theorem foldl_cpop_eq (words : Array Word) (start : Nat) :
    words.foldl (fun total word => total + word.cpop.toNat) start =
      start + (List.range (64 * words.size)).countP (digit words) := by
  obtain ⟨list⟩ := words
  rw [List.foldl_toArray]
  induction list generalizing start with
  | nil => simp
  | cons word rest ih =>
    have first : (List.range 64).countP (digit ⟨word :: rest⟩) = word.cpop.toNat := by
      rw [toNat_cpop_eq_countP]
      refine List.countP_congr fun i member => ?_
      have below := List.mem_range.mp member
      simp [digit, Nat.div_eq_of_lt below, Nat.mod_eq_of_lt below]
    have later : ∀ i, digit ⟨word :: rest⟩ (64 + i) = digit ⟨rest⟩ i := fun i => by
      simp [digit, Nat.add_div_left]
    have size : 64 * (word :: rest).length = 64 + 64 * rest.length := by
      rw [List.length_cons]
      omega
    rw [List.foldl_cons, ih, List.size_toArray, List.size_toArray, size, List.range_add,
      List.countP_append, first, List.countP_map, Nat.add_assoc]
    congr 2
    exact List.countP_congr fun i _ => by simp [later]

end Word

namespace IndexSet

variable {s : IndexSet} {c later : Cursor} {i j : Nat}

/-- The index at which a cursor stands. -/
def Cursor.position (c : Cursor) : Nat := 64 * c.word + c.digit

theorem contains_word (room : c.word < s.words.size) (below : j < 64) :
    s.contains (64 * c.word + j) = s.words[c.word].getLsbD j := by
  rw [contains_eq_digit, Word.getLsbD_getElem room below]

/-- A word is given up only when it has no member left. -/
theorem not_contains_of_blank (room : c.word < s.words.size)
    (blank : s.words[c.word] >>> c.digit = 0#64) (here : c.position ≤ i)
    (inWord : i < 64 * (c.word + 1)) : s.contains i = false := by
  unfold Cursor.position at here
  obtain ⟨j, rfl⟩ := Nat.exists_eq_add_of_le here
  have digit := congrArg (BitVec.getLsbD · j) blank
  rw [BitVec.getLsbD_ushiftRight, BitVec.getLsbD_zero] at digit
  rw [Nat.add_assoc, contains_word room (by omega), digit]

theorem not_contains_of_next (within : c.digit < 64) (ended : s.next c = none)
    (here : c.position ≤ i) : s.contains i = false := by
  induction c using next.induct s with
  | case1 c room remaining zero ih =>
    rw [next, dif_pos room, if_pos zero] at ended
    rcases Nat.lt_or_ge i (64 * (c.word + 1)) with inWord | beyond
    · exact not_contains_of_blank room zero here inWord
    · exact ih (Nat.succ_pos 63) ended beyond
  | case2 c room remaining nonzero =>
    rw [next, dif_pos room, if_neg nonzero] at ended
    cases ended
  | case3 c outside =>
    unfold Cursor.position at here
    have beyond : ¬ i / 64 < s.words.size := by omega
    simp [contains_eq_digit, Word.digit, beyond]

/-- What a step from a cursor to a later one finds: the first member that does not lie before the
cursor. It goes on right after this member. -/
structure Finds (s : IndexSet) (c : Cursor) (i : Nat) (later : Cursor) : Prop where
  reached : c.position ≤ i
  member : s.contains i
  first : ∀ j, c.position ≤ j → s.contains j → i ≤ j
  resumes : later.position = i + 1
  within : later.digit < 64

theorem finds_of_next (within : c.digit < 64) (found : s.next c = some (i, later)) :
    s.Finds c i later := by
  induction c using next.induct s with
  | case1 c room remaining zero ih =>
    rw [next, dif_pos room, if_pos zero] at found
    have below := ih (Nat.succ_pos 63) found
    have beyond : 64 * (c.word + 1) ≤ i := below.reached
    refine ⟨?_, below.member, fun j here member => ?_, below.resumes, below.within⟩
    · unfold Cursor.position
      omega
    · refine below.first j (Nat.le_of_not_lt fun inWord => ?_) member
      rw [not_contains_of_blank room zero here inWord] at member
      cases member
  | case2 c room remaining nonzero =>
    obtain ⟨offset, known⟩ : ∃ offset, (s.words[c.word] >>> c.digit).ctz.toNat = offset := ⟨_, rfl⟩
    have one : s.words[c.word].getLsbD (c.digit + offset) := by
      rw [← BitVec.getLsbD_ushiftRight, ← known]
      exact BitVec.getLsbD_true_ctz_of_ne_zero nonzero
    have zeros : ∀ k < offset, s.words[c.word].getLsbD (c.digit + k) = false := fun k low => by
      rw [← BitVec.getLsbD_ushiftRight]
      exact BitVec.getLsbD_false_of_lt_ctz (known ▸ low)
    have inWord := BitVec.lt_of_getLsbD one
    rw [next, dif_pos room, if_neg nonzero] at found
    simp only [known] at found
    obtain ⟨rfl, rfl⟩ := Prod.mk.inj (Option.some.inj found)
    have index : c.word * 64 + c.digit + offset = 64 * c.word + (c.digit + offset) := by omega
    refine ⟨?_, ?_, fun j here member => Nat.le_of_not_lt fun before => ?_, ?_, ?_⟩
    · unfold Cursor.position
      omega
    · rw [index, contains_word room inWord, one]
    · -- an earlier index would be that of one of the zeros below the lowest one
      unfold Cursor.position at here
      obtain ⟨k, rfl⟩ := Nat.exists_eq_add_of_le here
      rw [Nat.add_assoc, contains_word room (by omega), zeros k (by omega)] at member
      cases member
    · unfold Cursor.position
      split <;> simp only <;> omega
    · split <;> simp only <;> omega
  | case3 c outside =>
    rw [next, dif_neg outside] at found
    cases found

theorem listFrom_of_ended (ended : s.next c = none) : s.listFrom c = [] := by
  unfold listFrom
  split
  · rfl
  · rename_i other
    cases ended.symm.trans other

theorem listFrom_of_found (found : s.next c = some (i, later)) :
    s.listFrom c = i :: s.listFrom later := by
  rw [listFrom]
  split
  · rename_i other
    cases found.symm.trans other
  · rename_i other
    obtain ⟨rfl, rfl⟩ := Prod.mk.inj (Option.some.inj (found.symm.trans other))
    rfl

theorem mem_listFrom (within : c.digit < 64) :
    i ∈ s.listFrom c ↔ c.position ≤ i ∧ s.contains i := by
  induction c using listFrom.induct s with
  | case1 c ended =>
    rw [listFrom_of_ended ended]
    refine iff_of_false (by simp) fun ⟨here, member⟩ => ?_
    rw [not_contains_of_next within ended here] at member
    cases member
  | case2 c first later found ih =>
    have finds := finds_of_next within found
    rw [listFrom_of_found found, List.mem_cons, ih finds.within, finds.resumes]
    constructor
    · rintro (rfl | ⟨after, member⟩)
      · exact ⟨finds.reached, finds.member⟩
      · exact ⟨by have := finds.reached; omega, member⟩
    · rintro ⟨here, member⟩
      have after := finds.first i here member
      by_cases same : i = first
      · exact Or.inl same
      · exact Or.inr ⟨by omega, member⟩

theorem listFrom_pairwise_lt (within : c.digit < 64) : (s.listFrom c).Pairwise (· < ·) := by
  induction c using listFrom.induct s with
  | case1 c ended =>
    rw [listFrom_of_ended ended]
    exact .nil
  | case2 c first later found ih =>
    have finds := finds_of_next within found
    rw [listFrom_of_found found]
    refine .cons (fun i member => ?_) (ih finds.within)
    have after := ((mem_listFrom finds.within).mp member).1
    rw [finds.resumes] at after
    exact after

@[simp] theorem mem_toList : i ∈ s.toList ↔ s.contains i := by
  have start : (⟨0, 0⟩ : Cursor).position = 0 := rfl
  rw [toList, mem_listFrom (by decide), start, and_iff_right (Nat.zero_le i)]

theorem toList_pairwise_lt : s.toList.Pairwise (· < ·) := listFrom_pairwise_lt (by decide)

theorem toList_nodup : s.toList.Nodup := toList_pairwise_lt.imp Nat.ne_of_lt

/-- The words are counted in full, but beyond the capacity there is nothing to count. -/
theorem count_eq_length : s.count = s.toList.length := by
  have digits : s.count = ((List.range (64 * s.words.size)).filter s.contains).length := by
    rw [← List.countP_eq_length_filter, count, Word.foldl_cpop_eq, Nat.zero_add]
    exact List.countP_congr fun i _ => by rw [contains_eq_digit]
  have same : ((List.range (64 * s.words.size)).filter s.contains).Perm s.toList := by
    refine (List.perm_ext_iff_of_nodup (List.nodup_range.filter _) toList_nodup).mpr fun i => ?_
    rw [List.mem_filter, mem_toList, List.mem_range, and_iff_right_iff_imp]
    intro member
    have room := s.div_lt_size (lt_capacity_of_contains member)
    omega
  rw [digits, same.length_eq]

/-- A set counts as many as any list of its members that has none twice. -/
theorem count_of_mem_iff {indices : List Nat} (distinct : indices.Nodup)
    (members : ∀ i, s.contains i ↔ i ∈ indices) : s.count = indices.length := by
  have same : s.toList.Perm indices :=
    (List.perm_ext_iff_of_nodup toList_nodup distinct).mpr fun i => mem_toList.trans (members i)
  rw [count_eq_length, same.length_eq]

end IndexSet

end ReachingValues
