import Mathlib.Algebra.GroupWithZero.Nat
import ReachingValues.Analysis.Report
import ReachingValues.Proofs.Analysis.Contents
import ReachingValues.Proofs.IndexSet.Enumeration
import ReachingValues.Proofs.Program.Words

/-!
The lines of a report. No name brings the end of a line into a line, so the text can be cut into its
lines again. What a line is about is told by how it begins: only values are indented, and no line of
the heading has the sign of a block in its fourth place. The result may have been made for another
function or another program. Then its blocks and values are written as what they happen to be here,
or as handles if they are nothing here, and this does not change how lines begin and end.
-/

namespace ReachingValues

variable {d : Definitions} {tree : TreeView} {seed : ValueSet} {order : Order} {t : ReachTable}
  {p : Program}

/-- The values that reach a block, in ascending order. -/
def ReachTable.members (t : ReachTable) (b : Node) : List ValueId :=
  ((t.get? b).map (·.toList)).getD []

/-- The entries hold the members of the blocks. -/
theorem ReachTable.Regular.map_members (regular : t.Regular) :
    t.toList.map (fun entry => (entry.1, entry.2.toList)) = t.blocks.map fun b => (b, t.members b) := by
  have entries := congrArg
    (List.map fun entry => (entry.1, (entry.2.map (·.toList)).getD [])) regular.map_toList
  simpa only [List.map_map, Function.comp_def, Option.map_some, Option.getD_some, members]
    using entries

namespace Report

theorem not_mem_heading : ∀ line ∈ heading, '\n' ∉ line.toList := by
  simp [heading]

/-- The last line is ended as well, which leaves an empty piece behind it. -/
theorem text_eq_intercalate (p : Program) (k : FunctionId) (t : ReachTable) :
    text p k t = "\n".intercalate (lines p k t ++ [""]) := by
  unfold text
  generalize lines p k t = lines
  induction lines with
  | nil => rfl
  | cons line rest ih =>
    rw [List.map_cons, String.join_cons, ih, List.cons_append,
      String.intercalate_cons_of_ne_nil (by simp), String.append_assoc]

theorem not_mem_lines (built : p.Built) (avoids : p.NamesAvoid ['\n']) (k : FunctionId)
    (t : ReachTable) : ∀ line ∈ lines p k t, '\n' ∉ line.toList := by
  have apart : ['\n'] ⊆ separators := by simp [separators]
  have text : ∀ v, '\n' ∉ (p.valueText v).toList := fun v => by
    have words : ∀ w ∈ (p.valueForm v).words, '\n' ∉ w.toList :=
      ValueForm.not_mem_words (by decide) (List.mem_singleton_self _) (by decide)
        (built.coherent.clear_valueForm avoids apart v)
    rw [Program.valueText, ValueForm.text_eq_intercalate]
    exact not_mem_intercalate (by simp) words
  have blocks : ∀ b, '\n' ∉ (p.blockReference k b).toList := fun b =>
    (Program.isReference_blockReference avoids apart k b).lacks '\n' (List.mem_singleton_self _)
  rw [lines, List.forall_mem_append]
  refine ⟨not_mem_heading, fun line listed => ?_⟩
  obtain ⟨⟨b, values⟩, _, listed⟩ := List.mem_flatMap.mp listed
  rcases List.mem_cons.mp listed with rfl | listed
  · simpa using blocks b
  · obtain ⟨v, _, rfl⟩ := List.mem_map.mp listed
    simpa [indent] using text v

/-- Whether a line begins as those of blocks do. -/
def showsBlock (line : String) : Bool := line.startsWith "BB %"

/-- Whether a line begins as those of values do. -/
def showsValue (line : String) : Bool := line.startsWith (String.ofList (List.replicate 13 ' '))

theorem heading_shows : ∀ line ∈ heading, ¬ showsBlock line ∧ ¬ showsValue line := by
  simp only [showsBlock, showsValue, String.startsWith_string_iff]
  simp [heading, List.replicate]

theorem shows_block (p : Program) (k : FunctionId) (b : Node) :
    showsBlock ("BB " ++ p.blockReference k b) ∧ ¬ showsValue ("BB " ++ p.blockReference k b) := by
  -- the sign does not depend on the label, and neither on whether there is such a block
  have written : IsReference '%' [] (p.blockReference k b) :=
    Program.isReference_blockReference (fun _ _ _ none => absurd none List.not_mem_nil)
      (List.nil_subset _) k b
  obtain ⟨rest, signed⟩ := List.head?_eq_some_iff.mp written.head?_eq
  simp only [showsBlock, showsValue, String.startsWith_string_iff]
  simp [List.replicate, signed]

theorem shows_value (text : String) :
    ¬ showsBlock (indent ++ text) ∧ showsValue (indent ++ text) := by
  simp only [showsBlock, showsValue, String.startsWith_string_iff]
  simp [indent, List.replicate]

/-- The lines of a block with the given values. -/
def rows (p : Program) (k : FunctionId) (b : Node) (members : List ValueId) : List String :=
  ("BB " ++ p.blockReference k b) :: members.map fun v => indent ++ p.valueText v

theorem countP_rows (p : Program) (k : FunctionId) (b : Node) (members : List ValueId) :
    (rows p k b members).countP showsBlock = 1 ∧
      (rows p k b members).countP showsValue = members.length := by
  obtain ⟨block, other⟩ := shows_block p k b
  constructor
  · rw [rows, List.countP_cons_of_pos block, List.countP_eq_zero.mpr]
    exact List.forall_mem_map.mpr fun v _ => (shows_value (p.valueText v)).1
  · rw [rows, List.countP_cons_of_neg other, List.countP_eq_length.mpr, List.length_map]
    exact List.forall_mem_map.mpr fun v _ => (shows_value (p.valueText v)).2

theorem lines_eq (regular : t.Regular) (p : Program) (k : FunctionId) :
    lines p k t = heading ++ t.blocks.flatMap fun b => rows p k b (t.members b) := by
  have entries := congrArg (List.flatMap fun entry => rows p k entry.1 entry.2) regular.map_members
  rw [List.flatMap_map, List.flatMap_map] at entries
  exact congrArg (heading ++ ·) entries

theorem countP_lines (regular : t.Regular) (p : Program) (k : FunctionId) :
    (lines p k t).countP showsBlock = t.size ∧
      (lines p k t).countP showsValue = (t.blocks.map fun b => (t.members b).length).sum := by
  have blocks : heading.countP showsBlock = 0 :=
    List.countP_eq_zero.mpr fun line listed => (heading_shows line listed).1
  have values : heading.countP showsValue = 0 :=
    List.countP_eq_zero.mpr fun line listed => (heading_shows line listed).2
  simp only [lines_eq regular, List.countP_append, List.countP_flatMap, Function.comp_def, blocks,
    values, countP_rows, Nat.zero_add, List.map_const', List.sum_replicate_nat, Nat.mul_one,
    ReachTable.size, and_self]

/-- If no name and no label contains the end of a line, then a report has its heading, and after it
one line for each block that was reached and one for each value of its set, and nothing else. -/
theorem pieces_text (built : p.Built) (avoids : p.NamesAvoid ['\n']) (k : FunctionId)
    (run : d.propagate tree seed order = .ok t) :
    pieces '\n' (text p k t) = heading ++ (t.blocks.flatMap fun b =>
      ("BB " ++ p.blockReference k b) :: (t.members b).map fun v => indent ++ p.valueText v) ++ [""] ∧
    heading.length = 5 ∧ t.blocks.Nodup ∧ (∀ b, t.isReached b ↔ b ∈ t.blocks) ∧
    (∀ b ∈ t.blocks, ∃ values, t.get? b = some values ∧ (t.members b).Pairwise (· < ·) ∧
      (∀ v, v ∈ t.members b ↔ values.contains v) ∧ (t.members b).length = values.count) ∧
    (pieces '\n' (text p k t)).countP showsBlock = t.size ∧
    (pieces '\n' (text p k t)).countP showsValue =
      (t.blocks.map fun b => (t.members b).length).sum := by
  have regular := ReachTable.regular_of_propagate run
  have cut : pieces '\n' (text p k t) = lines p k t ++ [""] := by
    have lacks : ∀ line ∈ lines p k t ++ [""], '\n' ∉ line.toList :=
      List.forall_mem_append.mpr ⟨not_mem_lines built avoids k t, by simp⟩
    rw [text_eq_intercalate]
    exact pieces_intercalate (by simp) lacks
  obtain ⟨blocks, values⟩ := countP_lines regular p k
  have blank : ¬ showsBlock "" ∧ ¬ showsValue "" := by
    simp only [showsBlock, showsValue, String.startsWith_string_iff]
    simp
  refine ⟨?_, rfl, regular.nodup, regular.isSome_iff, fun b listed => ?_, ?_, ?_⟩
  · rw [cut, lines_eq regular]
    rfl
  · obtain ⟨values, known⟩ := Option.isSome_iff_exists.mp ((regular.isSome_iff b).mpr listed)
    have members : t.members b = values.toList := by
      rw [ReachTable.members, known, Option.map_some, Option.getD_some]
    rw [members]
    exact ⟨values, known, values.toList_pairwise_lt, fun v => values.mem_toList,
      values.count_eq_length.symm⟩
  · rw [cut, List.countP_append, blocks, List.countP_cons_of_neg blank.1, List.countP_nil,
      Nat.add_zero]
  · rw [cut, List.countP_append, values, List.countP_cons_of_neg blank.2, List.countP_nil,
      Nat.add_zero]

/-- A report on sets that were made for no function. -/
theorem pieces_text_diamond : ∃ t,
    ReachTable.numbered.propagate Program.tangled.view (.empty 4) .depthFirst = .ok t ∧
    Program.diamond.NamesAvoid ['\n'] ∧
    (pieces '\n' (text Program.diamond 0 t)).drop 5 =
      ["BB %entry", "BB %right", "             @g = global i32 1",
        "BB %join", "             @g = global i32 1", "             i32 %n",
        "             %x = add i32 %n, 1", "BB %left", "             @g = global i32 1", ""] ∧
    (pieces '\n' (text Program.diamond 0 t)).countP showsBlock = 4 ∧
    (pieces '\n' (text Program.diamond 0 t)).countP showsValue = 5 := by
  have outcome : (do
      let t ← ReachTable.numbered.propagate Program.tangled.view (.empty 4) .depthFirst
      return (t.blocks, t.members 0, t.members 1, t.members 2, t.members 3)) =
      Except.ok ([0, 2, 3, 1], [], [0], [0], [0, 1, 2]) := by decide +kernel
  obtain ⟨t, run, same⟩ := bind_eq_ok_iff.mp outcome
  obtain ⟨visits, entry, left, right, join⟩ : _ ∧ _ ∧ _ ∧ _ ∧ _ := by
    simpa only [pure_eq_ok, Except.ok.injEq, Prod.mk.injEq] using same
  have avoids : Program.diamond.NamesAvoid ['\n'] := by decide
  obtain ⟨shape, _, _, _, _, blocks, values⟩ := pieces_text Program.diamond_built avoids 0 run
  refine ⟨t, run, avoids, ?_, ?_, ?_⟩
  · simp only [shape, visits, List.flatMap_cons, List.flatMap_nil, entry, left, right, join]
    rfl
  · rw [blocks, ReachTable.size, visits]
    rfl
  · simp only [values, visits, List.map_cons, List.map_nil, entry, left, right, join]
    rfl

end Report

end ReachingValues
