import ReachingValues.Proofs.Graph.EdgeLists
import ReachingValues.Proofs.Program.Provenance
import ReachingValues.Proofs.Program.Refusals

/-!
How a draft is finished. The edges are told block by block and entered one after another, so both
directions of the control flow graph can be read off the instructions that end the blocks. That
every edge can be entered is settled long before: an instruction is only appended when the blocks
that it names are there, and blocks do not go away.
-/

namespace ReachingValues

theorem Block.isSome_terminator_iff {b : Block} : b.terminator.isSome ↔
    ∃ last, b.instructions.back? = some last ∧ last.isTerminator := by
  simp only [Option.isSome_iff_exists, Block.terminator, Option.filter_eq_some_iff]

theorem Instruction.mem_targets {i : Instruction} {t : Node} :
    t ∈ i.targets ↔ .block t ∈ i.operands := by
  rw [targets, List.mem_filterMap]
  constructor
  · rintro ⟨o, member, named⟩
    cases o with
    | value v => cases named
    | block b => exact Option.some.inj named ▸ member
    | immediate i => cases named
  · exact fun member => ⟨_, member, rfl⟩

namespace Draft

variable {d later : Draft} {b : Node} {content : Block} {error : Error} {call : Call}
  {answer : Answer}

/-- The label of the block that a call asks for, unless it asks for something else. -/
def Call.label? : Call → Option String
  | .block label => some label
  | _ => none

def labels (d : Draft) : List String := d.blocks.toList.map (·.label)

theorem label?_of_request {r : Request} (asked : call.request? = some r) : call.label? = none := by
  cases call with
  | block label => cases asked
  | _ => rfl

theorem label?_of_refused (run : d.perform call = .error error) : call.label? = none := by
  cases call with
  | block label => cases run
  | _ => rfl

/-- An instruction that is appended to a block leaves its label. -/
theorem labels_append {block : Node} {name : Option String} {opcode : Opcode} {ty : Ty}
    {operands : List Operand} {v : ValueId}
    (run : d.append block name opcode ty operands = .ok (v, later)) : later.labels = d.labels := by
  obtain ⟨target, known, _, _, _, rfl⟩ := append_ok run
  refine List.ext_getElem? fun i => ?_
  simp only [labels, List.getElem?_map, Array.getElem?_toList, Array.getElem?_setIfInBounds]
  split
  · rename_i same
    subst same
    rw [known, if_pos (Array.getElem?_eq_some_iff.mp known).1]
    rfl
  · rfl

theorem labels_perform (run : d.perform call = .ok (answer, later)) :
    later.labels = d.labels ++ call.label?.toList := by
  have unlabelled : later.labels = d.labels → later.labels = d.labels ++ [] := by simp
  cases asked : call.request? with
  | some r =>
    rw [perform_of_request asked] at run
    obtain ⟨v, granted⟩ := appended_ok run
    rw [label?_of_request asked]
    exact unlabelled (labels_append granted)
  | none =>
    cases call with
    | param position =>
      obtain ⟨v, _, made⟩ := bind_eq_ok_iff.mp run
      obtain ⟨_, rfl⟩ := Prod.mk.inj (Except.ok.inj made)
      exact unlabelled rfl
    | block label =>
      obtain ⟨_, rfl⟩ := Prod.mk.inj (Except.ok.inj run)
      simp [labels, Call.label?]
    | _ => cases asked

/-- Blocks stand in the order in which they were asked for, whatever came between. -/
theorem labels_performAll (d : Draft) (calls : List Call) :
    (d.performAll calls).2.labels = d.labels ++ calls.filterMap Call.label? := by
  unfold performAll
  induction calls generalizing d with
  | nil => simp [attemptAll]
  | cons call rest ih =>
    cases run : d.perform call with
    | error error =>
      rw [attemptAll_cons_error run, ih, List.filterMap_cons_none (label?_of_refused run)]
    | ok result =>
      rw [attemptAll_cons_ok run, ih, labels_perform run, List.append_assoc]
      cases asked : call.label? <;> simp [asked]

/-- The blocks that the instruction at the end of a block names. -/
def targetsOf (d : Draft) (b : Node) : List Node :=
  ((d.blocks[b]?.bind (·.terminator)).map (·.targets)).getD []

theorem targetsOf_eq {last : Instruction} (known : d.blocks[b]? = some content)
    (ended : content.terminator = some last) : d.targetsOf b = last.targets := by
  rw [targetsOf, known, Option.bind_some, ended]
  rfl

/-- The first block, in the order of their creation, that nothing ends. -/
structure FirstOpen (d : Draft) (b : Node) (content : Block) : Prop where
  known : d.blocks[b]? = some content
  opened : content.terminator = none
  closed : ∀ (a : Node) c, a < b → d.blocks[a]? = some c → c.terminator.isSome

theorem branches_eq_error_iff : d.branches b content = .error error ↔
    content.terminator = none ∧ error = .malformed (.blockOpen content.label d.name) := by
  cases ended : content.terminator <;> simp [branches, ended, eq_comm]

theorem isSome_terminator_of_branches {edges : List (Node × Node)}
    (told : d.branches b content = .ok edges) : content.terminator.isSome := by
  unfold branches at told
  split at told <;> simp_all

theorem getElem?_zipIdx_blocks {i : Nat} : d.blocks.toList.zipIdx[i]? = some (content, b) ↔
    d.blocks[i]? = some content ∧ b = i := by
  rw [List.getElem?_zipIdx, Array.getElem?_toList]
  cases d.blocks[i]? <;> simp [eq_comm]

theorem edges_of_closed
    (closed : ∀ (b : Node) content, d.blocks[b]? = some content → content.terminator.isSome) :
    d.edges = .ok (fanOut d.targetsOf (List.range d.blocks.size)) := by
  refine bind_eq_ok_iff.mpr
    ⟨(List.range d.blocks.size).map fun b => (d.targetsOf b).map (b, ·), ?_, rfl⟩
  refine mapM_eq_ok_iff.mpr (List.ext_getElem? fun i => ?_)
  rw [List.map_map, List.getElem?_map, List.getElem?_map, List.getElem?_zipIdx,
    Array.getElem?_toList, Nat.zero_add]
  cases known : d.blocks[i]? with
  | none => simp [Array.getElem?_eq_none_iff.mp known]
  | some content =>
    have inside : i < d.blocks.size := (Array.getElem?_eq_some_iff.mp known).1
    obtain ⟨last, ended⟩ := Option.isSome_iff_exists.mp (closed i content known)
    simp [List.getElem?_range inside, branches, ended, targetsOf_eq known ended]

theorem edges_eq_error_iff : d.edges = .error error ↔ ∃ b content, d.FirstOpen b content ∧
    error = .malformed (.blockOpen content.label d.name) := by
  have telling : d.edges = .error error ↔
      d.blocks.toList.zipIdx.mapM (fun entry => d.branches entry.2 entry.1) = .error error := by
    rw [edges]
    cases d.blocks.toList.zipIdx.mapM (fun entry => d.branches entry.2 entry.1) <;> simp
  rw [telling, mapM_eq_error_iff]
  constructor
  · rintro ⟨i, ⟨content, b⟩, listed, failed, passed⟩
    obtain ⟨known, rfl⟩ := getElem?_zipIdx_blocks.mp listed
    obtain ⟨opened, same⟩ := branches_eq_error_iff.mp failed
    refine ⟨b, content, ⟨known, opened, fun a c less atA => ?_⟩, same⟩
    obtain ⟨edges, told⟩ := passed a less (c, a) (getElem?_zipIdx_blocks.mpr ⟨atA, rfl⟩)
    exact isSome_terminator_of_branches told
  · rintro ⟨b, content, first, same⟩
    refine ⟨b, (content, b), getElem?_zipIdx_blocks.mpr ⟨first.known, rfl⟩,
      branches_eq_error_iff.mpr ⟨first.opened, same⟩, fun a less ⟨c, i⟩ listed => ?_⟩
    obtain ⟨atA, rfl⟩ := getElem?_zipIdx_blocks.mp listed
    obtain ⟨last, ended⟩ := Option.isSome_iff_exists.mp (first.closed i c less atA)
    exact ⟨_, by rw [branches, ended]⟩

/-- Edges between blocks that are there can all be entered. -/
theorem flow_of_edges {edges : List (Node × Node)} (told : d.edges = .ok edges)
    (inside : ∀ e ∈ edges, e.1 < d.blocks.size ∧ e.2 < d.blocks.size) :
    ∃ g, d.flow = .ok g ∧ g.labels = d.blocks ∧ g.Records edges := by
  rw [flow, told, ok_bind]
  -- all blocks are nodes from the start, and entering an edge adds none
  refine foldlM_ok _ edges (Graph.ofLabels d.blocks)
    (fun done g => g.labels = d.blocks ∧ g.Records done) ⟨rfl, .ofLabels _⟩ ?_
  rintro done ⟨s, t⟩ rest g rfl ⟨labels, records⟩
  obtain ⟨source, target⟩ := inside (s, t) (by simp)
  have size : g.nodeCount = d.blocks.size := congrArg Array.size labels
  obtain ⟨h, added⟩ := Graph.addEdge_of_lt (size ▸ source) (size ▸ target)
  exact ⟨h, by rw [added, mapError_ok], (Graph.labels_addEdge added).trans labels,
    records.addEdge added⟩

namespace Coherent

variable (coherent : d.Coherent)

include coherent

theorem targetsOf_lt {t : Node} (named : t ∈ d.targetsOf b) : t < d.blocks.size := by
  cases known : d.blocks[b]? with
  | none => simp [targetsOf, known] at named
  | some content =>
    cases ended : content.terminator with
    | none => simp [targetsOf, known, ended] at named
    | some last =>
      rw [targetsOf_eq known ended, Instruction.mem_targets] at named
      have listed := Array.mem_of_getElem? (Block.terminator_eq_some_iff.mp ended).1
      exact (coherent.filled b content known).block_operand last listed t named

theorem exists_flow
    (closed : ∀ (b : Node) content, d.blocks[b]? = some content → content.terminator.isSome) :
    ∃ g, d.flow = .ok g ∧ g.labels = d.blocks ∧
      g.Records (fanOut d.targetsOf (List.range d.blocks.size)) := by
  refine flow_of_edges (edges_of_closed closed) fun ⟨s, t⟩ member => ?_
  obtain ⟨source, named⟩ := mem_fanOut.mp member
  exact ⟨List.mem_range.mp source, coherent.targetsOf_lt named⟩

theorem flow_eq_error_iff : d.flow = .error error ↔ ∃ b content, d.FirstOpen b content ∧
    error = .malformed (.blockOpen content.label d.name) := by
  rw [← edges_eq_error_iff]
  cases told : d.edges with
  | error other => simp [flow, told]
  | ok edges =>
    obtain ⟨g, run, _⟩ := coherent.exists_flow fun b content => closed_of_edges told
    simp [run]

end Coherent

/-- Why a draft cannot be finished: it has no blocks, or there is a block that nothing ends, and the
first of these is reported. -/
inductive Unfinished (d : Draft) : Error → Prop
  | empty (blockless : d.blocks = #[]) : Unfinished d .empty
  | opened {b : Node} {content : Block} (first : d.FirstOpen b content) :
      Unfinished d (.malformed (.blockOpen content.label d.name))

theorem finish_eq_error_iff (coherent : d.Coherent) :
    d.finish = .error error ↔ d.Unfinished error := by
  by_cases blockless : d.blocks = #[]
  · have failed : d.finish = .error .empty := by
      rw [finish, if_pos (by simp [blockless])]
      rfl
    rw [failed]
    constructor
    · rintro ⟨⟩
      exact .empty blockless
    · rintro (_ | ⟨known, _, _⟩)
      · rfl
      · simp [blockless] at known
  · have onward : d.finish = .error error ↔ d.flow = .error error := by
      rw [finish, if_neg (by simpa using blockless)]
      cases d.flow <;> simp
    rw [onward, coherent.flow_eq_error_iff]
    constructor
    · rintro ⟨b, content, first, rfl⟩
      exact .opened first
    · rintro (empty | first)
      · exact absurd empty blockless
      · exact ⟨_, _, first, rfl⟩

theorem exists_finish_iff (coherent : d.Coherent) : (∃ id q, d.finish = .ok (id, q)) ↔
    d.blocks ≠ #[] ∧ ∀ content ∈ d.blocks, content.terminator.isSome := by
  constructor
  · rintro ⟨id, q, run⟩
    obtain ⟨nonempty, flow, known, _⟩ := finish_ok run
    refine ⟨fun blockless => by simp [blockless] at nonempty, fun content member => ?_⟩
    obtain ⟨b, atB⟩ := Array.getElem?_of_mem member
    exact closed_of_flow known atB
  · rintro ⟨blocks, closed⟩
    obtain ⟨g, run, _⟩ := coherent.exists_flow fun b content known =>
      closed content (Array.mem_of_getElem? known)
    exact ⟨d.id, _, by rw [finish, if_neg (by simpa using blocks), run]; rfl⟩

namespace Edit

/-- Finishes a draft step by step. -/
def finish : Edit FunctionId := do
  let d ← get
  if d.blocks.isEmpty then throw .empty
  else
    let flow ← liftExcept d.flow
    modify fun d => { d with program := { d.program with
      functions := d.program.functions.push ⟨d.id, d.name, d.params, flow⟩ } }
    return d.id

/-- Finishing in place is finishing, and where it fails it has written nothing. -/
theorem outcome_finish (d : Draft) : finish.outcome d =
    match d.finish with
    | .ok (id, p) => (.ok id, { d with program := p })
    | .error error => (.error error, d) := by
  rw [finish, InPlace.outcome_get_bind, Draft.finish]
  split
  · rfl
  · cases d.flow with
    | error error => rfl
    | ok flow => rfl

end Edit

/-- A draft keeps the handle and the name with which it was begun. -/
theorem id_name_performAll (p : Program) (name : String) (params : List (String × Ty))
    (calls : List Call) : ((p.draft name params).performAll calls).2.id = p.functions.size ∧
      ((p.draft name params).performAll calls).2.name = name := by
  refine @performAll_induct _ (fun d => d.id = p.functions.size ∧ d.name = name) ?_ ?_ calls
    ⟨rfl, rfl⟩
  · exact fun _ _ before => before
  · intro d later block _ opcode ty operands v run before
    obtain ⟨_, _, _, _, _, rfl⟩ := append_ok run
    exact before

/-- A function can be made of a draft when there are blocks and an instruction ends each of them;
the first block without one is reported otherwise, and nothing has been written then. The edges of
the function are those that these instructions name, told from both ends in the same order. -/
theorem finish_derives_flow {p : Program} {name : String} {params : List (String × Ty)}
    {calls : List Call} (built : p.Built)
    (made : ((p.draft name params).performAll calls).2 = d) :
    d.labels = calls.filterMap Call.label? ∧
    ((∃ id q, d.finish = .ok (id, q)) ↔ d.blocks ≠ #[] ∧ ∀ content ∈ d.blocks,
      ∃ last, content.instructions.back? = some last ∧ last.isTerminator) ∧
    (∀ error, d.finish = .error error ↔ d.Unfinished error) ∧
    (∀ cause, d.finish ≠ .error (.edge cause)) ∧
    (∀ error, d.finish = .error error → Edit.finish.outcome d = (.error error, d) ∧
      d.program.functions = p.functions ∧
      (Session.run ⟨name, params, calls, true⟩ p).2.functions = p.functions) ∧
    ∀ id q, d.finish = .ok (id, q) → id = p.functions.size ∧ ∃ f : Function,
      q.functions = p.functions.push f ∧ f.id = id ∧ f.name = name ∧ f.params = d.params ∧
      f.flow.labels = d.blocks ∧
      (∀ b content, d.blocks[b]? = some content → ∃ last, content.terminator = some last ∧
        f.flow.successorsOf b = .ok last.targets) ∧
      ∀ t < d.blocks.size, f.flow.predecessorsOf t = .ok ((List.range d.blocks.size).flatMap
        fun s => List.replicate ((f.flow.successors s).count t) s) := by
  have coherent : d.Coherent := made ▸ Coherent.performAll built.coherent name params calls
  have kept : d.program.functions = p.functions :=
    (made ▸ BegunOn.performAll p name params calls : d.BegunOn p).functions
  have begun : d.id = p.functions.size ∧ d.name = name :=
    made ▸ id_name_performAll p name params calls
  refine ⟨made ▸ labels_performAll (p.draft name params) calls, ?_,
    fun error => finish_eq_error_iff coherent, fun cause failed => ?_,
    fun error failed => ⟨?_, kept, ?_⟩, fun id q run => ?_⟩
  · simp only [exists_finish_iff coherent, Block.isSome_terminator_iff]
  · cases (finish_eq_error_iff coherent).mp failed
  · rw [Edit.outcome_finish, failed]
  · simp only [Session.run, made, failed, if_true]
    exact kept
  -- what was drawn is the graph that a draft with closed blocks gives
  obtain ⟨_, g, drawn, rfl, rfl⟩ := finish_ok run
  obtain ⟨_, again, labels, records⟩ :=
    coherent.exists_flow fun b content => closed_of_flow drawn
  obtain rfl := Except.ok.inj (drawn.symm.trans again)
  have size : g.nodeCount = d.blocks.size := congrArg Array.size labels
  have outgoing : ∀ s < d.blocks.size, g.successors s = d.targetsOf s := fun s inside => by
    rw [records.successors_eq, targets_of_fanOut List.nodup_range,
      if_pos (List.mem_range.mpr inside)]
  refine ⟨begun.1, ⟨d.id, d.name, d.params, g⟩, kept ▸ rfl, rfl, begun.2, rfl, labels,
    fun b content known => ?_, fun t inside => ?_⟩
  · have inside : b < d.blocks.size := (Array.getElem?_eq_some_iff.mp known).1
    obtain ⟨last, ended⟩ := Option.isSome_iff_exists.mp (closed_of_flow drawn known)
    refine ⟨last, ended, ?_⟩
    rw [Graph.successorsOf_of_lt (size ▸ inside), outgoing b inside, targetsOf_eq known ended]
  · rw [Graph.predecessorsOf_of_lt (size ▸ inside), records.predecessors_eq, sources_of_fanOut]
    refine congrArg Except.ok (List.flatMap_congr fun s member => ?_)
    rw [outgoing s (List.mem_range.mp member)]

/-- Blocks that are made and ended in different orders, an edge to a block that is not there yet, a
block that names itself twice, and one that is named in front of its end. -/
def twisted : List Call :=
  [.block "entry", .jump 0 1, .block "loop", .block "exit", .ret 2 none,
    .append 1 (some "x") .phi (.int 32) [.block 2, .immediate 0], .branch 1 5 1 1, .jump 0 1]

theorem finish_derives_flow_twisted : Program.redrafted.Built ∧
    ∃ d f q, ((Program.redrafted.draft "g" [("c", .truth)]).performAll twisted).2 = d ∧
      d.finish = .ok (1, q) ∧ q.functions = Program.redrafted.functions.push f ∧
      f.flow.successorsOf 1 = .ok [1, 1] ∧ f.flow.predecessorsOf 1 = .ok [0, 1, 1] := by
  obtain ⟨_, exists_iff, _, _, _, function⟩ := finish_derives_flow Program.redrafted_built
    (rfl : ((Program.redrafted.draft "g" [("c", .truth)]).performAll twisted).2 = _)
  obtain ⟨id, q, run⟩ := exists_iff.mpr (by decide)
  obtain ⟨rfl, f, functions, _, _, _, labels, successors, predecessors⟩ := function id q run
  have size : f.flow.nodeCount = 3 := congrArg Array.size labels
  have row : ∀ s < 3, ∀ targets, f.flow.successorsOf s = .ok targets →
      f.flow.successors s = targets := fun s inside targets told =>
    Except.ok.inj ((Graph.successorsOf_of_lt (size ▸ inside)).symm.trans told)
  obtain ⟨_, entry, fromEntry⟩ := successors 0 _ rfl
  obtain ⟨_, loop, fromLoop⟩ := successors 1 _ rfl
  obtain ⟨_, leave, fromExit⟩ := successors 2 _ rfl
  obtain rfl := Option.some.inj entry
  obtain rfl := Option.some.inj loop
  obtain rfl := Option.some.inj leave
  refine ⟨Program.redrafted_built, _, f, q, rfl, run, functions, fromLoop,
    (predecessors 1 (by decide)).trans (congrArg Except.ok ?_)⟩
  have three : (List.range 3).flatMap (fun s => List.replicate ((f.flow.successors s).count 1) s) =
      [0, 1, 1] := by
    simp only [List.range, List.range.loop, List.flatMap_cons, List.flatMap_nil,
      row 0 (by decide) _ fromEntry, row 1 (by decide) _ fromLoop, row 2 (by decide) _ fromExit]
    rfl
  exact three

end Draft

end ReachingValues
