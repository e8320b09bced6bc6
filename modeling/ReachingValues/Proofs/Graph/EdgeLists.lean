import Mathlib.Algebra.BigOperators.Group.Finset.Basic
import ReachingValues.Graph.Lemmas
import ReachingValues.Proofs.InPlace

/-!
A graph records an edge three times: at its source, at its target, and in a counter. Whatever calls
were made, failing ones among them, the lists of a node are the edges that start or end there, in the
order in which they were added.
-/

namespace ReachingValues

/-- Sorting a list by a key that is below a bound loses nothing and counts nothing twice. -/
theorem sum_length_filter {β : Type} {list : List β} {key : β → Nat} {bound : Nat}
    (below : ∀ b ∈ list, key b < bound) :
    ∑ n ∈ Finset.range bound, (list.filter (key · == n)).length = list.length := by
  have occurs : ∀ n, (list.filter (key · == n)).length =
      Multiset.count n (list.map key : Multiset Nat) := fun n => by
    rw [Multiset.coe_count, List.count_eq_countP, List.countP_map, List.countP_eq_length_filter]
    rfl
  have inside : ∀ n ∈ (list.map key : Multiset Nat), n ∈ Finset.range bound := fun n member => by
    obtain ⟨b, listed, rfl⟩ := List.mem_map.mp (Multiset.mem_coe.mp member)
    exact Finset.mem_range.mpr (below b listed)
  rw [Finset.sum_congr rfl fun n _ => occurs n, Multiset.sum_count_eq_card inside,
    Multiset.coe_card, List.length_map]

/-- Each of the nodes with every one of its targets, node by node. -/
def fanOut (targets : Node → List Node) (nodes : List Node) : List (Node × Node) :=
  nodes.flatMap fun s => (targets s).map (s, ·)

section FanOut

variable {targets : Node → List Node} {nodes : List Node} {s t : Node}

theorem fanOut_concat (targets : Node → List Node) (nodes : List Node) (s : Node) :
    fanOut targets (nodes ++ [s]) = fanOut targets nodes ++ (targets s).map (s, ·) := by
  simp [fanOut]

theorem mem_fanOut : (s, t) ∈ fanOut targets nodes ↔ s ∈ nodes ∧ t ∈ targets s := by
  simp [fanOut]

theorem map_snd_fanOut : (fanOut targets nodes).map (·.2) = nodes.flatMap targets := by
  simp [fanOut, List.map_flatMap, Function.comp_def]

theorem targets_of_fanOut (once : nodes.Nodup) (s : Node) :
    ((fanOut targets nodes).filter (·.1 == s)).map (·.2) = if s ∈ nodes then targets s else [] := by
  induction nodes with
  | nil => rfl
  | cons n rest ih =>
    obtain ⟨fresh, once⟩ := List.nodup_cons.mp once
    have onward := ih once
    rw [fanOut] at onward ⊢
    rw [List.flatMap_cons, List.filter_append, List.map_append, onward]
    by_cases same : n = s
    · subst same
      simp [fresh, List.filter_map, Function.comp_def]
    · simp [same, Ne.symm same, List.filter_map, Function.comp_def]

theorem sources_of_fanOut (t : Node) :
    ((fanOut targets nodes).filter (·.2 == t)).map (·.1) =
      nodes.flatMap fun s => List.replicate ((targets s).count t) s := by
  rw [fanOut, List.filter_flatMap, List.map_flatMap]
  refine congrArg (nodes.flatMap ·) (funext fun s => ?_)
  rw [List.filter_map, List.map_map, List.count_eq_length_filter]
  exact List.map_const'

end FanOut

namespace Graph

variable {α : Type} {g h : Graph α} {edges : List (Node × Node)} {n s t : Node}

/-- A call that changes a graph, or tries to. -/
inductive Call (α : Type) where
  | node (label : α)
  | relabel (n : Node) (label : α)
  | edge (source target : Node)

inductive Answer (α : Type) where
  | node (n : Node)
  /-- The former label, unless there is no such node. -/
  | relabelled (former : Option α)
  | edge

/-- The edge that a call adds when it succeeds. -/
def Call.edge? : Call α → Option (Node × Node)
  | .edge s t => some (s, t)
  | _ => none

/-- Makes a call. -/
def perform (g : Graph α) : Call α → Except Error (Answer α × Graph α)
  | .node a => .ok (.node (g.addNode a).1, (g.addNode a).2)
  | .relabel n a =>
    match g.relabel n a with
    | some (former, h) => .ok (.relabelled (some former), h)
    | none => .ok (.relabelled none, g)
  | .edge s t => ((g.addEdge s t).mapError .edge).map (.edge, ·)

/-- The four parts of a graph, which nothing ties together. -/
structure Tables (α : Type) where
  labels : Array α
  outgoing : Array (Array Node)
  incoming : Array (Array Node)
  edgeCount : Nat

def tables (g : Graph α) : Tables α := ⟨g.labels, g.outgoing, g.incoming, g.edgeCount⟩

namespace Tables

def addNode (a : α) : InPlace (Tables α) (Answer α) := do
  let n := (← get).labels.size
  modify fun t => { t with labels := t.labels.push a }
  modify fun t => { t with outgoing := t.outgoing.push #[] }
  modify fun t => { t with incoming := t.incoming.push #[] }
  return .node n

def relabel (n : Node) (a : α) : InPlace (Tables α) (Answer α) := do
  match (← get).labels[n]? with
  | none => return .relabelled none
  | some former =>
    modify fun t => { t with labels := t.labels.setIfInBounds n a }
    return .relabelled (some former)

/-- Writes an edge at its source, at its target and into the counter. -/
def record (source target : Node) : InPlace (Tables α) (Answer α) := do
  InPlace.amend outgoing (fun t changed => { t with outgoing := changed }) source (·.push target)
  InPlace.amend incoming (fun t changed => { t with incoming := changed }) target (·.push source)
  modify fun t => { t with edgeCount := t.edgeCount + 1 }
  return .edge

def addEdge (source target : Node) : InPlace (Tables α) (Answer α) := do
  let count := (← get).labels.size
  if count ≤ source then throw (.edge (.missingSource source count))
  else if count ≤ target then throw (.edge (.missingTarget target count))
  else record source target

/-- Makes a call table by table. -/
def perform : Call α → InPlace (Tables α) (Answer α)
  | .node a => addNode a
  | .relabel n a => relabel n a
  | .edge s t => addEdge s t

theorem outcome_record (source : s < g.nodeCount) (target : t < g.nodeCount) :
    (record s t).outcome g.tables = (.ok .edge, { g.tables with
      outgoing := g.outgoing.modify s (·.push t)
      incoming := g.incoming.modify t (·.push s)
      edgeCount := g.edgeCount + 1 }) := by
  have atSource : s < g.tables.outgoing.size := Nat.lt_of_lt_of_eq source g.outgoing_size.symm
  have atTarget : t < (incoming { g.tables with
      outgoing := g.tables.outgoing.modify s (·.push t) }).size :=
    Nat.lt_of_lt_of_eq target g.incoming_size.symm
  rw [record, InPlace.outcome_bind (InPlace.outcome_amend atSource _ _),
    InPlace.outcome_bind (InPlace.outcome_amend atTarget _ _)]
  rfl

theorem outcome_addEdge (g : Graph α) (s t : Node) :
    (addEdge s t).outcome g.tables = InPlace.expected tables g (g.perform (.edge s t)) := by
  have count : g.tables.labels.size = g.nodeCount := rfl
  simp only [addEdge, InPlace.outcome_get_bind, count, Graph.perform]
  by_cases source : g.nodeCount ≤ s
  · rw [if_pos source, addEdge_of_source_missing source]
    rfl
  by_cases target : g.nodeCount ≤ t
  · rw [if_neg source, if_pos target, addEdge_of_target_missing (Nat.lt_of_not_le source) target]
    rfl
  rw [if_neg source, if_neg target,
    outcome_record (Nat.lt_of_not_le source) (Nat.lt_of_not_le target)]
  simp only [Graph.addEdge, Nat.lt_of_not_le source, Nat.lt_of_not_le target, dif_pos]
  rfl

/-- Made table by table, a call does what it does to the graph, and nothing when it fails. -/
theorem outcome_perform (g : Graph α) (call : Call α) :
    (perform call).outcome g.tables = InPlace.expected tables g (g.perform call) := by
  cases call with
  | node a => rfl
  | relabel n a =>
    have same : g.tables.labels = g.labels := rfl
    rw [perform, relabel, InPlace.outcome_get_bind, same]
    simp only [Graph.perform, Graph.relabel]
    cases g.labels[n]? with
    | none => rfl
    | some former => rfl
  | edge s t => exact outcome_addEdge g s t

end Tables

/-- The edges are the ones that the graph has, in the order in which they were added. -/
structure Records (g : Graph α) (edges : List (Node × Node)) : Prop where
  successors_eq : ∀ s, g.successors s = (edges.filter (·.1 == s)).map (·.2)
  predecessors_eq : ∀ t, g.predecessors t = (edges.filter (·.2 == t)).map (·.1)
  edgeCount_eq : g.edgeCount = edges.length

namespace Records

theorem ofLabels (labels : Array α) : (ofLabels labels).Records [] where
  successors_eq _ := successors_ofLabels _
  predecessors_eq _ := predecessors_ofLabels _
  edgeCount_eq := rfl

theorem empty : (empty : Graph α).Records [] := ofLabels #[]

section

variable (records : g.Records edges)

include records

theorem addNode (a : α) : (g.addNode a).2.Records edges where
  successors_eq s := successors_addNode.trans (records.successors_eq s)
  predecessors_eq t := predecessors_addNode.trans (records.predecessors_eq t)
  edgeCount_eq := records.edgeCount_eq

theorem relabel {a former : α} (run : g.relabel n a = some (former, h)) : h.Records edges := by
  unfold Graph.relabel at run
  split at run
  · cases run
  · obtain ⟨_, rfl⟩ := Prod.mk.inj (Option.some.inj run)
    exact ⟨records.successors_eq, records.predecessors_eq, records.edgeCount_eq⟩

theorem addEdge (added : g.addEdge s t = .ok h) : h.Records (edges ++ [(s, t)]) where
  successors_eq n := by
    rw [successors_addEdge added, records.successors_eq, List.filter_append, List.map_append]
    by_cases same : n = s <;> simp [same, Ne.symm]
  predecessors_eq n := by
    rw [predecessors_addEdge added, records.predecessors_eq, List.filter_append, List.map_append]
    by_cases same : n = t <;> simp [same, Ne.symm]
  edgeCount_eq := by
    rw [edgeCount_addEdge added, records.edgeCount_eq, List.length_append, List.length_singleton]

theorem perform {call : Call α} {answer : Answer α} (run : g.perform call = .ok (answer, h)) :
    h.Records (edges ++ call.edge?.toList) := by
  cases call with
  | node a =>
    obtain ⟨_, rfl⟩ := Prod.mk.inj (Except.ok.inj run)
    simpa [Call.edge?] using records.addNode a
  | relabel n a =>
    have kept : h.Records edges := by
      simp only [Graph.perform] at run
      split at run
      · rename_i relabelled
        obtain ⟨_, rfl⟩ := Prod.mk.inj (Except.ok.inj run)
        exact records.relabel relabelled
      · obtain ⟨_, rfl⟩ := Prod.mk.inj (Except.ok.inj run)
        exact records
    simpa [Call.edge?] using kept
  | edge s t =>
    cases added : g.addEdge s t with
    | error cause => simp [Graph.perform, added, Except.map] at run
    | ok later =>
      simp only [Graph.perform, added, mapError_ok, Except.map] at run
      obtain ⟨_, rfl⟩ := Prod.mk.inj (Except.ok.inj run)
      exact records.addEdge added

theorem count_successors (s t : Node) : (g.successors s).count t = edges.count (s, t) := by
  rw [records.successors_eq, List.count_eq_countP, List.countP_map, List.countP_filter,
    List.count_eq_countP]
  refine List.countP_congr fun e _ => ?_
  simp [Prod.ext_iff, and_comm]

theorem count_predecessors (s t : Node) : (g.predecessors t).count s = edges.count (s, t) := by
  rw [records.predecessors_eq, List.count_eq_countP, List.countP_map, List.countP_filter,
    List.count_eq_countP]
  refine List.countP_congr fun e _ => ?_
  simp [Prod.ext_iff]

theorem mem_successors (member : (s, t) ∈ edges) : t ∈ g.successors s := by
  rw [← List.count_pos_iff, records.count_successors, List.count_pos_iff]
  exact member

theorem sum_successors : ∑ n ∈ Finset.range g.nodeCount, (g.successors n).length = g.edgeCount := by
  have below : ∀ e ∈ edges, e.1 < g.nodeCount := fun e member =>
    (lt_nodeCount_of_mem_successors (records.mem_successors member)).1
  simp only [records.successors_eq, List.length_map, sum_length_filter below, records.edgeCount_eq]

theorem sum_predecessors :
    ∑ n ∈ Finset.range g.nodeCount, (g.predecessors n).length = g.edgeCount := by
  have below : ∀ e ∈ edges, e.2 < g.nodeCount := fun e member =>
    (lt_nodeCount_of_mem_successors (records.mem_successors member)).2
  simp only [records.predecessors_eq, List.length_map, sum_length_filter below,
    records.edgeCount_eq]

end

end Records

/-- An edge is refused just when one of its ends is missing. -/
theorem addEdge_eq_error_iff :
    (∃ cause, g.addEdge s t = .error cause) ↔ ¬ g.contains s ∨ ¬ g.contains t := by
  simp only [contains, decide_eq_true_eq, addEdge]
  split
  · split <;> simp_all
  · simp_all

/-- What calls, failing ones among them, make of the empty graph. -/
def ofCalls (calls : List (Call α)) : Graph α := (attemptAll perform empty calls).2

/-- The edges of the calls that succeeded, in the order of these calls. -/
def edgesOf (calls : List (Call α)) : List (Node × Node) :=
  (accepted calls (attemptAll perform (empty : Graph α) calls).1).filterMap Call.edge?

theorem records_ofCalls (calls : List (Call α)) : (ofCalls calls).Records (edgesOf calls) := by
  refine attemptAll_induct perform
    (fun done g => g.Records (done.filterMap Call.edge?)) .empty ?_ calls
  intro done g call answer later run records
  rw [List.filterMap_append]
  have added : [call].filterMap Call.edge? = call.edge?.toList := by
    cases call <;> rfl
  rw [added]
  exact records.perform run

/-- After any calls both directions of a graph tell the same edges, those that were accepted, in
their order; and a call that is refused has written nothing. -/
theorem edges_at_both_ends {calls : List (Call α)} (made : ofCalls calls = g) :
    InPlace.attemptAll Tables.perform (empty : Graph α).tables calls =
      ((attemptAll perform (empty : Graph α) calls).1, g.tables) ∧
    (∀ s t, (∃ cause, g.addEdge s t = .error cause) ↔ ¬ g.contains s ∨ ¬ g.contains t) ∧
    (∀ s t, ¬ g.contains s → (Tables.addEdge s t).outcome g.tables =
      (.error (.edge (.missingSource s g.nodeCount)), g.tables)) ∧
    (∀ s t, g.contains s → ¬ g.contains t → (Tables.addEdge s t).outcome g.tables =
      (.error (.edge (.missingTarget t g.nodeCount)), g.tables)) ∧
    (∀ s, g.contains s → g.successorsOf s =
      .ok (((edgesOf calls).filter (·.1 == s)).map (·.2))) ∧
    (∀ t, g.contains t → g.predecessorsOf t =
      .ok (((edgesOf calls).filter (·.2 == t)).map (·.1))) ∧
    (∀ s t, (g.successors s).count t = (g.predecessors t).count s) ∧
    ∑ n ∈ Finset.range g.nodeCount, (g.successors n).length = g.edgeCount ∧
    ∑ n ∈ Finset.range g.nodeCount, (g.predecessors n).length = g.edgeCount ∧
    ∀ s t, t ∈ g.successors s ∨ t ∈ g.predecessors s → g.contains s ∧ g.contains t := by
  have records : g.Records (edgesOf calls) := made ▸ records_ofCalls calls
  have inPlace := InPlace.attemptAll_eq Tables.outcome_perform (empty : Graph α) calls
  refine ⟨inPlace.trans (congrArg _ (congrArg _ made)), fun s t => addEdge_eq_error_iff,
    fun s t missing => ?_, fun s t source missing => ?_, fun s known => ?_, fun t known => ?_,
    fun s t => ?_, records.sum_successors, records.sum_predecessors, fun s t listed => ?_⟩
  · rw [Tables.outcome_addEdge, perform,
      addEdge_of_source_missing (by simpa [contains] using missing)]
    rfl
  · rw [Tables.outcome_addEdge, perform,
      addEdge_of_target_missing (by simpa [contains] using source)
        (by simpa [contains] using missing)]
    rfl
  · rw [successorsOf_of_lt (by simpa [contains] using known), records.successors_eq]
  · rw [predecessorsOf_of_lt (by simpa [contains] using known), records.predecessors_eq]
  · rw [records.count_successors, records.count_predecessors]
  · simp only [contains, decide_eq_true_eq]
    rcases listed with out | inc
    · exact lt_nodeCount_of_mem_successors out
    · exact (lt_nodeCount_of_mem_successors (mem_successors_iff.mpr inc)).symm

/-- An edge to a node that is not there yet, two parallel edges and a loop. -/
def tangle : List (Call String) :=
  [.node "a", .edge 0 1, .node "b", .edge 0 1, .edge 0 1, .relabel 0 "c", .edge 1 1]

theorem edges_at_both_ends_tangle :
    edgesOf tangle = [(0, 1), (0, 1), (1, 1)] ∧
    (ofCalls tangle).contains 0 ∧ (ofCalls tangle).successorsOf 0 = .ok [1, 1] ∧
    (ofCalls tangle).contains 1 ∧ (ofCalls tangle).predecessorsOf 1 = .ok [0, 0, 1] ∧
    ¬ (ofCalls tangle).contains 7 ∧ (Tables.addEdge 7 9).outcome (ofCalls tangle).tables =
      (.error (.edge (.missingSource 7 2)), (ofCalls tangle).tables) := by
  obtain ⟨_, _, missing, _, successors, predecessors, _⟩ :=
    edges_at_both_ends (rfl : ofCalls tangle = _)
  have one : (ofCalls tangle).contains 0 := by decide
  have two : (ofCalls tangle).contains 1 := by decide
  have none : ¬ (ofCalls tangle).contains 7 := by decide
  exact ⟨by decide, one, successors 0 one, two, predecessors 1 two, none, missing 7 9 none⟩

end Graph

end ReachingValues
