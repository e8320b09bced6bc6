import ReachingValues.Graph.Basic

/-!
Graphs through their lists of successors and predecessors: what each operation does to them, and
that the two directions agree.
-/

namespace ReachingValues

namespace Graph

variable {α : Type} {g h : Graph α} {a : α} {s t n : Node}

theorem mem_successors_iff : t ∈ g.successors s ↔ s ∈ g.predecessors t := by
  simpa only [successors, predecessors, Array.mem_toList_iff] using g.ends_agree s t

theorem lt_nodeCount_of_mem_successors (member : t ∈ g.successors s) :
    s < g.nodeCount ∧ t < g.nodeCount := by
  have back := mem_successors_iff.mp member
  have out := g.outgoing_size
  have inc := g.incoming_size
  simp only [successors, predecessors, Array.mem_toList_iff, nodeCount] at *
  grind

theorem successorsOf_of_lt (inside : n < g.nodeCount) :
    g.successorsOf n = .ok (g.successors n) := by
  have out : n < g.outgoing.size := by rw [g.outgoing_size]; exact inside
  simp [successorsOf, successors, fetch_of_lt out, out, Except.map]

theorem predecessorsOf_of_lt (inside : n < g.nodeCount) :
    g.predecessorsOf n = .ok (g.predecessors n) := by
  have inc : n < g.incoming.size := by rw [g.incoming_size]; exact inside
  simp [predecessorsOf, predecessors, fetch_of_lt inc, inc, Except.map]

@[simp] theorem nodeCount_ofLabels (labels : Array α) : (ofLabels labels).nodeCount = labels.size :=
  rfl

@[simp] theorem successors_ofLabels (labels : Array α) : (ofLabels labels).successors n = [] := by
  simp only [successors, ofLabels, Array.getElem?_replicate]
  split <;> rfl

@[simp] theorem predecessors_ofLabels (labels : Array α) :
    (ofLabels labels).predecessors n = [] := by
  simp only [predecessors, ofLabels, Array.getElem?_replicate]
  split <;> rfl

@[simp] theorem nodeCount_addNode : (g.addNode a).2.nodeCount = g.nodeCount + 1 := by
  simp [addNode, nodeCount]

@[simp] theorem successors_addNode : (g.addNode a).2.successors n = g.successors n := by
  have out := g.outgoing_size
  simp only [successors, addNode, Array.getElem?_push]
  grind

@[simp] theorem predecessors_addNode : (g.addNode a).2.predecessors n = g.predecessors n := by
  have inc := g.incoming_size
  simp only [predecessors, addNode, Array.getElem?_push]
  grind

theorem addEdge_of_source_missing (missing : g.nodeCount ≤ s) :
    g.addEdge s t = .error (.missingSource s g.nodeCount) := by
  simp [addEdge, Nat.not_lt.mpr missing]

theorem addEdge_of_target_missing (source : s < g.nodeCount) (missing : g.nodeCount ≤ t) :
    g.addEdge s t = .error (.missingTarget t g.nodeCount) := by
  simp [addEdge, source, Nat.not_lt.mpr missing]

theorem addEdge_of_lt (source : s < g.nodeCount) (target : t < g.nodeCount) :
    ∃ h, g.addEdge s t = .ok h := by
  simp [addEdge, source, target]

section

variable (added : g.addEdge s t = .ok h)

include added

theorem lt_nodeCount_of_addEdge : s < g.nodeCount ∧ t < g.nodeCount := by
  unfold addEdge at added
  split at added
  · split at added
    · exact ⟨‹_›, ‹_›⟩
    · cases added
  · cases added

theorem labels_addEdge : h.labels = g.labels := by
  have inside := lt_nodeCount_of_addEdge added
  simp only [addEdge, inside.1, inside.2, dif_pos, Except.ok.injEq] at added
  rw [← added]

theorem edgeCount_addEdge : h.edgeCount = g.edgeCount + 1 := by
  have inside := lt_nodeCount_of_addEdge added
  simp only [addEdge, inside.1, inside.2, dif_pos, Except.ok.injEq] at added
  rw [← added]

theorem successors_addEdge :
    h.successors n = g.successors n ++ if n = s then [t] else [] := by
  have inside := lt_nodeCount_of_addEdge added
  have out : s < g.outgoing.size := by rw [g.outgoing_size]; exact inside.1
  simp only [addEdge, inside.1, inside.2, dif_pos, Except.ok.injEq] at added
  rw [← added]
  by_cases same : n = s
  · subst same
    simp [successors, out, Array.getElem_modify]
  · simp [successors, Array.getElem?_modify, same, Ne.symm same]

theorem predecessors_addEdge :
    h.predecessors n = g.predecessors n ++ if n = t then [s] else [] := by
  have inside := lt_nodeCount_of_addEdge added
  have inc : t < g.incoming.size := by rw [g.incoming_size]; exact inside.2
  simp only [addEdge, inside.1, inside.2, dif_pos, Except.ok.injEq] at added
  rw [← added]
  by_cases same : n = t
  · subst same
    simp [predecessors, inc, Array.getElem_modify]
  · simp [predecessors, Array.getElem?_modify, same, Ne.symm same]

end

end Graph

end ReachingValues
