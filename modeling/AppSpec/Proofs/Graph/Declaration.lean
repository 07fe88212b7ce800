import AppSpec.Proofs.Graph.Cycles
import AppSpec.Proofs.Graph.Order

/-!
How a graph was declared does not show in its cycles: calls that declare the same nodes and the same
edges between them build graphs with the same cycles, in whichever order the calls come, however
often they are repeated, and whatever they link to that is never declared.
-/

namespace AppSpec.DependencyGraph

/-- No node is held twice, and none links twice to the same target. -/
structure Distinct (g : DependencyGraph) : Prop where
  nodes : g.edges.keys.Nodup
  targets : ∀ node, (g.targets node).Nodup

namespace Distinct

variable {g : DependencyGraph}

theorem empty (label : String) : (empty label).Distinct := ⟨.nil, fun _ => .nil⟩

theorem addNode (h : g.Distinct) (node : String) : (g.addNode node).Distinct := by
  refine ⟨?_, fun other => targets_addNode g node other ▸ h.targets other⟩
  rw [DependencyGraph.addNode]
  split
  · exact h.nodes
  · next hnew =>
      rw [Bool.not_eq_true] at hnew
      rw [← Named.set_of_not_has [] hnew]
      exact Named.nodup_keys_set h.nodes node []

theorem addEdge (h : g.Distinct) (source target : String) : (g.addEdge source target).Distinct := by
  have hnode := h.addNode source
  rw [DependencyGraph.addEdge]
  split
  · exact hnode
  · next hnew =>
      have hfresh : target ∉ (g.addNode source).targets source := by simpa using hnew
      refine ⟨Named.nodup_keys_set hnode.nodes source _, fun other => ?_⟩
      rw [DependencyGraph.targets, Named.get?_set]
      split
      · rw [Option.getD_some, List.nodup_append]
        refine ⟨hnode.targets source, List.nodup_singleton target, fun old hold new hmem heq => ?_⟩
        rw [List.mem_singleton.mp hmem] at heq
        exact hfresh (heq ▸ hold)
      · exact hnode.targets other

theorem call (h : g.Distinct) (c : GraphCall) : (g.call c).Distinct := by
  cases c with
  | node name => exact h.addNode name
  | edge source target => exact h.addEdge source target

theorem build (label : String) (calls : List GraphCall) : (build label calls).Distinct := by
  rw [DependencyGraph.build]
  exact List.foldlRecOn calls DependencyGraph.call (empty label) fun _ h c _ => h.call c

end Distinct

variable {calls calls' : List GraphCall}

theorem keys_build_perm (label : String)
    (hnodes : ∀ name, Declares calls name ↔ Declares calls' name) :
    (build label calls).edges.keys.Perm (build label calls').edges.keys := by
  rw [List.perm_ext_iff_of_nodup (Distinct.build label calls).nodes (Distinct.build label calls').nodes]
  intro name
  rw [← Named.has_iff_mem_keys, ← Named.has_iff_mem_keys]
  exact (hasNode_build label calls name).trans ((hnodes name).trans (hasNode_build ..).symm)

theorem successors_build_congr (label : String)
    (harrows : ∀ source target, Arrow calls source target ↔ Arrow calls' source target)
    (node : String) : (build label calls).successors node = (build label calls').successors node := by
  have hdistinct (calls : List GraphCall) :
      ((build label calls).declared ((build label calls).targets node)).Nodup :=
    ((Distinct.build label calls).targets node).filter _
  have hmem (calls : List GraphCall) (target : String) :
      target ∈ (build label calls).declared ((build label calls).targets node) ↔
        Arrow calls node target := by
    rw [← adjacent_build label, Adjacent, successors, (Order.sortedTexts_perm _).mem_iff]
  refine Order.sortedTexts_eq_of_perm ?_
  rw [List.perm_ext_iff_of_nodup (hdistinct calls) (hdistinct calls')]
  exact fun target => (hmem calls target).trans ((harrows node target).trans (hmem calls' target).symm)

theorem cycles_build_congr (label : String)
    (hnodes : ∀ name, Declares calls name ↔ Declares calls' name)
    (harrows : ∀ source target, Arrow calls source target ↔ Arrow calls' source target) :
    (build label calls).cycles = (build label calls').cycles ∧
      ∀ pathOf warning, (build label calls).cycleDiagnostics pathOf warning =
        (build label calls').cycleDiagnostics pathOf warning := by
  have halike : SearchedAlike (build label calls) (build label calls') :=
    ⟨keys_build_perm label hnodes, successors_build_congr label harrows⟩
  have hlabel : (build label calls).label = (build label calls').label := by
    rw [label_build, label_build]
  exact ⟨halike.cycles, halike.cycleDiagnostics hlabel⟩

def inOrder : List GraphCall :=
  [.node "a", .node "b", .edge "a" "b", .edge "b" "a", .edge "b" "b"]

/-- The same graph backwards, with a repetition and an edge to what is never declared. -/
def outOfOrder : List GraphCall :=
  [.edge "b" "b", .edge "b" "a", .edge "b" "ghost", .edge "b" "b", .edge "a" "b"]

theorem cycles_build_congr_outOfOrder :
    (∀ name, Declares inOrder name ↔ Declares outOfOrder name) ∧
      (∀ source target, Arrow inOrder source target ↔ Arrow outOfOrder source target) ∧
      (build "component dependency" outOfOrder).cycles = [["a", "b", "a"], ["b", "b"]] ∧
      (build "component dependency" inOrder).cycleDiagnostics id false =
        (build "component dependency" outOfOrder).cycleDiagnostics id false := by
  have hnodes : ∀ name, Declares inOrder name ↔ Declares outOfOrder name := by
    intro name
    simp only [Declares, inOrder, outOfOrder, List.mem_cons, List.not_mem_nil, or_false,
      exists_eq_or_imp, exists_eq_left, GraphCall.declares]
    tauto
  have harrows : ∀ source target, Arrow inOrder source target ↔ Arrow outOfOrder source target := by
    intro source target
    rw [Arrow, Arrow, hnodes]
    refine and_congr_left fun htarget => ?_
    have hdeclared : target ≠ "ghost" := by
      rintro rfl
      simp [Declares, outOfOrder, GraphCall.declares] at htarget
    simp only [Links, inOrder, outOfOrder, List.mem_cons, List.not_mem_nil, or_false, reduceCtorEq,
      false_or, GraphCall.edge.injEq, hdeclared, and_false]
    tauto
  obtain ⟨hcycles, hdiagnostics⟩ := cycles_build_congr "component dependency" hnodes harrows
  refine ⟨hnodes, harrows, ?_, hdiagnostics id false⟩
  rw [← hcycles]
  cbv

end AppSpec.DependencyGraph
