import AppSpec.Proofs.Graph.Build
import AppSpec.Proofs.Named.Order
import AppSpec.Reference.Relationships

/-!
Graphs with the same nodes, each followed by the same ones, have the same cycles. So have graphs whose
nodes came up in another order.
-/

namespace AppSpec

theorem Order.sortedTexts_eq_of_perm {xs ys : List String} (h : xs.Perm ys) :
    sortedTexts xs = sortedTexts ys := by
  have hsorted (zs : List String) : (sortedTexts zs).Pairwise (· ≤ ·) := by
    have htrans (a b c : String) (hab : decide (a ≤ b) = true) (hbc : decide (b ≤ c) = true) :
        decide (a ≤ c) = true :=
      decide_eq_true (le_trans (of_decide_eq_true hab) (of_decide_eq_true hbc))
    have hle := List.pairwise_mergeSort htrans (fun a b => by simpa using le_total a b) zs
    simpa only [sortedTexts, decide_eq_true_eq] using hle
  refine List.Perm.eq_of_pairwise (fun _ _ _ _ => le_antisymm) (hsorted xs) (hsorted ys) ?_
  exact (sortedTexts_perm xs).trans (h.trans (sortedTexts_perm ys).symm)

namespace DependencyGraph

variable {g g' : DependencyGraph}

/-- The search meets the same in both graphs: the nodes to begin with, and those that follow one. -/
structure SearchedAlike (g g' : DependencyGraph) : Prop where
  nodes : g.edges.keys.Perm g'.edges.keys
  successors : ∀ node, g.successors node = g'.successors node

namespace SearchedAlike

theorem visit (h : SearchedAlike g g') (steps : Nat) (path : List String) (node : String)
    (s : Search) : g.visit steps path node s = g'.visit steps path node s := by
  induction steps generalizing path node s with
  | zero => rfl
  | succ steps ih =>
      rw [DependencyGraph.visit, DependencyGraph.visit, h.successors]
      simp only [ih]

theorem cycles (h : SearchedAlike g g') : g.cycles = g'.cycles := by
  have hsize : g.size = g'.size := by simpa [Named.keys, size] using h.nodes.length_eq
  have hroots := Order.sortedTexts_eq_of_perm h.nodes
  have hsearch : g.search = g'.search := by
    rw [search, search, hroots, hsize]
    simp only [h.visit]
  rw [DependencyGraph.cycles, DependencyGraph.cycles, hsearch]

theorem cycleDiagnostics (h : SearchedAlike g g') (hlabel : g.label = g'.label)
    (pathOf : String → String) (warning : Bool) :
    g.cycleDiagnostics pathOf warning = g'.cycleDiagnostics pathOf warning := by
  rw [DependencyGraph.cycleDiagnostics, DependencyGraph.cycleDiagnostics, h.cycles, hlabel]

end SearchedAlike

structure Alike (g g' : DependencyGraph) : Prop where
  label : g.label = g'.label
  edges : g.edges.Alike g'.edges

namespace Alike

theorem hasNode (h : Alike g g') (node : String) : g.hasNode node = g'.hasNode node :=
  h.edges.has node

theorem targets (h : Alike g g') (node : String) : g.targets node = g'.targets node := by
  rw [DependencyGraph.targets, DependencyGraph.targets, h.edges.get]

theorem declared (h : Alike g g') (nodes : List String) : g.declared nodes = g'.declared nodes :=
  List.filter_congr fun node _ => h.hasNode node

theorem successors (h : Alike g g') (node : String) : g.successors node = g'.successors node := by
  rw [DependencyGraph.successors, DependencyGraph.successors, h.targets, h.declared]

theorem searched (h : Alike g g') : SearchedAlike g g' := ⟨h.edges.keys_perm, h.successors⟩

theorem cycleDiagnostics (h : Alike g g') {pathOf pathOf' : String → String}
    (hpath : ∀ node, pathOf node = pathOf' node) (warning : Bool) :
    g.cycleDiagnostics pathOf warning = g'.cycleDiagnostics pathOf' warning := by
  rw [funext hpath]
  exact h.searched.cycleDiagnostics h.label pathOf' warning

theorem adjacency (h : Alike g g') : g.adjacency.Perm g'.adjacency := by
  have hdeclared : (fun e : String × List String => (e.1, g.declared e.2)) =
      fun e => (e.1, g'.declared e.2) := funext fun e => by rw [h.declared]
  rw [DependencyGraph.adjacency, DependencyGraph.adjacency, hdeclared]
  exact h.edges.toPerm.map _

theorem set (h : Alike g g') (node : String) (targets : List String) :
    Alike { g with edges := g.edges.set node targets }
      { g' with edges := g'.edges.set node targets } := by
  have hmore : Named.Alike [(node, targets)] [(node, targets)] := .refl (List.nodup_singleton node)
  exact ⟨h.label, h.edges.setAll hmore⟩

theorem addNode (h : Alike g g') (node : String) : Alike (g.addNode node) (g'.addNode node) := by
  rw [DependencyGraph.addNode, DependencyGraph.addNode, h.hasNode]
  split
  · exact h
  · next hnew =>
      have hnew' : g'.edges.has node = false := by simpa [DependencyGraph.hasNode] using hnew
      rw [← Named.set_of_not_has [] hnew', ← Named.set_of_not_has [] ((h.hasNode node).trans hnew')]
      exact h.set node []

theorem addEdge (h : Alike g g') (source target : String) :
    Alike (g.addEdge source target) (g'.addEdge source target) := by
  have hnode := h.addNode source
  rw [DependencyGraph.addEdge, DependencyGraph.addEdge, hnode.targets]
  split
  · exact hnode
  · exact hnode.set source _

end Alike

/-! ### Graphs over items -/

/-- What is linked from a node after some more targets. -/
def linked (old targets : List String) : List String :=
  targets.foldl (fun old target => if old.contains target then old else old ++ [target]) old

theorem get?_middle {before after : Named (List String)} {source : String} {old : List String}
    (h : source ∉ before.keys) : Named.get? (before ++ (source, old) :: after) source = some old := by
  rw [Named.get?_append, Named.get?_eq_none h, Named.get?, if_pos rfl, Option.none_or]

theorem set_middle {before after : Named (List String)} {source : String} {old new : List String}
    (h : source ∉ before.keys) :
    Named.set (before ++ (source, old) :: after) source new = before ++ (source, new) :: after := by
  induction before with
  | nil => rw [List.nil_append, List.nil_append, Named.set, if_pos rfl]
  | cons e before ih =>
      obtain ⟨key, value⟩ := e
      obtain ⟨hkey, hrest⟩ := not_or.mp fun hmem => h (List.mem_cons.mpr hmem)
      rw [List.cons_append, List.cons_append, Named.set, if_neg (Ne.symm hkey), ih hrest]

theorem addEdges_middle (label : String) {before after : Named (List String)} {source : String}
    (h : source ∉ before.keys) (more old : List String) :
    more.foldl (fun g target => addEdge g source target)
        ⟨label, before ++ (source, old) :: after⟩ =
      ⟨label, before ++ (source, linked old more) :: after⟩ := by
  induction more generalizing old with
  | nil => rfl
  | cons target more ih =>
      have hget : Named.get? (before ++ (source, old) :: after) source = some old := get?_middle h
      have hnode : addNode ⟨label, before ++ (source, old) :: after⟩ source =
          ⟨label, before ++ (source, old) :: after⟩ := by
        rw [addNode, hasNode, Named.has, hget]
        rfl
      have hedge : addEdge ⟨label, before ++ (source, old) :: after⟩ source target =
          ⟨label, before ++ (source, if old.contains target then old else old ++ [target]) :: after⟩ := by
        rw [addEdge, hnode, targets, hget]
        dsimp only [Option.getD_some]
        split
        · rfl
        · rw [set_middle h]
      rw [List.foldl_cons, hedge, ih]
      rfl

theorem addNodes_fresh (label : String) {names : List String} (hnodup : names.Nodup)
    (edges : Named (List String)) (h : ∀ name ∈ names, edges.has name = false) :
    names.foldl addNode ⟨label, edges⟩ = ⟨label, edges ++ names.map fun name => (name, [])⟩ := by
  induction names generalizing edges with
  | nil => rw [List.map_nil, List.append_nil]; rfl
  | cons name names ih =>
      obtain ⟨hname, hnodup⟩ := List.nodup_cons.mp hnodup
      obtain ⟨hnew, hrest⟩ := List.forall_mem_cons.mp h
      have hnode : addNode ⟨label, edges⟩ name = ⟨label, edges ++ [(name, [])]⟩ := by
        rw [addNode, hasNode, hnew]
        rfl
      rw [List.foldl_cons, hnode, ih hnodup, List.append_assoc]
      · rfl
      · intro other hother
        have hne : name ≠ other := fun heq => hname (heq ▸ hother)
        simp [hrest other hother, hne]

theorem linkItems_eq (label : String) {items : List (String × List String)}
    (before : Named (List String)) (h : (before.keys ++ items.map (·.1)).Nodup) :
    items.foldl (fun g i => i.2.foldl (fun g target => addEdge g i.1 target) g)
        ⟨label, before ++ items.map fun i => (i.1, [])⟩ =
      ⟨label, before ++ items.map fun i => (i.1, linked [] i.2)⟩ := by
  induction items generalizing before with
  | nil => rfl
  | cons item items ih =>
      have hfresh : item.1 ∉ before.keys := fun hmem =>
        (List.nodup_append.mp h).2.2 _ hmem _ List.mem_cons_self rfl
      have hrest : (Named.keys (before ++ [(item.1, linked [] item.2)]) ++ items.map (·.1)).Nodup := by
        simpa [Named.keys] using h
      rw [List.foldl_cons, List.map_cons, addEdges_middle label hfresh, List.map_cons,
        List.append_cons, ih _ hrest, ← List.append_cons]

/-- The nodes in the order of the items, each linked to the targets of its own item. -/
theorem ofItems_eq (label : String) {items : List (String × List String)}
    (h : (items.map (·.1)).Nodup) :
    ofItems label items = ⟨label, items.map fun i => (i.1, linked [] i.2)⟩ := by
  have hnodes : items.foldl (fun g i => g.addNode i.1) (empty label) =
      ⟨label, items.map fun i => (i.1, [])⟩ := by
    have hfold := addNodes_fresh label h [] fun _ _ => rfl
    rwa [List.foldl_map, List.map_map] at hfold
  rw [ofItems, hnodes]
  exact linkItems_eq label [] h

theorem alike_ofItems (label : String) {items items' : List (String × List String)}
    (hnodup : (items.map (·.1)).Nodup) (h : items.Perm items') :
    Alike (ofItems label items) (ofItems label items') := by
  rw [ofItems_eq label hnodup, ofItems_eq label ((h.map _).nodup_iff.mp hnodup)]
  refine ⟨rfl, .of_perm ?_ (h.map _)⟩
  rw [Named.keys, List.map_map]
  exact hnodup

theorem alike_ofRequired {names names' : List String} (hnodup : names.Nodup)
    (h : names.Perm names') (relationships : List Relationship) :
    Alike (ofRequired names relationships) (ofRequired names' relationships) := by
  let label := "required entity reference"
  have hnodes : Alike (names.foldl addNode (empty label)) (names'.foldl addNode (empty label)) := by
    rw [empty, addNodes_fresh label hnodup [] fun _ _ => rfl,
      addNodes_fresh label (h.nodup_iff.mp hnodup) [] fun _ _ => rfl]
    refine ⟨rfl, .of_perm ?_ (h.map _)⟩
    rw [List.nil_append, Named.keys, List.map_map]
    exact (List.map_id' names).symm ▸ hnodup
  show Alike (relationships.foldl _ (names.foldl addNode (empty label)))
    (relationships.foldl _ (names'.foldl addNode (empty label)))
  generalize names.foldl addNode (empty label) = g at hnodes
  generalize names'.foldl addNode (empty label) = g' at hnodes
  induction relationships generalizing g g' with
  | nil => exact hnodes
  | cons r relationships ih =>
      refine ih _ _ ?_
      dsimp only
      rw [hnodes.hasNode]
      split
      · exact hnodes.addEdge r.source r.target
      · exact hnodes

/-! ### Graphs over reordered items -/

/-- Nothing is reordered, or the nodes came up in another order. -/
def Same (g g' : DependencyGraph) : Prop := g = g' ∨ Alike g g'

namespace Same

theorem cycleDiagnostics (h : Same g g') {pathOf pathOf' : String → String}
    (hpath : ∀ node, pathOf node = pathOf' node) (warning : Bool) :
    g.cycleDiagnostics pathOf warning = g'.cycleDiagnostics pathOf' warning := by
  rcases h with rfl | h
  · rw [funext hpath]
  · exact h.cycleDiagnostics hpath warning

theorem adjacency (h : Same g g') : g.adjacency.Perm g'.adjacency := by
  rcases h with rfl | h
  · exact .refl _
  · exact h.adjacency

end Same

theorem same_ofItems {α : Type} {nameOf : α → String} (label : String)
    (itemOf : α → String × List String) (hname : ∀ a, (itemOf a).1 = nameOf a) {xs ys : Named α}
    (h : xs.Reordered nameOf ys) :
    Same (ofItems label (xs.values.map itemOf)) (ofItems label (ys.values.map itemOf)) := by
  rcases h.values_cases with hvalues | hnodup
  · exact .inl (hvalues ▸ rfl)
  · refine .inr (alike_ofItems label ?_ (h.values_perm.map itemOf))
    rw [List.map_map]
    exact (funext hname : Prod.fst ∘ itemOf = nameOf) ▸ hnodup

theorem same_ofRequired {α : Type} {nameOf : α → String} {xs ys : Named α}
    (h : xs.Reordered nameOf ys) (relationships : List Relationship) :
    Same (ofRequired xs.keys relationships) (ofRequired ys.keys relationships) := by
  cases h with
  | same => exact .inl rfl
  | alike h _ => exact .inr (alike_ofRequired h.nodup h.keys_perm relationships)

end DependencyGraph

end AppSpec
