import AppSpec.Graph.Basic
import AppSpec.Proofs.Named

/-!
Graphs built by declaring nodes and linking them one after the other: what such a run declares and
links is what the graph holds.
-/

namespace AppSpec

inductive GraphCall where
  | node (name : String)
  | edge (source target : String)
  deriving DecidableEq, Repr

namespace GraphCall

def declares : GraphCall → String
  | .node name => name
  | .edge source _ => source

end GraphCall

namespace DependencyGraph

def call (g : DependencyGraph) : GraphCall → DependencyGraph
  | .node name => g.addNode name
  | .edge source target => g.addEdge source target

def build (label : String) (calls : List GraphCall) : DependencyGraph :=
  calls.foldl call (empty label)

def Declares (calls : List GraphCall) (name : String) : Prop :=
  ∃ c ∈ calls, c.declares = name

def Links (calls : List GraphCall) (source target : String) : Prop :=
  .edge source target ∈ calls

def Arrow (calls : List GraphCall) (source target : String) : Prop :=
  Links calls source target ∧ Declares calls target

def Adjacent (g : DependencyGraph) (source target : String) : Prop :=
  target ∈ g.successors source

theorem mem_successors (g : DependencyGraph) (source target : String) :
    target ∈ g.successors source ↔ target ∈ g.targets source ∧ g.hasNode target = true := by
  rw [successors, (Order.sortedTexts_perm _).mem_iff, declared, List.mem_filter]

theorem hasNode_of_mem_targets {g : DependencyGraph} {source target : String}
    (h : target ∈ g.targets source) : g.hasNode source = true := by
  cases hs : g.edges.get? source with
  | none => simp [targets, hs] at h
  | some out => simp [hasNode, Named.has, hs]

@[simp]
theorem hasNode_addNode (g : DependencyGraph) (node name : String) :
    (g.addNode node).hasNode name = (decide (node = name) || g.hasNode name) := by
  cases h : g.hasNode node with
  | true =>
      by_cases hn : node = name
      · subst hn
        simp [addNode, h]
      · simp [addNode, h, hn]
  | false =>
      simp only [addNode, h, Bool.false_eq_true, if_false]
      simp only [hasNode, Named.has_append, Named.has_singleton, Bool.or_comm]

@[simp]
theorem targets_addNode (g : DependencyGraph) (node name : String) :
    (g.addNode node).targets name = g.targets name := by
  cases h : g.hasNode node with
  | true => simp [addNode, h]
  | false =>
      have hnone : g.edges.get? node = none := by simpa [hasNode, Named.has] using h
      simp only [addNode, h, Bool.false_eq_true, if_false, targets, Named.get?_append]
      by_cases hn : node = name
      · subst hn
        simp [hnone, Named.get?]
      · simp [Named.get?, hn]

@[simp]
theorem hasNode_addEdge (g : DependencyGraph) (source target name : String) :
    (g.addEdge source target).hasNode name = (decide (source = name) || g.hasNode name) := by
  simp only [addEdge]
  split
  · exact hasNode_addNode g source name
  · simp only [hasNode, Named.has_set]
    have h := hasNode_addNode g source name
    simp only [hasNode] at h
    rw [h]
    cases decide (source = name) <;> rfl

theorem mem_targets_addEdge (g : DependencyGraph) (source target a b : String) :
    b ∈ (g.addEdge source target).targets a ↔
      b ∈ g.targets a ∨ (a = source ∧ b = target) := by
  simp only [addEdge]
  split
  · rename_i h
    rw [targets_addNode] at h ⊢
    refine ⟨.inl, ?_⟩
    rintro (hb | ⟨rfl, rfl⟩)
    · exact hb
    · simpa using h
  · simp only [targets, Named.get?_set]
    by_cases ha : source = a
    · subst ha
      have h : (Named.get? (g.addNode source).edges source).getD [] = g.targets source :=
        targets_addNode g source source
      simp [h, targets]
    · have h : (Named.get? (g.addNode source).edges a).getD [] = g.targets a :=
        targets_addNode g source a
      have hne : ¬a = source := fun he => ha he.symm
      simp [ha, hne, h, targets]

theorem hasNode_foldl_call (calls : List GraphCall) (g : DependencyGraph) (name : String) :
    (calls.foldl call g).hasNode name = true ↔ g.hasNode name = true ∨ Declares calls name := by
  induction calls generalizing g with
  | nil => simp [Declares]
  | cons c calls ih =>
      have hc : (g.call c).hasNode name = true ↔ g.hasNode name = true ∨ c.declares = name := by
        cases c with
        | node n => simp [call, hasNode_addNode, GraphCall.declares, or_comm]
        | edge a b => simp [call, hasNode_addEdge, GraphCall.declares, or_comm]
      rw [List.foldl_cons, ih, hc, or_assoc]
      simp [Declares]

theorem mem_targets_foldl_call (calls : List GraphCall) (g : DependencyGraph) (a b : String) :
    b ∈ (calls.foldl call g).targets a ↔ b ∈ g.targets a ∨ Links calls a b := by
  induction calls generalizing g with
  | nil => simp [Links]
  | cons c calls ih =>
      have hc : b ∈ (g.call c).targets a ↔ b ∈ g.targets a ∨ GraphCall.edge a b = c := by
        cases c with
        | node n => simp [call, targets_addNode]
        | edge source target => simp [call, mem_targets_addEdge]
      rw [List.foldl_cons, ih, hc, or_assoc]
      simp [Links]

theorem hasNode_build (label : String) (calls : List GraphCall) (name : String) :
    (build label calls).hasNode name = true ↔ Declares calls name := by
  rw [build, hasNode_foldl_call]
  simp [hasNode, empty, Named.has, Named.get?]

theorem mem_targets_build (label : String) (calls : List GraphCall) (a b : String) :
    b ∈ (build label calls).targets a ↔ Links calls a b := by
  rw [build, mem_targets_foldl_call]
  simp [targets, empty, Named.get?]

theorem adjacent_build (label : String) (calls : List GraphCall) (a b : String) :
    (build label calls).Adjacent a b ↔ Arrow calls a b := by
  rw [Adjacent, mem_successors, mem_targets_build, hasNode_build, Arrow]

theorem Links.declares_source {calls : List GraphCall} {a b : String} (h : Links calls a b) :
    Declares calls a :=
  ⟨_, h, rfl⟩

end DependencyGraph

end AppSpec
