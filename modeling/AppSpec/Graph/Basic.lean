import AppSpec.Diagnostic
import AppSpec.Failure
import AppSpec.Named

/-!
Dependency graphs and their cycles. Edges to nodes that are not declared do not count.
-/

namespace AppSpec

namespace Order

def sortedTexts (names : List String) : List String := names.mergeSort fun a b => decide (a ≤ b)

theorem sortedTexts_perm (names : List String) : (sortedTexts names).Perm names :=
  List.mergeSort_perm names _

def compareLists : List String → List String → Ordering
  | [], [] => .eq
  | [], _ :: _ => .lt
  | _ :: _, [] => .gt
  | a :: as, b :: bs => (compare a b).then (compareLists as bs)

end Order

structure DependencyGraph where
  label : String
  edges : Named (List String)

namespace Cycle

def least : String → List String → String
  | m, [] => m
  | m, n :: ns => least (if n < m then n else m) ns

/-- The cycle from its least node on, closed by that node. -/
def normalize : List String → Except Failure (List String)
  | [] => .error .emptyCycle
  | n :: ns =>
      let start := (n :: ns).idxOf (least n ns)
      let rotated := (n :: ns).drop start ++ (n :: ns).take start
      .ok (rotated ++ rotated.take 1)

end Cycle

namespace DependencyGraph

def empty (label : String) : DependencyGraph := ⟨label, []⟩

def size (g : DependencyGraph) : Nat := g.edges.length

def hasNode (g : DependencyGraph) (node : String) : Bool := g.edges.has node

def targets (g : DependencyGraph) (node : String) : List String := (g.edges.get? node).getD []

def addNode (g : DependencyGraph) (node : String) : DependencyGraph :=
  if g.hasNode node then g else { g with edges := g.edges ++ [(node, [])] }

def addEdge (g : DependencyGraph) (source target : String) : DependencyGraph :=
  let g := g.addNode source
  let old := g.targets source
  if old.contains target then g else { g with edges := g.edges.set source (old ++ [target]) }

def declared (g : DependencyGraph) (nodes : List String) : List String := nodes.filter g.hasNode

def successors (g : DependencyGraph) (node : String) : List String :=
  Order.sortedTexts (g.declared (g.targets node))

def adjacency (g : DependencyGraph) : Named (List String) :=
  g.edges.map fun e => (e.1, g.declared e.2)

/-- The nodes met so far, and the cycles closed so far. -/
structure Search where
  visited : List String
  cycles : List (List String)

def Search.close (s : Search) (path : List String) (node : String) : Search :=
  match Cycle.normalize (path.drop (path.idxOf node)) with
  | .ok cycle => if s.cycles.contains cycle then s else { s with cycles := s.cycles ++ [cycle] }
  | .error _ => s

/-- Searches depth first from a node at the end of a path; an edge back to the path closes a
cycle. -/
def visit (g : DependencyGraph) : Nat → List String → String → Search → Search
  | 0, _, _, s => s
  | steps + 1, path, node, s =>
      let path := path ++ [node]
      (g.successors node).foldl
        (fun s next =>
          if path.contains next then s.close path next
          else if s.visited.contains next then s
          else visit g steps path next s)
        { s with visited := node :: s.visited }

def search (g : DependencyGraph) : Search :=
  (Order.sortedTexts g.edges.keys).foldl
    (fun s root => if s.visited.contains root then s else g.visit g.size [] root s) ⟨[], []⟩

def cycles (g : DependencyGraph) : List (List String) :=
  g.search.cycles.mergeSort fun a b => (Order.compareLists a b).isLE

def cycleDiagnostics (g : DependencyGraph) (pathOf : String → String) (warning : Bool) :
    List Diagnostic :=
  g.cycles.map fun cycle =>
    let path := pathOf (cycle.headD "")
    let message := "circular " ++ g.label ++ ": " ++ " -> ".intercalate cycle
    if warning then .consistencyWarning path message else .consistencyError path message

/-- A graph over declared nodes, each with what it depends on. -/
def ofItems (label : String) (items : List (String × List String)) : DependencyGraph :=
  let nodes := items.foldl (fun g i => g.addNode i.1) (empty label)
  items.foldl (fun g i => i.2.foldl (fun g target => g.addEdge i.1 target) g) nodes

end DependencyGraph

end AppSpec
