import AppSpec.Yaml.Node.Read
import AppSpec.Yaml.Positions
import AppSpec.Yaml.Token.Stream
import AppSpec.Yaml.Value

/-!
Loading YAML: the value of a text with one document at most, where its parts stand, and which keys
it repeats.
-/

namespace AppSpec.Yaml

structure Loaded where
  graph : RawGraph
  positions : Positions
  repeated : List Diagnostic

def isAllowed (c : Char) : Bool :=
  let n := c.toNat
  n == 0x09 || n == 0x0A || n == 0x0D || (0x20 ≤ n && n ≤ 0x7E) || n == 0x85 ||
    (0xA0 ≤ n && n ≤ 0xD7FF) || (0xE000 ≤ n && n ≤ 0xFFFD) || 0x10000 ≤ n

def checkCharacters : Nat → List Char → Except Stop Unit
  | _, [] => .ok ()
  | index, c :: cs =>
      if isAllowed c then checkCharacters (index + 1) cs else .error (.unprintable c.toNat index)

def NodeGraph.ofText? (cs : List Char) : Except Stop (Option NodeGraph) := do
  checkCharacters 0 cs
  let (ts, ending) := tokens cs
  NodeGraph.ofTokens? ts ending

def recursionStop (r : RecursiveAlias) : Stop :=
  .fault ⟨.nesting, none, none, .recursiveAlias r.path, r.mark⟩

def loadGraph (g : NodeGraph) : Except Stop Loaded := do
  match g.index with
  | .error r => throw (recursionStop r)
  | .ok s =>
      let graph ← g.value
      return ⟨graph, s.positions, s.repeated⟩

def nothing : Loaded := ⟨⟨#[], .value .null⟩, [], []⟩

def load (cs : List Char) : Except Stop Loaded := do
  match ← NodeGraph.ofText? cs with
  | none => return nothing
  | some g => loadGraph g

end AppSpec.Yaml
