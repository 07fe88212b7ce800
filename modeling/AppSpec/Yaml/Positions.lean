import AppSpec.Document.Positions
import AppSpec.Yaml.Node.Basic

/-!
Where the parts of a document stand in its text. An item of a sequence is found by its index, and
by the name that it gives itself. Keys that a mapping repeats are told on the way, and a node that
leads back into itself stops it.
-/

namespace AppSpec

namespace Diagnostic

def duplicateKey (path key : String) : Diagnostic :=
  .consistencyError path ("duplicate key '" ++ key ++ "' (first value kept)")
    (some "Remove or rename the repeated key")

end Diagnostic

namespace Yaml

namespace Node

/-- The place of a node, behind the quote of a quoted scalar. -/
def position (n : Node) : Position :=
  match n.content with
  | .scalar _ style => ⟨n.start.line + 1, n.start.column + if style.isQuoted then 2 else 1⟩
  | _ => ⟨n.start.line + 1, n.start.column + 1⟩

end Node

/-- The places found so far, and the keys found to be repeated. -/
structure Index where
  positions : Positions
  repeated : List Diagnostic

def Index.note (s : Index) (path : String) (p : Position) : Index :=
  if s.positions.has path then s else { s with positions := s.positions ++ [(path, p)] }

structure RecursiveAlias where
  path : String
  mark : Mark

namespace NodeGraph

def mergeKey : String := "<<"

def isNameKey (key : String) : Bool := key == "name" || key == "id"

def itemName? (g : NodeGraph) (i : Nat) : Option String :=
  (g.pairs? i).bind fun pairs => pairs.findSome? fun pair =>
    match g.text? pair.1, g.text? pair.2 with
    | some key, some name => if isNameKey key && !name.isEmpty then some name else none
    | _, _ => none

/-- Notes the place of a child: where it stands if it is a scalar, and otherwise where its key
does. -/
def noteChild (g : NodeGraph) (path : String) (key value : Nat) (s : Index) : Index :=
  match g.nodes[key]?, g.nodes[value]? with
  | some k, some v => s.note path (if v.text?.isSome then v else k).position
  | _, _ => s

def noteItem (g : NodeGraph) (path : String) (item : Nat) (s : Index) : Index :=
  match g.nodes[item]? with
  | some n => s.note path n.position
  | none => s

def noteRepeated (g : NodeGraph) (path key : String) (i : Nat) (s : Index) : Index :=
  match g.nodes[i]? with
  | some n =>
      let d := (Diagnostic.duplicateKey path key).placed n.position.line n.position.column
      { s with repeated := s.repeated ++ [d] }
  | none => s

section Walk

variable {m : Type → Type} [Monad m] (g : NodeGraph) (below : Nat → String → Index → m Index)

/-- Walks the pairs of a mapping in which some keys are seen already. Merged values are only
looked at for what leads back. -/
def walkPairs (path : String) : List (Nat × Nat) → List String → Index → m Index
  | [], _, s => pure s
  | (key, value) :: rest, seen, s =>
      match g.text? key with
      | none => walkPairs path rest seen s
      | some name =>
          if name == mergeKey then do
            let _ ← below value path ⟨[], []⟩
            walkPairs path rest seen s
          else
            let child := Path.child path name
            if seen.contains name then
              walkPairs path rest seen (g.noteRepeated child name key s)
            else do
              let s ← below value child (g.noteChild child key value s)
              walkPairs path rest (name :: seen) s

/-- Walks an item under its index, and then under its name, where no repeated key is told again. -/
def walkItem (path : String) (item index : Nat) (s : Index) : m Index := do
  let child := Path.item path index
  let s ← below item child (g.noteItem child item s)
  match g.itemName? item with
  | none => return s
  | some name =>
      let child := Path.child path name
      let named ← below item child (g.noteItem child item s)
      return { named with repeated := s.repeated }

def walkItems (path : String) : List Nat → Nat → Index → m Index
  | [], _, s => pure s
  | item :: rest, index, s => do
      let s ← walkItem g below path item index s
      walkItems path rest (index + 1) s

end Walk

def walk (g : NodeGraph) : Nat → List Nat → Nat → String → Index → Except RecursiveAlias Index
  | 0, _, _, _, s => .ok s
  | steps + 1, around, i, path, s =>
      match g.nodes[i]? with
      | none => .ok s
      | some n =>
          if around.contains i then .error ⟨path, n.start⟩
          else
            match n.content with
            | .scalar _ _ => .ok s
            | .sequence items => g.walkItems (walk g steps (i :: around)) path items 0 s
            | .mapping pairs => g.walkPairs (walk g steps (i :: around)) path pairs [] s

def rootPositions (g : NodeGraph) : Positions :=
  match g.nodes[g.root]? with
  | some n => [("", n.position)]
  | none => []

/-- The places of all parts of a document, and its repeated keys. -/
def index (g : NodeGraph) : Except RecursiveAlias Index :=
  g.walk (g.nodes.size + 2) [] g.root "" ⟨g.rootPositions, []⟩

end NodeGraph

end Yaml

end AppSpec
