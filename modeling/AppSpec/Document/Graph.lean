import AppSpec.Document.Validate

/-!
Documents whose containers are shared or contain themselves: a graph of containers, searched for a
way back from a container into one around it. A graph without one unfolds to a value.
-/

namespace AppSpec

inductive RawItem where
  | value (v : Value)
  | tuple (items : List RawItem)
  | node (index : Nat)

instance : Inhabited RawItem := ⟨.value .null⟩

inductive RawNode where
  | dict (entries : List (Scalar × RawItem))
  | list (items : List RawItem)
  | set (items : List Scalar)

structure RawGraph where
  nodes : Array RawNode
  root : RawItem

/-- The way from a container to something that it holds. -/
inductive RawStep where
  | key (key : Scalar)
  | index (i : Nat)

namespace RawStep

def segment : RawStep → Segment
  | .key k => .name k.text
  | .index i => .index i

/-- Whether the step cannot be written out. -/
def isLong : RawStep → Bool
  | .key k => k.hasLongInteger
  | .index _ => false

end RawStep

namespace RawNode

/-- What a container holds, each with the way to it. -/
def children : RawNode → List (RawStep × RawItem)
  | .dict entries => entries.map fun e => (.key e.1, e.2)
  | .list items => items.zipIdx.map fun p => (.index p.2, p.1)
  | .set _ => []

end RawNode

/-- Why a search through containers stops: it came back to a container around it, or to a key that
cannot be written out. -/
inductive SearchStop where
  | back (path : String)
  | failure (f : Failure)

namespace RawGraph

def childrenAt (g : RawGraph) (index : Nat) : List (RawStep × RawItem) :=
  match g.nodes[index]? with
  | some node => node.children
  | none => []

/-- Searches below a container, inside the containers around it; the path where it leads back to
one of them, or the containers that are known to lead back nowhere. -/
def searchBelow (g : RawGraph) :
    Nat → List Nat → Nat → String → List Nat → Except SearchStop (List Nat)
  | 0, _, index, _, finished => .ok (index :: finished)
  | steps + 1, around, index, path, finished => do
      let finished ← (g.childrenAt index).foldlM
        (fun (finished : List Nat) (child : RawStep × RawItem) =>
          if child.1.isLong then .error (.failure .integerTooLong)
          else
            match child.2 with
            | .node next =>
                if finished.contains next then .ok finished
                else
                  let path := Path.join path child.1.segment
                  if around.contains next then .error (.back path)
                  else searchBelow g steps (next :: around) next path finished
            | .value v =>
                if v.hasLongKey then .error (.failure .integerTooLong) else .ok finished
            | .tuple _ => .ok finished)
        finished
      return index :: finished

/-- The path at which the document leads back into a container around it. -/
def recursion? (g : RawGraph) : Except Failure (Option String) :=
  match g.root with
  | .node index =>
      match g.searchBelow g.nodes.size [index] index "" [] with
      | .ok _ => .ok none
      | .error (.back path) => .ok (some path)
      | .error (.failure f) => .error f
  | .value v => if v.hasLongKey then .error .integerTooLong else .ok none
  | .tuple _ => .ok none

mutual

def unfoldItem (unfold : Nat → Value) : RawItem → Value
  | .value v => v
  | .tuple items => .tuple (unfoldItems unfold items)
  | .node index => unfold index

def unfoldItems (unfold : Nat → Value) : List RawItem → List Value
  | [] => []
  | item :: rest => unfoldItem unfold item :: unfoldItems unfold rest

end

def unfold (g : RawGraph) : Nat → Nat → Value
  | 0, _ => .null
  | steps + 1, index =>
      match g.nodes[index]? with
      | some (.dict entries) =>
          .dict (entries.map fun e => (e.1, unfoldItem (unfold g steps) e.2))
      | some (.list items) => .list (unfoldItems (unfold g steps) items)
      | some (.set items) => .set items
      | none => .null

def value (g : RawGraph) : Value := unfoldItem (g.unfold (g.nodes.size + 1)) g.root

inductive RootKind where
  | absent
  | mapping
  | other (kind : String)

def rootKind (g : RawGraph) : RootKind :=
  match g.root with
  | .value .null => .absent
  | .value (.dict []) => .absent
  | .value (.dict _) => .mapping
  | .value v => .other v.kindName
  | .tuple _ => .other "tuple"
  | .node index =>
      match g.nodes[index]? with
      | some (.dict []) => .absent
      | some (.dict _) => .mapping
      | some (.list _) => .other "list"
      | some (.set _) => .other "set"
      | none => .absent

end RawGraph

namespace Document

def selfReferenceMessage (path : String) : String :=
  "document refers to itself at '" ++ path ++ "'"

def validateGraph (s : Settings) (g : RawGraph) (positions : Positions := []) :
    Except Failure ValidationResult :=
  match g.rootKind with
  | .absent => .ok (rejected emptyMessage positions)
  | .other kind => .ok (rejected (wrongRootMessage kind) positions)
  | .mapping =>
      match g.recursion? with
      | .ok (some path) => .ok (rejected (selfReferenceMessage path) positions)
      | .ok none => validate s g.value positions
      | .error f => .error f

end Document

end AppSpec
