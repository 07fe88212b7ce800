import AppSpec.Named
import AppSpec.Yaml.Tag
import AppSpec.Yaml.Token

/-!
The nodes of a YAML document. An alias is the node it names, so nodes may be shared and may contain
themselves.
-/

namespace AppSpec.Yaml

inductive Content where
  | scalar (text : String) (style : Style)
  | sequence (items : List Nat)
  | mapping (pairs : List (Nat × Nat))
  deriving DecidableEq, Repr

structure Node where
  tag : String
  start : Mark
  content : Content
  deriving DecidableEq, Repr

namespace Content

def kindName : Content → String
  | .scalar _ _ => "scalar"
  | .sequence _ => "sequence"
  | .mapping _ => "mapping"

end Content

namespace Node

def kindName (n : Node) : String := n.content.kindName

def text? (n : Node) : Option String :=
  match n.content with
  | .scalar text _ => some text
  | _ => none

def items? (n : Node) : Option (List Nat) :=
  match n.content with
  | .sequence items => some items
  | _ => none

def pairs? (n : Node) : Option (List (Nat × Nat)) :=
  match n.content with
  | .mapping pairs => some pairs
  | _ => none

def isMerge (n : Node) : Bool := n.tag == Tag.merge

end Node

structure NodeGraph where
  nodes : Array Node
  root : Nat

namespace NodeGraph

def text? (g : NodeGraph) (i : Nat) : Option String := g.nodes[i]?.bind Node.text?

def pairs? (g : NodeGraph) (i : Nat) : Option (List (Nat × Nat)) := g.nodes[i]?.bind Node.pairs?

end NodeGraph

end AppSpec.Yaml
