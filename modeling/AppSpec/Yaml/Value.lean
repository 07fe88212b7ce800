import AppSpec.Document.Graph
import AppSpec.Yaml.Node.Basic
import AppSpec.Yaml.Scalar

/-!
The values of nodes. A collection is filled after everything around it is made, so that it may
refer to what contains it. A mapping takes over the pairs that it merges, but its own come first,
and of equal keys the first is kept.
-/

namespace AppSpec.Yaml

/-- The nodes, what was made of them, the containers made so far, and those still to be filled: the
kind, the node and the container. -/
structure Builder where
  nodes : Array Node
  made : Array (Option RawItem)
  containers : Array RawNode := #[]
  pending : List (Tag.CollectionKind × Nat × Nat) := []

/-- A key of a mapping: what it is and where it comes from. -/
structure Key where
  scalar : Scalar
  origin : Option Nat

namespace Key

/-- Keys are one when they are equal. What is no number equals nothing, and is one only with
itself. -/
def same (a b : Key) : Bool := a.scalar.same b.scalar || a.origin == b.origin

theorem same_self (k : Key) : k.same k = true := by simp [same]

end Key

abbrev Build (α : Type) := StateT Builder (Except Stop) α

namespace Builder

def noNode : Node := ⟨Tag.null, .start, .scalar "" .plain⟩

def node (i : Nat) : Build Node := return (← get).nodes[i]?.getD noNode

def pairs (i : Nat) : Build (List (Nat × Nat)) := return (← node i).pairs?.getD []

def setPairs (i : Nat) (pairs : List (Nat × Nat)) : Build Unit :=
  modify fun b => { b with nodes := b.nodes.modify i fun n => { n with content := .mapping pairs } }

def refuse {α : Type} (problem : Problem) (mark : Mark) : Build α :=
  StateT.lift (stopAt .value problem mark)

def refuseIn {α : Type} (activity : Activity) (since : Mark) (problem : Problem) (mark : Mark) :
    Build α :=
  StateT.lift (stopIn .value activity since problem mark)

/-! Merging -/

/-- A key that is a value of its own becomes text where it is a key. -/
def retag (key : Nat) : Build Unit :=
  modify fun b =>
    { b with nodes := b.nodes.modify key fun n =>
        if n.tag == Tag.value then { n with tag := Tag.str } else n }

/-- The place of the first pair that is merged, from some place on; keys before it are retagged. -/
def nextMerge? : Nat → List (Nat × Nat) → Build (Option (Nat × Nat))
  | _, [] => return none
  | place, (key, value) :: rest => do
      if (← node key).isMerge then return some (place, value)
      else
        retag key
        nextMerge? (place + 1) rest

/-- The pairs of the mappings that an item list merges: those of later ones come first. -/
def mergeItems (flatten : Nat → Build Unit) (since : Mark) :
    List Nat → List (Nat × Nat) → Build (List (Nat × Nat))
  | [], merged => return merged
  | item :: rest, merged => do
      let n ← node item
      match n.content with
      | .mapping _ => do
          flatten item
          mergeItems flatten since rest ((← pairs item) ++ merged)
      | _ => refuseIn .mapping since (.itemNotMergeable n.kindName) n.start

def mergedPairs (flatten : Nat → Build Unit) (since : Mark) (value : Nat) :
    Build (List (Nat × Nat)) := do
  let n ← node value
  match n.content with
  | .mapping _ => do
      flatten value
      pairs value
  | .sequence items => mergeItems flatten since items []
  | .scalar _ _ => refuseIn .mapping since (.notMergeable n.kindName) n.start

/-- Takes the merge keys from some place on out of a mapping, and puts what they bring in first. -/
def flattenFrom : Nat → Nat → Nat → List (Nat × Nat) → Build Unit
  | 0, _, _, _ => return
  | steps + 1, i, place, merged => do
      let own ← pairs i
      match ← nextMerge? place (own.drop place) with
      | none => setPairs i (merged ++ own)
      | some (place, value) => do
          setPairs i (own.eraseIdx place)
          let more ← mergedPairs (fun j => flattenFrom steps j 0 []) (← node i).start value
          flattenFrom steps i place (merged ++ more)

def isMergePair (b : Builder) (pair : Nat × Nat) : Bool :=
  (b.nodes[pair.1]?.map Node.isMerge).getD false

def mergeCount (b : Builder) : Nat :=
  b.nodes.toList.foldl (fun count n => count + (n.pairs?.getD []).countP b.isMergePair) 0

def flatten (i : Nat) : Build Unit := do
  flattenFrom ((← get).mergeCount + 1) i 0 []

def ownCount (i : Nat) : Build Nat := do
  let b ← get
  return ((b.nodes[i]?.bind Node.pairs?).getD []).countP fun p => !b.isMergePair p

/-- The pairs of a mapping as its value takes them: its own, then the merged ones from the last. -/
def orderedPairs (i : Nat) : Build (List (Nat × Nat)) := do
  let own ← ownCount i
  flatten i
  let all ← pairs i
  let split := all.length - own
  return all.drop split ++ (all.take split).reverse

/-! Making -/

/-- The text of a node that stands for a scalar: its own, or that of the value in a mapping. -/
def scalarText (nodes : Array Node) : Nat → Nat → Except Stop String
  | 0, _ => .error (.failure .endlessScalar)
  | steps + 1, i =>
      let n := nodes[i]?.getD noNode
      match n.content with
      | .scalar text _ => .ok text
      | .sequence _ => stopAt .value (.wrongKind "scalar" n.kindName) n.start
      | .mapping pairs =>
          match pairs.find? fun p => (nodes[p.1]?.map Node.tag) == some Tag.value with
          | some p => scalarText nodes steps p.2
          | none => stopAt .value (.wrongKind "scalar" n.kindName) n.start

def scalar (kind : Tag.ScalarKind) (i : Nat) (n : Node) : Build RawItem := do
  let b ← get
  let text ← StateT.lift (scalarText b.nodes (b.nodes.size + 1) i)
  if kind == .timestamp && n.text?.isNone then throw (.failure .collectionAsTimestamp)
  return .value (.scalar (← StateT.lift (ScalarValue.ofText text n.start kind)))

def emptyContainer : Tag.CollectionKind → RawNode
  | .map => .dict []
  | .set => .set []
  | _ => .list []

def container (kind : Tag.CollectionKind) (i : Nat) : Build RawItem := do
  let b ← get
  let index := b.containers.size
  set { b with
    containers := b.containers.push (emptyContainer kind)
    pending := b.pending ++ [(kind, i, index)] }
  return .node index

/-- The value of a node; made once, however often the node is referred to. -/
def make (i : Nat) : Build RawItem := do
  match (← get).made[i]? with
  | some (some item) => return item
  | _ => do
      let n ← node i
      let item ←
        match Tag.meaning? n.tag with
        | some (.scalar kind) => scalar kind i n
        | some (.collection kind) => container kind i
        | none => refuse (.unknownTag n.tag) n.start
      modify fun b => { b with made := b.made.setIfInBounds i (some item) }
      return item

def makeAll : List Nat → Build (List RawItem)
  | [] => return []
  | i :: rest => do
      let item ← make i
      return item :: (← makeAll rest)

/-- Where a key comes from: its node, and none where it is the one `.nan` of all documents. -/
def origin (i : Nat) (s : Scalar) : Build (Option Nat) := do
  let b ← get
  match s, scalarText b.nodes (b.nodes.size + 1) i with
  | .float x, .ok text =>
      return if x.isNaN && Number.isPointedNan text.toList then none else some i
  | _, _ => return some i

def key (since : Mark) (i : Nat) : Build Key := do
  match ← make i with
  | .value (.scalar s) => return ⟨s, ← origin i s⟩
  | _ => do
      let n ← node i
      refuseIn .mapping since .unhashableKey n.start

/-- The entries that pairs make; the value of a key that is there already is not made. -/
def entries (since : Mark) :
    List (Nat × Nat) → List (Key × RawItem) → Build (List (Key × RawItem))
  | [], done => return done
  | (k, value) :: rest, done => do
      let k ← key since k
      if done.any fun e => e.1.same k then entries since rest done
      else
        let item ← make value
        entries since rest (done ++ [(k, item)])

def mappingEntries (i : Nat) : Build (List (Scalar × RawItem)) := do
  let n ← node i
  match n.content with
  | .mapping _ => do
      let pairs ← orderedPairs i
      return (← entries n.start pairs []).map fun e => (e.1.scalar, e.2)
  | _ => refuse (.wrongKind "mapping" n.kindName) n.start

def pairItem (activity : Activity) (since : Mark) (i : Nat) : Build RawItem := do
  let n ← node i
  match n.content with
  | .mapping [(k, value)] => do
      let name ← make k
      let item ← make value
      return .tuple [name, item]
  | .mapping pairs => refuseIn activity since (.notSingle pairs.length) n.start
  | _ => refuseIn activity since (.noSingleton n.kindName) n.start

def pairItems (activity : Activity) (since : Mark) : List Nat → Build (List RawItem)
  | [] => return []
  | i :: rest => do
      let item ← pairItem activity since i
      return item :: (← pairItems activity since rest)

def pairList (activity : Activity) (i : Nat) : Build RawNode := do
  let n ← node i
  match n.content with
  | .sequence items => return .list (← pairItems activity n.start items)
  | _ => refuseIn activity n.start (.noSequence n.kindName) n.start

def filling (i : Nat) : Tag.CollectionKind → Build RawNode
  | .seq => do
      let n ← node i
      match n.content with
      | .sequence items => return .list (← makeAll items)
      | _ => refuse (.wrongKind "sequence" n.kindName) n.start
  | .map => do return .dict (← mappingEntries i)
  | .set => do return .set (Scalar.sorted ((← mappingEntries i).map (·.1)))
  | .omap => pairList .orderedMap i
  | .pairs => pairList .pairs i

/-- Fills the containers, the first one made first. -/
def settle : Nat → Build Unit
  | 0 => return
  | steps + 1 => do
      let b ← get
      match b.pending with
      | [] => return
      | (kind, i, index) :: rest => do
          set { b with pending := rest }
          let c ← filling i kind
          modify fun b => { b with containers := b.containers.setIfInBounds index c }
          settle steps

def document (root : Nat) : Build RawGraph := do
  let item ← make root
  settle (← get).nodes.size
  return ⟨(← get).containers, item⟩

end Builder

def NodeGraph.value (g : NodeGraph) : Except Stop RawGraph :=
  ((Builder.document g.root).run
    { nodes := g.nodes, made := Array.replicate g.nodes.size none }).map (·.1)

end AppSpec.Yaml
