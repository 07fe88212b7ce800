import AppSpec.Yaml.Node.Basic

/-!
Reading tokens as the nodes of a document.
-/

namespace AppSpec.Yaml

/-- The tokens that are left, why none come after them, and the nodes read so far. -/
structure NodeReader where
  tokens : List Token
  ending : Option Stop
  handles : Named String := []
  nodes : Array Node := #[]
  anchors : Named Nat := []

abbrev ReadNodes (α : Type) := StateT NodeReader (Except Stop) α

namespace NodeReader

def defaultHandles : Named String := [("!", "!"), ("!!", Tag.family)]

/-- What a text without an end is told by, should its tokens not say why they end. -/
def noEnd : Stop := .fault ⟨.token, none, none, .endOfStream, .start⟩

def peek : ReadNodes Token := do
  let r ← get
  match r.tokens with
  | t :: _ => return t
  | [] => throw (r.ending.getD noEnd)

def drop : ReadNodes Unit := modify fun r => { r with tokens := r.tokens.drop 1 }

def refuse {α : Type} (activity : Activity) (since : Mark) (problem : Problem) (mark : Mark) :
    ReadNodes α :=
  StateT.lift (stopIn .grammar activity since problem mark)

def refuseAt {α : Type} (problem : Problem) (mark : Mark) : ReadNodes α :=
  StateT.lift (stopAt .grammar problem mark)

def newNode (tag : String) (start : Mark) (content : Content) : ReadNodes Nat := do
  let r ← get
  set { r with nodes := r.nodes.push ⟨tag, start, content⟩ }
  return r.nodes.size

def setContent (i : Nat) (content : Content) : ReadNodes Unit :=
  modify fun r => { r with nodes := r.nodes.modify i fun n => { n with content } }

def emptyNode (mark : Mark) : ReadNodes Nat := newNode Tag.null mark (.scalar "" .plain)

structure WrittenTag where
  handle : Option String
  rest : String
  mark : Mark

structure Properties where
  anchor : Option String := none
  tag : Option WrittenTag := none
  start : Option Mark := none

/-- Notes a property that a token gives, unless one of its kind is there. -/
def Properties.add? (p : Properties) (t : Token) : Option Properties :=
  let start := some (p.start.getD t.start)
  match t.kind, p.anchor, p.tag with
  | .anchor name, none, _ => some { p with anchor := some name, start }
  | .tag handle rest, _, none => some { p with tag := some ⟨handle, rest, t.start⟩, start }
  | _, _, _ => none

def properties : Nat → Properties → ReadNodes Properties
  | 0, p => return p
  | most + 1, p => do
      match p.add? (← peek) with
      | some p => do
          drop
          properties most p
      | none => return p

def fullTag (p : Properties) : ReadNodes (Option String) := do
  match p.tag with
  | none => return none
  | some t =>
      match t.handle with
      | none => return some t.rest
      | some handle =>
          match (← get).handles.get? handle with
          | some lead => return some (lead ++ t.rest)
          | none => refuse .node (p.start.getD t.mark) (.unknownHandle handle) t.mark

def isUntagged (tag : Option String) : Bool := tag.isNone || tag == some Tag.bare

def collectionTag (tag : Option String) (default : String) : String :=
  if isUntagged tag then default else tag.getD default

def scalarTag (tag : Option String) (text : String) (style : Style) : String :=
  match tag with
  | none => if style.isPlain then Tag.ofText text else Tag.str
  | some t => if t == Tag.bare then Tag.ofText text else t

def checkAnchor (anchor : Option String) (start : Mark) : ReadNodes Unit := do
  match anchor with
  | none => return
  | some name =>
      let r ← get
      match r.anchors.get? name with
      | none => return
      | some earlier =>
          let first := (r.nodes[earlier]?.map Node.start).getD start
          StateT.lift (stopIn .anchor (.firstOccurrence name) first .secondOccurrence start)

def bind (anchor : Option String) (i : Nat) : ReadNodes Unit :=
  modify fun r =>
    match anchor with
    | none => r
    | some name => { r with anchors := r.anchors.set name i }

/-- A node under its anchor; what it contains is read after it is known by that anchor. -/
def anchored (anchor : Option String) (tag : String) (start : Mark) (content : Content) :
    ReadNodes Nat := do
  checkAnchor anchor start
  let i ← newNode tag start content
  bind anchor i
  return i

def aliased (name : String) (mark : Mark) : ReadNodes Nat := do
  match (← get).anchors.get? name with
  | some i => return i
  | none => StateT.lift (stopAt .anchor (.unknownAlias name) mark)

/-- Where a node stands: in a block or in a flow, and whether it may be a sequence that is not
indented. -/
inductive Place where
  | block
  | blockValue
  | flow
  deriving DecidableEq, Repr

def Place.isBlock : Place → Bool
  | .flow => false
  | _ => true

def endsBlockEntry : TokenKind → Bool
  | .blockEntry => true
  | .blockEnd => true
  | _ => false

def endsIndentless : TokenKind → Bool
  | .blockEntry => true
  | .key => true
  | .value => true
  | .blockEnd => true
  | _ => false

def endsBlockPair : TokenKind → Bool
  | .key => true
  | .value => true
  | .blockEnd => true
  | _ => false

def endsFlowItem : TokenKind → Bool
  | .flowEntry => true
  | .flowSequenceEnd => true
  | _ => false

def endsFlowPair : TokenKind → Bool
  | .flowEntry => true
  | .flowMappingEnd => true
  | _ => false

def comma (isFirst : Bool) (activity : Activity) (since : Mark) (problem : String → Problem) :
    ReadNodes Unit := do
  if isFirst then return
  let t ← peek
  match t.kind with
  | .flowEntry => drop
  | kind => refuse activity since (problem kind.name) t.start

mutual

def node : Nat → Place → ReadNodes Nat
  | 0, _ => throw noEnd
  | steps + 1, place => do
      let t ← peek
      match t.kind with
      | .alias name => do
          drop
          aliased name t.start
      | _ => do
          let p ← properties 2 {}
          let tag ← fullTag p
          let first ← peek
          content steps place p.anchor tag (p.start.getD first.start) first

def content (steps : Nat) (place : Place) (anchor tag : Option String) (start : Mark)
    (first : Token) : ReadNodes Nat :=
  match steps with
  | 0 => throw noEnd
  | steps + 1 => do
      let sequenceTag := collectionTag tag Tag.seq
      let mappingTag := collectionTag tag Tag.map
      match first.kind, place.isBlock with
      | .scalar text style, _ => do
          drop
          anchored anchor (scalarTag tag text style) start (.scalar text style)
      | .flowSequenceStart, _ => do
          drop
          let i ← anchored anchor sequenceTag start (.sequence [])
          setContent i (.sequence (← flowItems steps first.start true []))
          return i
      | .flowMappingStart, _ => do
          drop
          let i ← anchored anchor mappingTag start (.mapping [])
          setContent i (.mapping (← flowPairs steps first.start true []))
          return i
      | .blockSequenceStart, true => do
          drop
          let i ← anchored anchor sequenceTag start (.sequence [])
          setContent i (.sequence (← blockItems steps first.start []))
          return i
      | .blockMappingStart, true => do
          drop
          let i ← anchored anchor mappingTag start (.mapping [])
          setContent i (.mapping (← blockPairs steps first.start []))
          return i
      | kind, isBlock =>
          if place == .blockValue && kind == .blockEntry then do
            let i ← anchored anchor sequenceTag start (.sequence [])
            setContent i (.sequence (← indentlessItems steps []))
            return i
          else if anchor.isSome || tag.isSome then
            anchored anchor (scalarTag tag "" .plain) start (.scalar "" .plain)
          else
            refuse (if isBlock then .blockNode else .flowNode) start (.noContent kind.name)
              first.start

def nodeUnless (steps : Nat) (place : Place) (isLeftOut : TokenKind → Bool) (mark : Mark) :
    ReadNodes Nat :=
  match steps with
  | 0 => throw noEnd
  | steps + 1 => do
      let t ← peek
      if isLeftOut t.kind then emptyNode mark else node steps place

def valueNode (steps : Nat) (place : Place) (isLeftOut : TokenKind → Bool) : ReadNodes Nat :=
  match steps with
  | 0 => throw noEnd
  | steps + 1 => do
      let t ← peek
      match t.kind with
      | .value => do
          drop
          nodeUnless steps place isLeftOut t.stop
      | _ => emptyNode t.start

def blockItems (steps : Nat) (since : Mark) (items : List Nat) : ReadNodes (List Nat) :=
  match steps with
  | 0 => throw noEnd
  | steps + 1 => do
      let t ← peek
      match t.kind with
      | .blockEntry => do
          drop
          let item ← nodeUnless steps .block endsBlockEntry t.stop
          blockItems steps since (items ++ [item])
      | .blockEnd => do
          drop
          return items
      | kind => refuse .blockSequence since (.noBlockEnd kind.name) t.start

def indentlessItems (steps : Nat) (items : List Nat) : ReadNodes (List Nat) :=
  match steps with
  | 0 => throw noEnd
  | steps + 1 => do
      let t ← peek
      match t.kind with
      | .blockEntry => do
          drop
          let item ← nodeUnless steps .block endsIndentless t.stop
          indentlessItems steps (items ++ [item])
      | _ => return items

def blockPairs (steps : Nat) (since : Mark) (pairs : List (Nat × Nat)) :
    ReadNodes (List (Nat × Nat)) :=
  match steps with
  | 0 => throw noEnd
  | steps + 1 => do
      let t ← peek
      match t.kind with
      | .key => do
          drop
          let key ← nodeUnless steps .blockValue endsBlockPair t.stop
          let value ← valueNode steps .blockValue endsBlockPair
          blockPairs steps since (pairs ++ [(key, value)])
      | .blockEnd => do
          drop
          return pairs
      | kind => refuse .blockMapping since (.noBlockEnd kind.name) t.start

/-- A mapping of one pair among the items of a flow sequence. -/
def singlePair (steps : Nat) (t : Token) : ReadNodes Nat :=
  match steps with
  | 0 => throw noEnd
  | steps + 1 => do
      let i ← newNode Tag.map t.start (.mapping [])
      drop
      let key ← nodeUnless steps .flow (fun k => k == .value || endsFlowItem k) t.stop
      let value ← valueNode steps .flow endsFlowItem
      setContent i (.mapping [(key, value)])
      return i

def flowItems (steps : Nat) (since : Mark) (isFirst : Bool) (items : List Nat) :
    ReadNodes (List Nat) :=
  match steps with
  | 0 => throw noEnd
  | steps + 1 => do
      if (← peek).kind == .flowSequenceEnd then
        drop
        return items
      comma isFirst .flowSequence since .noSequenceEnd
      let t ← peek
      match t.kind with
      | .flowSequenceEnd => do
          drop
          return items
      | .key => do
          let item ← singlePair steps t
          flowItems steps since false (items ++ [item])
      | _ => do
          let item ← node steps .flow
          flowItems steps since false (items ++ [item])

def flowPairs (steps : Nat) (since : Mark) (isFirst : Bool) (pairs : List (Nat × Nat)) :
    ReadNodes (List (Nat × Nat)) :=
  match steps with
  | 0 => throw noEnd
  | steps + 1 => do
      if (← peek).kind == .flowMappingEnd then
        drop
        return pairs
      comma isFirst .flowMapping since .noMappingEnd
      let t ← peek
      match t.kind with
      | .flowMappingEnd => do
          drop
          return pairs
      | .key => do
          drop
          let key ← nodeUnless steps .flow (fun k => k == .value || endsFlowPair k) t.stop
          let value ← valueNode steps .flow endsFlowPair
          flowPairs steps since false (pairs ++ [(key, value)])
      | _ => do
          let key ← node steps .flow
          let value ← emptyNode (← peek).start
          flowPairs steps since false (pairs ++ [(key, value)])

end

/-! Documents -/

def isDocumentEdge : TokenKind → Bool
  | .directive _ => true
  | .documentStart => true
  | .documentEnd => true
  | .streamEnd => true
  | _ => false

def startsImplicitly : TokenKind → Bool
  | .documentEnd => true
  | kind => !isDocumentEdge kind

def skipDocumentEnds : Nat → ReadNodes Unit
  | 0 => return
  | steps + 1 => do
      match (← peek).kind with
      | .documentEnd => do
          drop
          skipDocumentEnds steps
      | _ => return

def directives : Nat → Bool → ReadNodes Unit
  | 0, _ => return
  | steps + 1, hasVersion => do
      let t ← peek
      match t.kind with
      | .directive (.version major _) => do
          drop
          if hasVersion then refuseAt .repeatedVersion t.start
          else if major != 1 then refuseAt .otherVersion t.start
          else directives steps true
      | .directive (.tag handle uri) => do
          drop
          if (← get).handles.has handle then refuseAt (.repeatedHandle handle) t.start
          else
            modify fun r => { r with handles := r.handles.set handle uri }
            directives steps hasVersion
      | .directive (.other _) => do
          drop
          directives steps hasVersion
      | _ => return

def withDefaults (handles : Named String) : Named String :=
  defaultHandles.foldl (fun hs d => if hs.has d.1 then hs else hs.set d.1 d.2) handles

/-- Reads what stands before an explicit document, whose own start it tells; none at the end. -/
def documentStart? : ReadNodes (Option Mark) := do
  let steps := (← get).tokens.length + 1
  skipDocumentEnds steps
  let first ← peek
  if first.kind == .streamEnd then return none
  modify fun r => { r with handles := [] }
  directives steps false
  modify fun r => { r with handles := withDefaults r.handles }
  let t ← peek
  if t.kind == .documentStart then
    drop
    return some first.start
  else refuseAt (.noDocumentStart t.kind.name) t.start

/-- Enough steps for the nodes in so many tokens. -/
def stepsFor (count : Nat) : Nat := 4 * count + 8

def root? : ReadNodes (Option Nat) := do
  let steps := stepsFor (← get).tokens.length
  if startsImplicitly (← peek).kind then
    modify fun r => { r with handles := defaultHandles }
    return some (← node steps .block)
  else
    match ← documentStart? with
    | none => return none
    | some _ =>
        let t ← peek
        if isDocumentEdge t.kind then return some (← emptyNode t.start)
        else return some (← node steps .block)

/-- The only document of a text, if it has one at all. -/
def document? : ReadNodes (Option NodeGraph) := do
  match ← root? with
  | none => return none
  | some root => do
      let nodes := (← get).nodes
      if (← peek).kind == .documentEnd then drop
      match ← documentStart? with
      | none => return some ⟨nodes, root⟩
      | some start =>
          let first := (nodes[root]?.map Node.start).getD start
          StateT.lift (stopIn .anchor .singleDocument first .anotherDocument start)

end NodeReader

/-- The document that tokens make up, if they make up one; `ending` tells why there are no more. -/
def NodeGraph.ofTokens? (tokens : List Token) (ending : Option Stop) :
    Except Stop (Option NodeGraph) :=
  (NodeReader.document?.run { tokens, ending }).map (·.1)

end AppSpec.Yaml
