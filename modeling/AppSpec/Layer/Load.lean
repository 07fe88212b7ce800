import AppSpec.Model.Document
import AppSpec.Shape
import AppSpec.TypeExpr.Parser

/-!
Loading raw values: what comes out of one, together with the diagnostics, the references and the
first uses of error names that come up on the way.
-/

namespace AppSpec

structure Notes where
  diagnostics : List Diagnostic := []
  references : List DeferredReference := []
  /-- Error names in the order of their use, each with the path that uses it. -/
  errorUses : List (String × String) := []

namespace Notes

def append (a b : Notes) : Notes :=
  ⟨a.diagnostics ++ b.diagnostics, a.references ++ b.references, a.errorUses ++ b.errorUses⟩

instance : Append Notes := ⟨append⟩

theorem append_assoc (a b c : Notes) : a ++ b ++ c = a ++ (b ++ c) := by
  show append (append a b) c = append a (append b c)
  simp [append, List.append_assoc]

end Notes

def Load (α : Type) : Type := Except Failure (α × Notes)

namespace Load

variable {α β : Type}

def value (a : α) : Load α := .ok (a, {})

def andThen (x : Load α) (f : α → Load β) : Load β :=
  match x with
  | .error e => .error e
  | .ok (a, notes) =>
      match f a with
      | .error e => .error e
      | .ok (b, more) => .ok (b, notes ++ more)

instance : Monad Load where
  pure := value
  bind := andThen

theorem pure_eq (a : α) : (pure a : Load α) = .ok (a, {}) := rfl

def fail (f : Failure) : Load α := .error f

def lift (x : Except Failure α) : Load α :=
  match x with
  | .error e => .error e
  | .ok a => .ok (a, {})

def reportAll (ds : List Diagnostic) : Load Unit := .ok ((), { diagnostics := ds })

def report (d : Diagnostic) : Load Unit := reportAll [d]

def defer (path name : String) (kind : ReferenceKind) (spaces : List Namespace) : Load Unit :=
  .ok ((), { references := [⟨path, name, spaces, kind⟩] })

def useError (name path : String) : Load Unit := .ok ((), { errorUses := [(name, path)] })

/-- One after the other, keeping what comes out. -/
def each (f : α → Load β) : List α → Load (List β)
  | [] => pure []
  | a :: as => do
      let b ← f a
      return b :: (← each f as)

def eachSome (f : α → Load (Option β)) (as : List α) : Load (List β) := do
  return (← each f as).filterMap id

def indexed (as : List α) : List (Nat × α) := as.zipIdx.map fun p => (p.2, p.1)

def keysWritable (entries : Entries) : Load Unit :=
  if entries.any fun e => e.1.hasLongInteger then fail .integerTooLong else pure ()

def shown (v : Value) : Load String :=
  if v.hasLongInteger then fail .integerTooLong else pure v.shown

def checkShape (shape : Shape) (entries : Entries) (path : String) : Load Unit := do
  reportAll (← lift (shape.check entries path))

def mapping? (v : Value) (path what : String) : Load (Option Entries) :=
  match v with
  | .dict entries => pure (some entries)
  | v => do
      report (.syntaxError path (what ++ " must be a mapping, got " ++ v.kindName))
      return none

def text (v : Value) (path : String) : Load (Option String) :=
  match v with
  | .null => pure none
  | .bool b => pure (some (if b then "true" else "false"))
  | .str s => pure (some s)
  | .int n => return some (← shown (.int n))
  | .float x => pure (some (Decimal.floatText x))
  | v => do
      report (.schemaError path ("expected a text value, got " ++ v.kindName))
      return none

def texts (v : Value) (path : String) : Load (List String) :=
  match v with
  | .null => pure []
  | .list items => eachSome (fun p => text p.2 (Path.item path p.1)) (indexed items)
  | v => return (← text v path).toList

def nameItem (path : String) (p : Nat × Value) : Load (Option (String × String)) := do
  let path := Path.item path p.1
  let bad : Load (Option (String × String)) := do
    report (.schemaError path ("expected a name, got " ++ (← shown p.2)))
    return none
  match p.2 with
  | .str s => if s.isEmpty then bad else return some (s, path)
  | _ => bad

/-- The names that a text or a list of texts gives, each with its own path. -/
def names (v : Value) (path : String) : Load (List (String × String)) :=
  match v with
  | .null => pure []
  | .str s => pure (if s.isEmpty then [] else [(s, path)])
  | .list items => eachSome (nameItem path) (indexed items)
  | v => do
      report (.schemaError path ("expected a name or a list of names, got " ++ v.kindName))
      return []

def deferNames (v : Value) (path : String) (kind : ReferenceKind) (spaces : List Namespace) :
    Load (List String) := do
  each (fun p => do
    defer p.2 p.1 kind spaces
    return p.1) (← names v path)

def deferField (entries : Entries) (path field : String) (kind : ReferenceKind)
    (space : Namespace) : Load (List String) :=
  deferNames (Entries.field entries field) (Path.child path field) kind [space]

def textField (entries : Entries) (path field : String) : Load (Option String) :=
  text (Entries.field entries field) (Path.child path field)

/-- The other entries under the texts of their keys. -/
def extraFields (entries : Entries) (known : List String) : Load (Named Value) := do
  let rest := Entries.without entries known
  keysWritable rest
  return Named.setAll [] (rest.map fun e => (e.1.text, e.2))

end Load

namespace TypeExpr

mutual

/-- The nodes of a type, each before the nodes inside it. -/
def nodes : TypeExpr → List TypeExpr
  | .array element cs => .array element cs :: element.nodes
  | .map key value cs => .map key value cs :: (key.nodes ++ value.nodes)
  | .optional inner cs => .optional inner cs :: inner.nodes
  | .object fields cs => .object fields cs :: fieldNodes fields
  | t => [t]

def fieldNodes : List (String × TypeExpr) → List TypeExpr
  | [] => []
  | (_, t) :: fields => t.nodes ++ fieldNodes fields

end

def nameReference (path : String) : NameUse × String → DeferredReference
  | (.reference, name) => ⟨path, name, [.entity], .relation⟩
  | (.custom, name) => ⟨path, name, [.entity, .customType], .type⟩

/-- The entity that a node's relation constraint points to. -/
def relationTarget? (t : TypeExpr) : Option String :=
  if t.constraints.has "relation" then
    match t.constraints.get? "target" with
    | some (.str target) => some target
    | _ => none
  else none

def references (t : TypeExpr) (path : String) : List DeferredReference :=
  t.names.map (nameReference path) ++
    (t.nodes.filterMap relationTarget?).map fun target => ⟨path, target, [.entity], .relation⟩

end TypeExpr

namespace Load

def typeText (limit : Int) (text path : String) : Load (Option TypeExpr) := do
  let reading ← lift (TypeExpr.parse text path limit)
  reportAll reading.diagnostics
  match reading.expression with
  | none => return none
  | some t => do
      (.ok ((), { references := t.references path }) : Load Unit)
      return some t

mutual

/-- A type written as text, or in place as a mapping from field names to types. -/
def typeOf (limit : Int) (v : Value) (path : String) : Load (Option TypeExpr × Option String) :=
  match v with
  | .str s => do return (← typeText limit s path, some s)
  | .dict entries => do
      keysWritable entries
      return (some (.object (Named.setAll [] (← fieldTypes limit entries path)) []), none)
  | v => do
      report (.schemaError path ("expected a type string, got " ++ v.kindName)
        (some "Write the type as a string, e.g. 'string' or 'optional[reference[User]]'"))
      return (none, none)

def fieldTypes (limit : Int) (entries : Entries) (path : String) :
    Load (List (String × TypeExpr)) :=
  match entries with
  | [] => pure []
  | (key, v) :: rest => do
      let (t, _) ← typeOf limit v (Path.child path key.text)
      let more ← fieldTypes limit rest path
      return match t with
        | some t => (key.text, t) :: more
        | none => more

end

end Load

end AppSpec
