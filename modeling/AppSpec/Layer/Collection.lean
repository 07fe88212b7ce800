import AppSpec.Layer.Load

/-!
Collections of named items, in mapping form or as a list of mappings with a name, and how their
items are declared: an item is kept where the symbol table accepts its name.
-/

namespace AppSpec

/-- An item of a collection, or what is wrong with a part of it that has no name. -/
inductive CollectionItem where
  | named (name : String) (body : Value) (path : String)
  | malformed (d : Diagnostic)

namespace CollectionItem

def unnamed (path : String) (index : Nat) : CollectionItem :=
  .malformed (.syntaxError (Path.item path index)
    "list items must be mappings with a 'name' or 'id'")

def nameKey? (entries : Entries) : Option String :=
  ["name", "id"].find? fun key => Entries.has entries key

def ofListItem (path : String) (p : Nat × Value) : CollectionItem :=
  match p.2 with
  | .dict entries =>
      match nameKey? entries with
      | none => unnamed path p.1
      | some key =>
          match Entries.field entries key with
          | .str name =>
              if name.isEmpty then unnamed path p.1
              else .named name (.dict (Entries.without entries [key])) (Path.child path name)
          | _ => unnamed path p.1
  | _ => unnamed path p.1

def ofEntry (path : String) (e : Scalar × Value) : CollectionItem :=
  .named e.1.text e.2 (Path.child path e.1.text)

def all (v : Value) (path : String) : Load (List CollectionItem) :=
  match v with
  | .null => pure []
  | .dict entries => do
      Load.keysWritable entries
      return entries.map (ofEntry path)
  | .list items => pure ((Load.indexed items).map (ofListItem path))
  | v =>
      pure [.malformed (.syntaxError path ("expected a mapping or a list, got " ++ v.kindName))]

end CollectionItem

/-- A section that may wrap its collection under a key, and the path of the collection. -/
def unwrapped (v : Value) (path key : String) : Value × String :=
  match v with
  | .dict entries =>
      match Entries.text? entries key with
      | some inner => (inner, Path.child path key)
      | none => (v, path)
  | v => (v, path)

/-- The items accepted so far, with their paths, the notes on all items, and the symbol table. -/
structure Declared (α : Type) where
  items : Named α
  paths : Named String
  notes : Notes
  symbols : Symbols

namespace Declared

variable {α : Type}

def start (symbols : Symbols) : Declared α := ⟨[], [], {}, symbols⟩

def note (s : Declared α) (more : Notes) : Declared α := { s with notes := s.notes ++ more }

def useErrors (symbols : Symbols) : List (String × String) → Except Failure Symbols
  | [] => .ok symbols
  | (name, path) :: rest => do useErrors (← symbols.declareByUse .error name path) rest

/-- Declares a loaded item; the first of a name stays. -/
def declare (ns : Namespace) (define : α → Definition) (name path : String) (a : α)
    (s : Declared α) : Except Failure (Declared α) := do
  match ← s.symbols.define ns name (define a) path with
  | (some d, symbols) => return { s.note { diagnostics := [d] } with symbols }
  | (none, symbols) =>
      return { s with items := s.items.set name a, paths := s.paths.set name path, symbols }

def step (ns : Namespace) (define : α → Definition)
    (load : String → Value → String → Load (Option α)) (item : CollectionItem)
    (s : Declared α) : Except Failure (Declared α) :=
  match item with
  | .malformed d => .ok (s.note { diagnostics := [d] })
  | .named name body path => do
      let (loaded, notes) ← load name body path
      let symbols ← useErrors s.symbols notes.errorUses
      let s := { s.note notes with symbols }
      match loaded with
      | none => return s
      | some a => declare ns define name path a s

def steps (ns : Namespace) (define : α → Definition)
    (load : String → Value → String → Load (Option α)) :
    List CollectionItem → Declared α → Except Failure (Declared α)
  | [], s => .ok s
  | item :: items, s => do steps ns define load items (← step ns define load item s)

end Declared

def declareAll {α : Type} (ns : Namespace) (define : α → Definition)
    (load : String → Value → String → Load (Option α)) (v : Value) (path : String)
    (symbols : Symbols) : Except Failure (Declared α) := do
  let (items, notes) ← CollectionItem.all v path
  Declared.steps ns define load items ((Declared.start symbols).note notes)

/-- The entries of an item's body; an absent body is an empty one. -/
def bodyEntries? (body : Value) (path problem : String) : Load (Option Entries) :=
  match body with
  | .null => pure (some [])
  | .dict entries => pure (some entries)
  | _ => do
      Load.report (.syntaxError path problem)
      return none

/-- What loading one layer leaves behind, next to what it declares. -/
structure LayerNotes where
  diagnostics : List Diagnostic := []
  references : List DeferredReference := []
  paths : Named String := []

namespace LayerNotes

def ofNotes (notes : Notes) (paths : Named String := []) : LayerNotes :=
  ⟨notes.diagnostics, notes.references, paths⟩

end LayerNotes

end AppSpec
