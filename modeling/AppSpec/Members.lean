import AppSpec.Value.Basic

/-!
The members that a component or an integration declares: a mapping declares its keys, a list its
texts and what its mappings declare, and a member is a tree where it declares members of its own.
-/

namespace AppSpec

namespace Members

mutual

def tree : Value → Entries
  | .dict entries => entryTrees entries []
  | .list items => itemTrees items []
  | _ => []

def body : Value → Value
  | .dict entries => .dict (entryTrees entries [])
  | .list items => .dict (itemTrees items [])
  | v => v

def entryTrees : Entries → Entries → Entries
  | [], found => found
  | (key, v) :: rest, found =>
      entryTrees rest (Entries.insert found (.str key.text) (body v))

def itemTrees : List Value → Entries → Entries
  | [], found => found
  | item :: rest, found =>
      itemTrees rest
        (match item with
          | .str s => Entries.insert found (.str s) .null
          | .dict entries =>
              (entryTrees entries []).foldl (fun kept e => Entries.insert kept e.1 e.2) found
          | _ => found)

end

mutual

def hasLongKey : Value → Bool
  | .dict entries => entryHasLongKey entries
  | .list items => itemHasLongKey items
  | _ => false

def entryHasLongKey : Entries → Bool
  | [] => false
  | (key, v) :: rest => key.hasLongInteger || hasLongKey v || entryHasLongKey rest

def itemHasLongKey : List Value → Bool
  | [] => false
  | .dict entries :: rest => entryHasLongKey entries || itemHasLongKey rest
  | _ :: rest => itemHasLongKey rest

end

def walk : Value → List String → Option Value
  | v, [] => some v
  | .dict entries, name :: rest =>
      match Entries.text? entries name with
      | some v => walk v rest
      | none => none
  | _, _ :: _ => none

end Members

end AppSpec
