import AppSpec.Layer.Collection
import AppSpec.Text.Utf8

/-!
The pages of the user interface, and the security layer: roles, permissions and access to fields.
-/

namespace AppSpec

namespace Pages

def loadPage (name : String) (body : Value) (path : String) : Load (Option Page) := do
  match ← bodyEntries? body path ("page '" ++ name ++ "' must be a mapping") with
  | none => return none
  | some entries =>
      Load.checkShape Shape.page entries path
      let description ← Load.textField entries path "description"
      let displays ← Load.deferField entries path "displays" .display .entity
      let actions ← Load.deferField entries path "actions" .action .operation
      let roles ← Load.deferField entries path "roles" .role .role
      return some
        { name, route := (Entries.field entries "route").str?, description, displays, actions,
          roles }

def load (v : Value) (symbols : Symbols) : Except Failure (Declared Page) :=
  let (items, path) := unwrapped v "ui" "pages"
  declareAll .page .page loadPage items path symbols

end Pages

namespace Security

def rolesPath : String := "security.roles"

/-- A role in a list: its name, a mapping from its name to its body, or a mapping with a name. -/
def listedRole (v : Value) : Load CollectionItem :=
  match v with
  | .str s =>
      pure (if s.isEmpty then .ofListItem rolesPath (0, v)
        else .named s (.dict []) (Path.child rolesPath s))
  | .dict [(key, body)] =>
      if key.same (.str "name") || key.same (.str "id") then
        pure (.ofListItem rolesPath (0, v))
      else do
        Load.keysWritable [(key, body)]
        return .ofEntry rolesPath (key, body)
  | v => pure (.ofListItem rolesPath (0, v))

def roleItems (v : Value) : Load (List CollectionItem) :=
  match v with
  | .list items => Load.each listedRole items
  | v => CollectionItem.all v rolesPath

def loadRole (name : String) (body : Value) (path : String) : Load (Option Role) := do
  match ← bodyEntries? body path ("role '" ++ name ++ "' must be a mapping") with
  | none => return none
  | some entries =>
      Load.checkShape Shape.role entries path
      let description ← Load.textField entries path "description"
      return some ⟨name, description, ← Load.deferField entries path "inherits" .inherits .role⟩

def loadPermission (path : String) (p : Nat × Value) : Load (Option Permission) := do
  let path := Path.item path p.1
  match p.2 with
  | .dict entries =>
      Load.checkShape Shape.permission entries path
      match Entries.field entries "action" with
      | .str action =>
          if action.isEmpty then return none
          else
            Load.defer (Path.child path "action") action .action [.operation]
            let rolesKey := if Entries.has entries "roles" then "roles" else "allowed_roles"
            let filterKey := if Entries.has entries "filter" then "filter" else "data_filter"
            let roles ← Load.deferField entries path rolesKey .role .role
            let rateLimit ← Load.textField entries path "rate_limit"
            return some ⟨action, roles, rateLimit, ← Load.textField entries path filterKey⟩
      | _ => return none
  | _ =>
      Load.report (.syntaxError path "a permission must be a mapping")
      return none

def loadFieldAccess (path : String) (p : Nat × Value) : Load (Option FieldAccess) := do
  let path := Path.item path p.1
  match p.2 with
  | .dict entries =>
      let problems ← Load.lift (Shape.fieldAccess.check entries path)
      if problems.isEmpty then
        let entity := (Entries.field entries "entity").text
        let field := (Entries.field entries "field").text
        Load.defer (Path.child path "field") (entity ++ "." ++ field) .field [.entity]
        let readRoles ← Load.deferField entries path "read" .role .role
        return some ⟨entity, field, readRoles, ← Load.deferField entries path "write" .role .role⟩
      else
        Load.reportAll problems
        return none
  | _ =>
      Load.report (.syntaxError path "a field access rule must be a mapping")
      return none

def loadListed {α : Type} (load : String → Nat × Value → Load (Option α)) (v : Value)
    (path problem : String) : Load (List α) :=
  match v with
  | .null => pure []
  | .list items => Load.eachSome (load path) (Load.indexed items)
  | _ => do
      Load.report (.syntaxError path problem)
      return []

/-- The name that a key is: a text, or bytes that write one. -/
def keyName? : Scalar → Option String
  | .str name => some name
  | .bytes bs =>
      match Text.Utf8.decode (bs.map UInt8.toNat) with
      | .ok cs => some (String.ofList cs)
      | .error _ => none
  | _ => none

def namedSetting (e : Scalar × Value) : Except Failure (String × Value) :=
  match keyName? e.1 with
  | some name => .ok (name, e.2)
  | none => .error .wrongMember

/-- The settings of a mapping all of whose keys are names. -/
def namedSettings (entries : Entries) : Except Failure (Named Value) :=
  (entries.mapM namedSetting).map (Named.setAll [])

def loadPolicy (entries : Entries) (roles : Named Role) : Load SecurityPolicy := do
  let permissions ← loadListed loadPermission (Entries.field entries "permissions")
    "security.permissions" "permissions must be a list"
  let fieldAccess ← loadListed loadFieldAccess (Entries.field entries "field_access")
    "security.field_access" "field_access must be a list"
  let authentication ←
    match Entries.field entries "authentication" with
    | .dict settings => Load.lift (namedSettings settings)
    | _ => pure []
  return { roles, permissions, fieldAccess, authentication }

def load (v : Value) (symbols : Symbols) :
    Except Failure (Option SecurityPolicy × LayerNotes × Symbols) := do
  let (entries?, notes) ← Load.mapping? v "security" "security section"
  match entries? with
  | none => return (none, .ofNotes notes, symbols)
  | some entries =>
      let (items, notes) ← roleItems (Entries.field entries "roles")
      let declared ← Declared.steps .role .role loadRole items
        ((Declared.start symbols).note notes)
      let (policy, notes) ← loadPolicy entries declared.items
      return (some policy, .ofNotes (declared.notes ++ notes) declared.paths, declared.symbols)

end Security

end AppSpec
