import AppSpec.Diagnostic
import AppSpec.Failure
import AppSpec.Namespace
import AppSpec.TypeExpr.Basic

/-!
The symbol table: all declarations of a document in the order in which they were accepted. The first
declaration of a name stays; a frozen table takes no more.
-/

namespace AppSpec

structure Declaration (δ : Type) where
  space : Namespace
  name : String
  path : String
  /-- Nothing where a name is declared by its use alone. -/
  definition : Option δ

structure SymbolTable (δ : Type) where
  declarations : List (Declaration δ)
  frozen : Bool

namespace SymbolTable

variable {δ : Type}

def empty : SymbolTable δ := ⟨[], false⟩

def freeze (t : SymbolTable δ) : SymbolTable δ := { t with frozen := true }

def find? (t : SymbolTable δ) (ns : Namespace) (name : String) : Option (Declaration δ) :=
  t.declarations.find? fun d => d.space == ns && d.name == name

def has (t : SymbolTable δ) (ns : Namespace) (name : String) : Bool := (t.find? ns name).isSome

def lookup? (t : SymbolTable δ) (ns : Namespace) (name : String) : Option δ :=
  (t.find? ns name).bind (·.definition)

def path? (t : SymbolTable δ) (ns : Namespace) (name : String) : Option String :=
  (t.find? ns name).map (·.path)

def names (t : SymbolTable δ) (ns : Namespace) : List String :=
  (t.declarations.filter fun d => d.space == ns).map (·.name)

def namesIn (t : SymbolTable δ) (spaces : List Namespace) : List String := spaces.flatMap t.names

def size (t : SymbolTable δ) : Nat := t.declarations.length

inductive Clash where
  | duplicate (first : String)
  | rival (other : Namespace) (first : String)
  | primitive
  deriving DecidableEq, Repr

namespace Clash

def message (ns : Namespace) (name : String) : Clash → String
  | .duplicate first =>
      "duplicate " ++ ns.noun ++ " '" ++ name ++ "' (first defined at '" ++ first ++ "')"
  | .rival other first =>
      "'" ++ name ++ "' is declared as both " ++ other.noun ++ " ('" ++ first ++ "') and " ++ ns.noun
  | .primitive =>
      ns.noun ++ " '" ++ name ++ "' clashes with the built-in primitive type '" ++ name.toLower ++
        "'"

def suggestion : Clash → String
  | .duplicate _ => "Rename or remove one of the definitions"
  | .rival _ _ => "Use distinct names; references cannot tell these declarations apart"
  | .primitive => "Rename the declaration"

def diagnostic (ns : Namespace) (name path : String) (c : Clash) : Diagnostic :=
  .consistencyError path (c.message ns name) (some c.suggestion)

end Clash

def clash? (t : SymbolTable δ) (ns : Namespace) (name : String) : Option Clash :=
  match t.find? ns name with
  | some d => some (.duplicate d.path)
  | none =>
      match ns.rival?.bind fun other => t.find? other name with
      | some d => some (.rival d.space d.path)
      | none =>
          if ns.isTypeSpace && TypeExpr.isPrimitive name then some .primitive else none

/-- Declares a name, or says why it is turned down and leaves the table as it is. -/
def define (t : SymbolTable δ) (ns : Namespace) (name : String) (definition : δ) (path : String) :
    Except Failure (Option Diagnostic × SymbolTable δ) :=
  if t.frozen then .error .frozenTable
  else
    match t.clash? ns name with
    | some c => .ok (some (c.diagnostic ns name path), t)
    | none =>
        .ok (none, { t with declarations := t.declarations ++ [⟨ns, name, path, some definition⟩] })

def declareByUse (t : SymbolTable δ) (ns : Namespace) (name path : String) :
    Except Failure (SymbolTable δ) :=
  if t.frozen then .error .frozenTable
  else if t.has ns name then .ok t
  else .ok { t with declarations := t.declarations ++ [⟨ns, name, path, none⟩] }

theorem find?_some {t : SymbolTable δ} {ns : Namespace} {name : String} {d : Declaration δ}
    (h : t.find? ns name = some d) : d ∈ t.declarations ∧ d.space = ns ∧ d.name = name := by
  refine ⟨List.mem_of_find?_eq_some h, ?_⟩
  have := List.find?_some h
  simpa using this

end SymbolTable

end AppSpec
