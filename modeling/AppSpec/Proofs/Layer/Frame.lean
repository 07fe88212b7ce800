import AppSpec.Proofs.Layer.Layers
import AppSpec.Proofs.SymbolTable.Alike

/-!
What loading a layer does to the symbol table: only the two operations of the table are used, and
they declare only in the layer's own namespaces, apart from errors, and each of them what its name
says. Whatever both of them keep, a layer keeps. So declarations are only ever added at the end of
the table, none of them in a namespace of another layer, no name is declared in two namespaces that
share their names, and a name of a namespace stands for a definition of its kind.
-/

namespace AppSpec

namespace Definition

/-- The namespace in which a definition is declared. -/
def space : Definition → Namespace
  | .entity _ => .entity
  | .customType _ => .customType
  | .operation _ => .operation
  | .component _ => .component
  | .role _ => .role
  | .integration _ => .integration
  | .resource _ => .resource
  | .workflow _ => .workflow
  | .page _ => .page

end Definition

namespace SymbolTable

variable {δ : Type} {space : δ → Namespace} {spaces spaces' : List Namespace}
  {P : SymbolTable δ → Prop} {t u w : SymbolTable δ} {ns other : Namespace} {name : String}

/-- The property is kept by uses of errors and by declarations in the namespaces, each of them of
what belongs in its namespace. -/
structure Invariant (space : δ → Namespace) (spaces : List Namespace) (P : SymbolTable δ → Prop) :
    Prop where
  use : ∀ {t u name path}, P t → t.declareByUse .error name path = .ok u → P u
  define : ∀ {t u ns name definition path d}, ns ∈ spaces → space definition = ns → P t →
    t.define ns name definition path = .ok (d, u) → P u

/-! ### Tables that only grow -/

/-- All that is new stands at the end of the table, in one of the namespaces or as an error. -/
def Extends (spaces : List Namespace) (t u : SymbolTable δ) : Prop :=
  ∃ more, u = ⟨t.declarations ++ more, t.frozen⟩ ∧ ∀ d ∈ more, d.space = .error ∨ d.space ∈ spaces

namespace Extends

theorem refl (spaces : List Namespace) (t : SymbolTable δ) : Extends spaces t t :=
  ⟨[], by rw [List.append_nil], nofun⟩

theorem trans (h : Extends spaces t u) (h' : Extends spaces u w) : Extends spaces t w := by
  obtain ⟨more, rfl, hmore⟩ := h
  obtain ⟨more', rfl, hmore'⟩ := h'
  refine ⟨more ++ more', by rw [List.append_assoc], fun d hd => ?_⟩
  exact (List.mem_append.mp hd).elim (hmore d) (hmore' d)

theorem mono (h : Extends spaces t u) (hsub : spaces ⊆ spaces') : Extends spaces' t u := by
  obtain ⟨more, rfl, hmore⟩ := h
  exact ⟨more, rfl, fun d hd => (hmore d hd).imp_right fun h => hsub h⟩

theorem append (h : Extends spaces t u) (h' : Extends spaces' u w) :
    Extends (spaces ++ spaces') t w :=
  (h.mono (List.subset_append_left _ _)).trans (h'.mono (List.subset_append_right _ _))

theorem frozen (h : Extends spaces t u) : u.frozen = t.frozen := by
  obtain ⟨more, rfl, -⟩ := h
  rfl

theorem find?_eq (h : Extends spaces t u) (herror : ns ≠ .error) (hns : ns ∉ spaces)
    (name : String) : u.find? ns name = t.find? ns name := by
  obtain ⟨more, rfl, hmore⟩ := h
  have hnone : find? ⟨more, t.frozen⟩ ns name = none :=
    find?_eq_none_of_space (fun d hd heq => (hmore d hd).elim (heq ▸ herror) (heq ▸ hns)) _ _
  rw [find?_append, hnone, Option.or_none]

theorem find?_of_some (h : Extends spaces t u) {d : Declaration δ}
    (hd : t.find? ns name = some d) : u.find? ns name = some d := by
  obtain ⟨more, rfl, -⟩ := h
  rw [find?_append, hd, Option.some_or]

theorem has_of_has (h : Extends spaces t u) (hhas : t.has ns name = true) :
    u.has ns name = true := by
  obtain ⟨d, hd⟩ := Option.isSome_iff_exists.mp hhas
  exact Option.isSome_iff_exists.mpr ⟨d, h.find?_of_some hd⟩

end Extends

theorem extends_define {definition : δ} {path : String} {d : Option Diagnostic}
    (h : t.define ns name definition path = .ok (d, u)) : Extends [ns] t u := by
  cases d with
  | some d => exact define_rejected h ▸ .refl _ _
  | none =>
      rw [define_accepted h]
      exact ⟨_, rfl, fun d hd => .inr (by simp [List.mem_singleton.mp hd])⟩

theorem extends_declareByUse {path : String} (h : t.declareByUse .error name path = .ok u)
    (spaces : List Namespace) : Extends spaces t u := by
  obtain rfl | rfl := declareByUse_eq_ok h
  · exact .refl _ _
  · exact ⟨_, rfl, fun d hd => .inl (by simp [List.mem_singleton.mp hd])⟩

theorem invariant_extends (t : SymbolTable δ) : Invariant space spaces (Extends spaces t) where
  use h hu := h.trans (extends_declareByUse hu spaces)
  define hns _ h hu := h.trans ((extends_define hu).mono (by simpa using hns))

/-! ### Names that are declared once -/

/-- No name is declared in two namespaces that share their names. -/
def Exclusive (t : SymbolTable δ) : Prop :=
  ∀ ns other name, ns.rival? = some other → t.has ns name = true → t.has other name = false

theorem exclusive_empty : Exclusive (empty : SymbolTable δ) := fun _ _ _ _ _ => rfl

theorem has_rival_of_define {definition : δ} {path : String}
    (h : t.define ns name definition path = .ok (none, u)) (hrival : ns.rival? = some other) :
    t.has other name = false := by
  have hclash := clash?_of_define h
  rw [clash?] at hclash
  split at hclash
  · cases hclash
  · rw [hrival, Option.bind_some] at hclash
    split at hclash
    · cases hclash
    · next hnone => rw [has, hnone]; rfl

theorem invariant_exclusive : Invariant space spaces (Exclusive (δ := δ)) where
  use {t u _ _} h hu ns other name hrival hhas := by
    have hne : ns ≠ .error := by rintro rfl; cases hrival
    have hne' : other ≠ .error := by rintro rfl; revert hrival; cases ns <;> nofun
    have hother := h ns other name hrival ((has_declareByUse hu hhas).resolve_right hne)
    rw [Bool.eq_false_iff] at hother ⊢
    exact fun hhas' => hother ((has_declareByUse hu hhas').resolve_right hne')
  define {t u target key definition path d} _ _ h hu ns other name hrival hhas := by
    cases d with
    | some d => exact define_rejected hu ▸ h ns other name hrival (define_rejected hu ▸ hhas)
    | none =>
        rw [Bool.eq_false_iff]
        intro hhas'
        rcases (has_define hu).mp hhas with hhas | ⟨rfl, rfl⟩
        · rcases (has_define hu).mp hhas' with hhas' | ⟨rfl, rfl⟩
          · exact absurd hhas' (Bool.eq_false_iff.mp (h ns other name hrival hhas))
          · exact absurd hhas (Bool.eq_false_iff.mp
              (has_rival_of_define hu (Namespace.rival?_symm hrival)))
        · rcases (has_define hu).mp hhas' with hhas' | ⟨rfl, -⟩
          · exact absurd hhas' (Bool.eq_false_iff.mp (has_rival_of_define hu hrival))
          · revert hrival
            cases other <;> nofun

/-! ### Names that stand for what they say -/

/-- Every name but those of errors has a definition, one that belongs in its namespace. -/
def Defined (space : δ → Namespace) (t : SymbolTable δ) : Prop :=
  ∀ d ∈ t.declarations, d.space ≠ .error → ∃ definition, d.definition = some definition ∧
    space definition = d.space

theorem defined_empty : Defined space (empty : SymbolTable δ) := nofun

theorem Defined.lookup? (h : Defined space t) (herror : ns ≠ .error)
    (hhas : t.has ns name = true) :
    ∃ definition, t.lookup? ns name = some definition ∧ space definition = ns := by
  obtain ⟨d, hd⟩ := Option.isSome_iff_exists.mp hhas
  obtain ⟨hmem, rfl, -⟩ := find?_some hd
  obtain ⟨definition, hdefinition, hspace⟩ := h d hmem herror
  exact ⟨definition, by rw [SymbolTable.lookup?, hd]; exact hdefinition, hspace⟩

theorem invariant_defined : Invariant space spaces (Defined space) where
  use {t u name path} h hu d hd herror := by
    obtain ⟨more, rfl, hmore⟩ := extends_declareByUse hu []
    refine (List.mem_append.mp hd).elim (h d · herror) fun hd => ?_
    exact absurd (hmore d hd) (by simpa using herror)
  define {t u ns name definition path d} _ hspace h hu := by
    cases d with
    | some d => exact define_rejected hu ▸ h
    | none =>
        rw [define_accepted hu]
        intro d hd herror
        rcases List.mem_append.mp hd with hd | hd
        · exact h d hd herror
        · cases List.mem_singleton.mp hd
          exact ⟨definition, rfl, hspace⟩

end SymbolTable

open SymbolTable (Extends Invariant)

/-! ### Collections -/

section Collections

variable {α : Type} {ns : Namespace} {define : α → Definition}
  {load : String → Value → String → Load (Option α)} {space : Definition → Namespace}
  {spaces : List Namespace} {P : Symbols → Prop} {t u : Symbols}

namespace SymbolTable.Invariant

open Declared

variable {s s' : Declared α}

theorem useErrors (h : Invariant space spaces P) {uses : List (String × String)} (ht : P t)
    (hu : Declared.useErrors t uses = .ok u) : P u := by
  induction uses generalizing t with
  | nil =>
      cases hu
      exact ht
  | cons use uses ih =>
      obtain ⟨between, huse, hu⟩ := bind_eq_ok.mp hu
      exact ih (h.use ht huse) hu

theorem step (h : Invariant space spaces P) (hns : ns ∈ spaces)
    (hspace : ∀ a, space (define a) = ns) {item : CollectionItem} (hs : P s.symbols)
    (hs' : Declared.step ns define load item s = .ok s') : P s'.symbols := by
  cases stepped hs' with
  | malformed d => exact hs
  | empty _ huses => exact h.useErrors hs huses
  | taken _ huses hdefine => exact h.define hns (hspace _) (h.useErrors hs huses) hdefine
  | kept _ huses hdefine => exact h.define hns (hspace _) (h.useErrors hs huses) hdefine

theorem steps (h : Invariant space spaces P) (hns : ns ∈ spaces)
    (hspace : ∀ a, space (define a) = ns) {items : List CollectionItem} (hs : P s.symbols)
    (hs' : Declared.steps ns define load items s = .ok s') : P s'.symbols :=
  steps_keep (P := fun s => P s.symbols) (fun _ _ _ _ hs hs' => h.step hns hspace hs hs') hs hs'

theorem declareAll (h : Invariant space spaces P) (hns : ns ∈ spaces)
    (hspace : ∀ a, space (define a) = ns) {v : Value} {path : String} (ht : P t)
    (hs' : AppSpec.declareAll ns define load v path t = .ok s') : P s'.symbols := by
  obtain ⟨⟨items, notes⟩, -, hs'⟩ := bind_eq_ok.mp hs'
  exact h.steps (s := (start t).note notes) hns hspace ht hs'

end SymbolTable.Invariant

/-- A collection only adds to its own namespace, whatever it declares there. -/
theorem invariant_extends_own (ns : Namespace) (t : Symbols) :
    Invariant (fun _ : Definition => ns) [ns] (Extends [ns] t) := SymbolTable.invariant_extends t

theorem extends_steps {items : List CollectionItem} {s s' : Declared α}
    (h : Declared.steps ns define load items s = .ok s') : Extends [ns] s.symbols s'.symbols :=
  (invariant_extends_own ns _).steps (List.mem_singleton_self ns) (fun _ => rfl) (.refl _ _) h

theorem extends_declareAll {v : Value} {path : String} {s : Declared α}
    (h : declareAll ns define load v path t = .ok s) : Extends [ns] t s.symbols :=
  (invariant_extends_own ns t).declareAll (List.mem_singleton_self ns) (fun _ => rfl) (.refl _ t) h

end Collections

/-! ### Layers -/

namespace Layer

variable {layer : Layer} {limit : Int} {v : Value} {P : Symbols → Prop} {t u : Symbols}
  {result : LayerResult}

theorem keeps_collected {α : Type} {data : Named α → LayerData} {d : Except Failure (Declared α)}
    (hd : ∀ s, d = .ok s → P s.symbols) (h : collected layer data d = .ok (result, u)) : P u := by
  obtain ⟨s, hs, h⟩ := bind_eq_ok.mp h
  cases h
  exact hd s hs

theorem keeps_domain (hP : Invariant Definition.space Layer.domain.declares P) (ht : P t)
    (h : loadPresent limit .domain v t = .ok (result, u)) : P u := by
  obtain ⟨⟨loaded, notes, symbols⟩, hloaded, h⟩ := bind_eq_ok.mp h
  cases h
  rw [Domain.load] at hloaded
  split at hloaded
  · cases hloaded
    exact ht
  · obtain ⟨types, htypes, hloaded⟩ := bind_eq_ok.mp hloaded
    obtain ⟨entities, hentities, hloaded⟩ := bind_eq_ok.mp hloaded
    cases hloaded
    exact hP.declareAll (by decide) (by intro; rfl)
      (hP.declareAll (by decide) (by intro; rfl) ht htypes) hentities

theorem keeps_security (hP : Invariant Definition.space Layer.security.declares P) (ht : P t)
    (h : loadPresent limit .security v t = .ok (result, u)) : P u := by
  obtain ⟨⟨loaded, notes, symbols⟩, hloaded, h⟩ := bind_eq_ok.mp h
  cases h
  obtain ⟨⟨entries?, first⟩, -, hloaded⟩ := bind_eq_ok.mp hloaded
  cases entries? with
  | none =>
      cases hloaded
      exact ht
  | some entries =>
      obtain ⟨⟨items, more⟩, -, hloaded⟩ := bind_eq_ok.mp hloaded
      obtain ⟨roles, hroles, hloaded⟩ := bind_eq_ok.mp hloaded
      obtain ⟨⟨policy, last⟩, -, hloaded⟩ := bind_eq_ok.mp hloaded
      cases hloaded
      exact hP.steps (s := (Declared.start t).note more) (by decide) (by intro; rfl) ht hroles

theorem keeps_load (hP : Invariant Definition.space layer.declares P) (ht : P t)
    (h : load limit layer v t = .ok (result, u)) : P u := by
  rw [load] at h
  split at h
  · cases h
    exact ht
  · cases layer with
    | project =>
        obtain ⟨⟨info, notes⟩, -, h⟩ := bind_eq_ok.mp h
        cases h
        exact ht
    | domain => exact keeps_domain hP ht h
    | security => exact keeps_security hP ht h
    | mapping =>
        obtain ⟨⟨loaded, notes⟩, -, h⟩ := bind_eq_ok.mp h
        cases loaded <;> cases h <;> exact ht
    | _ => exact keeps_collected (fun _ => hP.declareAll (by decide) (by intro; rfl) ht) h

theorem extends_load (h : load limit layer v t = .ok (result, u)) : Extends layer.declares t u :=
  keeps_load (SymbolTable.invariant_extends t) (.refl _ t) h

end Layer

end AppSpec
