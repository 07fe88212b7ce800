import AppSpec.Proofs.Layer.CollectionBehaves
import AppSpec.Proofs.Sorting
import AppSpec.Proofs.SymbolTable.Alike

/-!
What one item contributes to its collection. It depends on the symbol table by nothing but the clash
of its name, so items of different names contribute the same in any order, and what is left is the
same but for the order of the items.
-/

namespace AppSpec

structure AcceptedItem (α : Type) where
  name : String
  path : String
  item : α

/-- What an item leaves behind: its notes, and the item itself where the symbol table accepts it. -/
structure Contribution (α : Type) where
  notes : Notes
  accepted : Option (AcceptedItem α)

namespace Contribution

variable {α : Type}

def ofItem (ns : Namespace) (load : String → Value → String → Load (Option α)) (t : Symbols) :
    CollectionItem → Except Failure (Contribution α)
  | .malformed d => .ok ⟨{ diagnostics := [d] }, none⟩
  | .named name body path => do
      let (loaded, notes) ← load name body path
      match loaded with
      | none => return ⟨notes, none⟩
      | some a =>
          match t.clash? ns name with
          | some c => return ⟨notes ++ { diagnostics := [c.diagnostic ns name path] }, none⟩
          | none => return ⟨notes, some ⟨name, path, a⟩⟩

/-- The ways in which an item comes to its contribution. -/
inductive Contributes (ns : Namespace) (load : String → Value → String → Load (Option α))
    (t : Symbols) : CollectionItem → Contribution α → Prop
  | malformed (d : Diagnostic) : Contributes ns load t (.malformed d) ⟨{ diagnostics := [d] }, none⟩
  | empty {name body path notes} (h : load name body path = .ok (none, notes)) :
      Contributes ns load t (.named name body path) ⟨notes, none⟩
  | clash {name body path a notes c} (h : load name body path = .ok (some a, notes))
      (hclash : t.clash? ns name = some c) :
      Contributes ns load t (.named name body path)
        ⟨notes ++ { diagnostics := [c.diagnostic ns name path] }, none⟩
  | accepted {name body path a notes} (h : load name body path = .ok (some a, notes))
      (hclash : t.clash? ns name = none) :
      Contributes ns load t (.named name body path) ⟨notes, some ⟨name, path, a⟩⟩

theorem contributes {ns : Namespace} {load : String → Value → String → Load (Option α)} {t : Symbols}
    {item : CollectionItem} {c : Contribution α} (h : ofItem ns load t item = .ok c) :
    Contributes ns load t item c := by
  cases item with
  | malformed d =>
      cases h
      exact .malformed d
  | named name body path =>
      obtain ⟨⟨loaded, notes⟩, hload, h⟩ := bind_eq_ok.mp h
      cases loaded with
      | none =>
          cases h
          exact .empty hload
      | some a =>
          dsimp only at h
          split at h
          · next hclash =>
              cases h
              exact .clash hload hclash
          · next hclash =>
              cases h
              exact .accepted hload hclash

def items (c : Contribution α) : Named α := c.accepted.toList.map fun k => (k.name, k.item)

def paths (c : Contribution α) : Named String := c.accepted.toList.map fun k => (k.name, k.path)

def declarations (ns : Namespace) (define : α → Definition) (c : Contribution α) :
    List (Declaration Definition) :=
  c.accepted.toList.map fun k => ⟨ns, k.name, k.path, some (define k.item)⟩

end Contribution

namespace Declared

variable {α : Type}

def add (ns : Namespace) (define : α → Definition) (s : Declared α) (c : Contribution α) :
    Declared α where
  items := s.items.setAll c.items
  paths := s.paths.setAll c.paths
  notes := s.notes ++ c.notes
  symbols := s.symbols.after c.notes.errorUses (c.declarations ns define)

end Declared

variable {α : Type} {ns : Namespace} {define : α → Definition}
  {load : String → Value → String → Load (Option α)} {t t' : Symbols} {s s' r : Declared α}
  {a b c : Contribution α} {item : CollectionItem} {E : String → Prop} {F : Prop} {π : Permitted}

namespace Declared

theorem useErrors_eq (h : t.frozen = false) (uses : Named String) :
    useErrors t uses = .ok (t.after uses []) := by
  rw [← SymbolTable.foldl_use_eq_after]
  induction uses generalizing t with
  | nil => rfl
  | cons entry uses ih =>
      have huse : t.declareByUse .error entry.1 entry.2 = .ok (t.use entry) := by
        rw [SymbolTable.declareByUse, h, SymbolTable.use]
        cases t.has .error entry.1 with
        | true => rfl
        | false => rw [h]; rfl
      have hrest := ih ((SymbolTable.frozen_use t entry).trans h)
      exact bind_eq_ok.mpr ⟨_, huse, hrest⟩

theorem step_eq (hns : ns ≠ .error) (h : s.symbols.frozen = false) (item : CollectionItem) :
    step ns define load item s =
      (Contribution.ofItem ns load s.symbols item).map (s.add ns define) := by
  cases item with
  | malformed d =>
      have hsymbols : s.symbols.after [] [] = s.symbols :=
        (SymbolTable.foldl_use_eq_after s.symbols []).symm
      have hadd : s.add ns define ⟨{ diagnostics := [d] }, none⟩ = s.note { diagnostics := [d] } := by
        show ({ s.note { diagnostics := [d] } with symbols := s.symbols.after [] [] } : Declared α) = _
        rw [hsymbols]
        rfl
      exact (congrArg Except.ok hadd).symm
  | named name body path =>
      rw [step, Contribution.ofItem]
      cases load name body path with
      | error e => rfl
      | ok found =>
          obtain ⟨loaded, notes⟩ := found
          show (do
            let symbols ← useErrors s.symbols notes.errorUses
            match loaded with
            | none => return { s.note notes with symbols }
            | some a => declare ns define name path a { s.note notes with symbols }) = _
          rw [useErrors_eq h]
          cases loaded with
          | none => rfl
          | some a =>
              have hclash : (s.symbols.after notes.errorUses []).clash? ns name =
                  s.symbols.clash? ns name := SymbolTable.clash?_after hns (by simp)
              have hopen : (s.symbols.after notes.errorUses []).frozen = false := h
              show declare ns define name path a
                { s.note notes with symbols := s.symbols.after notes.errorUses [] } = _
              rw [declare, SymbolTable.define, hclash, hopen]
              cases s.symbols.clash? ns name with
              | some c =>
                  let more : Notes := { diagnostics := [c.diagnostic ns name path] }
                  have hdeclared : (⟨s.items, s.paths, s.notes ++ notes ++ more,
                      s.symbols.after notes.errorUses []⟩ : Declared α) = ⟨s.items, s.paths,
                        s.notes ++ (notes ++ more), s.symbols.after (notes.errorUses ++ []) []⟩ := by
                    rw [Notes.append_assoc, List.append_nil]
                  exact congrArg Except.ok hdeclared
              | none =>
                  have hsymbols : (⟨(s.symbols.after notes.errorUses []).declarations ++
                      [⟨ns, name, path, some (define a)⟩], false⟩ : Symbols) =
                        s.symbols.after notes.errorUses [⟨ns, name, path, some (define a)⟩] := by
                    rw [SymbolTable.after, SymbolTable.after, List.append_nil, h]
                  refine congrArg Except.ok (?_ : (⟨s.items.set name a, s.paths.set name path,
                    s.notes ++ notes, _⟩ : Declared α) = _)
                  rw [hsymbols]
                  rfl

end Declared

namespace CollectionItem

def name? : CollectionItem → Option String
  | .named name _ _ => some name
  | .malformed _ => none

/-- The item uses the name of an error. -/
def Uses (load : String → Value → String → Load (Option α)) (error : String) : CollectionItem → Prop
  | .named name body path =>
      ∃ loaded notes, load name body path = .ok (loaded, notes) ∧ error ∈ Named.keys notes.errorUses
  | .malformed _ => False

structure Apart (E : String → Prop) (load : String → Value → String → Load (Option α))
    (x y : CollectionItem) : Prop where
  names : ∀ name, x.name? = some name → y.name? ≠ some name
  errors : ∀ error, E error → x.Uses load error → ¬ y.Uses load error

theorem Apart.symm {x y : CollectionItem} (h : Apart E load x y) : Apart E load y x :=
  ⟨fun name hy hx => h.names name hx hy, fun error hE hy hx => h.errors error hE hx hy⟩

end CollectionItem

namespace Contribution

theorem ofItem_congr (h : ∀ name, item.name? = some name → t.clash? ns name = t'.clash? ns name) :
    ofItem ns load t item = ofItem ns load t' item := by
  cases item with
  | malformed d => rfl
  | named name body path => rw [ofItem, ofItem, h name rfl]

theorem name?_of_accepted (h : Contributes ns load t item c) {k : AcceptedItem α}
    (hk : c.accepted = some k) : item.name? = some k.name := by
  cases h with
  | accepted => cases hk; rfl
  | _ => cases hk

theorem uses_of_mem (h : Contributes ns load t item c) {error : String}
    (herror : error ∈ Named.keys c.notes.errorUses) : item.Uses load error := by
  cases h with
  | malformed => cases herror
  | empty h => exact ⟨_, _, h, herror⟩
  | @clash _ _ _ _ notes _ h =>
      have huses : error ∈ Named.keys (notes.errorUses ++ []) := herror
      rw [List.append_nil] at huses
      exact ⟨_, _, h, huses⟩
  | accepted h => exact ⟨_, _, h, herror⟩

structure Permits (π : Permitted) (c : Contribution α) : Prop where
  faults : ∀ d ∈ c.notes.diagnostics, π.fault d
  references : ∀ r ∈ c.notes.references, π.reference r

theorem permits (h : Contributes ns load t item c) (hitem : Declared.PermitsItem π load item) :
    c.Permits π := by
  cases h with
  | malformed d =>
      refine ⟨fun e he => ?_, nofun⟩
      cases List.mem_singleton.mp he
      exact hitem
  | empty h => exact ⟨hitem.faults h, hitem.references h⟩
  | clash h hclash =>
      refine ⟨fun d hd => ?_, fun r hr => ?_⟩
      · rcases List.mem_append.mp hd with hd | hd
        · exact hitem.faults h d hd
        · cases List.mem_singleton.mp hd
          exact SymbolTable.fault_clash hclash
      · rcases List.mem_append.mp hr with hr | hr
        · exact hitem.references h r hr
        · cases hr
  | accepted h => exact ⟨hitem.faults h, hitem.references h⟩

theorem space_declarations (hns : ns ≠ .error) (define : α → Definition) (c : Contribution α) :
    ∀ d ∈ c.declarations ns define, d.space ≠ .error := by
  intro d hd
  obtain ⟨k, -, rfl⟩ := List.mem_map.mp hd
  exact hns

theorem nodup_keys_toList {β : Type} (o : Option (AcceptedItem α)) (f : AcceptedItem α → β) :
    (Named.keys (o.toList.map fun k => (k.name, f k))).Nodup := by
  cases o with
  | none => exact .nil
  | some k => exact List.nodup_singleton _

/-- Neither do both declare the same name, nor do both use the name of the same error. -/
structure Apart (E : String → Prop) (a b : Contribution α) : Prop where
  names : ∀ k ∈ a.accepted, ∀ k' ∈ b.accepted, k.name ≠ k'.name
  errors : ∀ error, E error → error ∈ Named.keys a.notes.errorUses →
    error ∉ Named.keys b.notes.errorUses

theorem apart {x y : CollectionItem} (h : x.Apart E load y) (ha : Contributes ns load t x a)
    (hb : Contributes ns load t' y b) : a.Apart E b where
  names k hk _ hk' heq :=
    h.names k.name (name?_of_accepted ha hk) ((name?_of_accepted hb hk').trans (heq ▸ rfl))
  errors error hE hx hy := h.errors error hE (uses_of_mem ha hx) (uses_of_mem hb hy)

theorem Apart.keys {β : Type} (h : a.Apart E b) (f : AcceptedItem α → β) :
    ∀ name ∈ Named.keys (a.accepted.toList.map fun k => (k.name, f k)),
      name ∉ Named.keys (b.accepted.toList.map fun k => (k.name, f k)) := by
  intro name hname hname'
  simp only [Named.keys, List.map_map, List.mem_map, Option.mem_toList] at hname hname'
  obtain ⟨k, hk, rfl⟩ := hname
  obtain ⟨k', hk', heq⟩ := hname'
  exact h.names k hk k' hk' heq.symm

theorem Apart.declarations (h : a.Apart E b) :
    ∀ d ∈ a.declarations ns define, ∀ d' ∈ b.declarations ns define, d.name ≠ d'.name := by
  intro d hd d' hd'
  obtain ⟨k, hk, rfl⟩ := List.mem_map.mp hd
  obtain ⟨k', hk', rfl⟩ := List.mem_map.mp hd'
  exact h.names k (Option.mem_toList.mp hk) k' (Option.mem_toList.mp hk')

end Contribution

end AppSpec
