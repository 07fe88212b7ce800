import AppSpec.Proofs.Layer.Alike
import AppSpec.Proofs.Layer.Blame
import AppSpec.Proofs.Layer.Frame

/-!
How the entries of a collection are taken, one after the other: an entry is kept where it can be
read and its name is free, the first one of a name. Every other entry leaves an error behind.
-/

namespace AppSpec

/-- An entry of a mapping or of a list, as it is written. -/
inductive RawEntry where
  | keyed (key : Scalar) (body : Value)
  | listed (index : Nat) (item : Value)

def RawEntry.all : Value → List RawEntry
  | .dict entries => entries.map fun e => .keyed e.1 e.2
  | .list items => (Load.indexed items).map fun p => .listed p.1 p.2
  | _ => []

/-- What became of an entry, and the diagnostics that came up with it. -/
structure Taken (δ : Type) where
  item : Option (AcceptedItem δ)
  diagnostics : List Diagnostic

section Takes

variable {ι κ δ : Type}

/-- Entries are taken next to names that are taken already, and to names that are barred. -/
inductive Takes (read : ι → Load (Option (AcceptedItem δ))) (barred : String → Prop) :
    List String → List ι → List (Taken δ) → Prop
  | nil {seen} : Takes read barred seen [] []
  | kept {seen e es k notes ts} (hread : read e = .ok (some k, notes)) (hnew : k.name ∉ seen)
      (hfree : ¬ barred k.name) (rest : Takes read barred (k.name :: seen) es ts) :
      Takes read barred seen (e :: es) (⟨some k, notes.diagnostics⟩ :: ts)
  | refused {seen e es k notes d ts} (hread : read e = .ok (some k, notes))
      (htaken : k.name ∈ seen ∨ barred k.name) (hd : d.severity = .error)
      (rest : Takes read barred seen es ts) :
      Takes read barred seen (e :: es) (⟨none, notes.diagnostics ++ [d]⟩ :: ts)
  | unread {seen e es notes ts} (hread : read e = .ok (none, notes))
      (herror : ∃ d ∈ notes.diagnostics, d.severity = .error)
      (rest : Takes read barred seen es ts) :
      Takes read barred seen (e :: es) (⟨none, notes.diagnostics⟩ :: ts)

namespace Takes

variable {read : ι → Load (Option (AcceptedItem δ))} {read' : κ → Load (Option (AcceptedItem δ))}
  {barred : String → Prop} {seen : List String} {es : List ι} {es' : List κ} {ts : List (Taken δ)}

/-- Entries that are read to the same are taken in the same way. -/
theorem congr (h : Takes read barred seen es ts)
    (hread : List.Forall₂ (fun e e' => read e = read' e') es es') : Takes read' barred seen es' ts := by
  induction h generalizing es' with
  | nil =>
      cases hread
      exact .nil
  | kept h hnew hfree _ ih =>
      obtain _ | ⟨heq, hrest⟩ := hread
      exact .kept (heq ▸ h) hnew hfree (ih hrest)
  | refused h htaken hd _ ih =>
      obtain _ | ⟨heq, hrest⟩ := hread
      exact .refused (heq ▸ h) htaken hd (ih hrest)
  | unread h herror _ ih =>
      obtain _ | ⟨heq, hrest⟩ := hread
      exact .unread (heq ▸ h) herror (ih hrest)

theorem blamed (h : Takes read barred seen es ts) :
    ∀ t ∈ ts, t.item = none → ∃ d ∈ t.diagnostics, d.severity = .error := by
  induction h with
  | nil => exact nofun
  | kept _ _ _ _ ih => exact List.forall_mem_cons.mpr ⟨nofun, ih⟩
  | refused _ _ hd _ ih =>
      refine List.forall_mem_cons.mpr ⟨fun _ => ⟨_, List.mem_append_right _ ?_, hd⟩, ih⟩
      exact List.mem_singleton_self _
  | unread _ herror _ ih => exact List.forall_mem_cons.mpr ⟨fun _ => herror, ih⟩

end Takes

end Takes

/-! ### Collections -/

variable {α : Type} {ns : Namespace} {define : α → Definition}
  {load : String → Value → String → Load (Option α)}

namespace CollectionItem

def read (define : α → Definition) (load : String → Value → String → Load (Option α)) :
    CollectionItem → Load (Option (AcceptedItem Definition))
  | .malformed d => do
      Load.report d
      return none
  | .named name body path => do
      return (← load name body path).map fun a => ⟨name, path, define a⟩

theorem read_malformed (d : Diagnostic) :
    read define load (.malformed d) = .ok (none, { diagnostics := [d] }) := rfl

theorem read_named {name path : String} {body : Value} {loaded : Option α} {notes : Notes}
    (h : load name body path = .ok (loaded, notes)) : read define load (.named name body path) =
      .ok (loaded.map fun a => ⟨name, path, define a⟩, notes) := by
  obtain ⟨ds, rs, us⟩ := notes
  refine Load.load_bind_eq_ok.mpr ⟨loaded, ⟨ds, rs, us⟩, {}, h, rfl, ?_⟩
  show (⟨ds, rs, us⟩ : Notes) = ⟨ds ++ [], rs ++ [], us ++ []⟩
  rw [List.append_nil, List.append_nil, List.append_nil]

end CollectionItem

/-- The name is declared where names are shared, or the name of a primitive type. -/
def Barred (t : Symbols) (ns : Namespace) (name : String) : Prop :=
  (∃ other, ns.rival? = some other ∧ t.has other name = true) ∨
    (ns.isTypeSpace && TypeExpr.isPrimitive name) = true

namespace Declared

/-- What is kept is what the symbol table has. -/
structure Mirrors (ns : Namespace) (define : α → Definition) (s : Declared α) : Prop where
  items : ∀ name, (s.items.get? name).map define = s.symbols.lookup? ns name
  paths : ∀ name, s.paths.get? name = s.symbols.path? ns name
  nodupItems : (Named.keys s.items).Nodup
  nodupPaths : (Named.keys s.paths).Nodup

variable {s r : Declared α} {c : Contribution α} {item : CollectionItem}

theorem mirrors_start {t : Symbols} (h : ∀ name, t.find? ns name = none) (notes : Notes) :
    Mirrors ns define ((start t).note notes) := by
  refine ⟨fun name => ?_, fun name => ?_, .nil, .nil⟩
  · show none = t.lookup? ns name
    rw [SymbolTable.lookup?, h]
    rfl
  · show none = t.path? ns name
    rw [SymbolTable.path?, h]
    rfl

theorem find?_add_none (hns : ns ≠ .error) (hc : c.accepted = none) (s : Declared α) (name : String) :
    (s.add ns define c).symbols.find? ns name = s.symbols.find? ns name := by
  show (s.symbols.after _ (c.declarations ns define)).find? ns name = _
  rw [SymbolTable.find?_after hns, Contribution.declarations, hc]
  exact Option.or_none

theorem find?_add_some (hns : ns ≠ .error) {k : AcceptedItem α} (hc : c.accepted = some k)
    (s : Declared α) (name : String) :
    (s.add ns define c).symbols.find? ns name = (s.symbols.find? ns name).or
      (if k.name = name then some ⟨ns, k.name, k.path, some (define k.item)⟩ else none) := by
  show (s.symbols.after _ (c.declarations ns define)).find? ns name = _
  rw [SymbolTable.find?_after hns, Contribution.declarations, hc]
  refine congrArg (Option.or _) ?_
  by_cases hname : k.name = name
  · simp [SymbolTable.find?, hname]
  · simp [SymbolTable.find?, hname]

theorem has_add_some (hns : ns ≠ .error) {k : AcceptedItem α} (hc : c.accepted = some k)
    (define : α → Definition) (s : Declared α) (name : String) :
    (s.add ns define c).symbols.has ns name = true ↔
      name = k.name ∨ s.symbols.has ns name = true := by
  rw [SymbolTable.has, find?_add_some hns hc, Option.isSome_or, Bool.or_eq_true, or_comm,
    @eq_comm _ name]
  refine or_congr_left ?_
  split <;> simp_all

theorem Mirrors.add (h : Mirrors ns define s) (hns : ns ≠ .error)
    (hnew : ∀ k ∈ c.accepted, s.symbols.find? ns k.name = none) :
    Mirrors ns define (s.add ns define c) := by
  cases hc : c.accepted with
  | none =>
      have hitems : (s.add ns define c).items = s.items := by
        rw [Declared.add, Contribution.items, hc]
        rfl
      have hpaths : (s.add ns define c).paths = s.paths := by
        rw [Declared.add, Contribution.paths, hc]
        rfl
      refine ⟨fun name => ?_, fun name => ?_, hitems ▸ h.nodupItems, hpaths ▸ h.nodupPaths⟩
      · rw [hitems, h.items, SymbolTable.lookup?, SymbolTable.lookup?, find?_add_none hns hc]
      · rw [hpaths, h.paths, SymbolTable.path?, SymbolTable.path?, find?_add_none hns hc]
  | some k =>
      have hitems : (s.add ns define c).items = s.items.set k.name k.item := by
        rw [Declared.add, Contribution.items, hc]
        rfl
      have hpaths : (s.add ns define c).paths = s.paths.set k.name k.path := by
        rw [Declared.add, Contribution.paths, hc]
        rfl
      have hnone : s.symbols.find? ns k.name = none := hnew k hc
      refine ⟨fun name => ?_, fun name => ?_, hitems ▸ Named.nodup_keys_set h.nodupItems _ _,
        hpaths ▸ Named.nodup_keys_set h.nodupPaths _ _⟩
      · rw [hitems, Named.get?_set, SymbolTable.lookup?, find?_add_some hns hc]
        by_cases hname : k.name = name
        · rw [if_pos hname, if_pos hname, ← hname, hnone]
          rfl
        · rw [if_neg hname, if_neg hname, Option.or_none, h.items]
          rfl
      · rw [hpaths, Named.get?_set, SymbolTable.path?, find?_add_some hns hc]
        by_cases hname : k.name = name
        · rw [if_pos hname, if_pos hname, ← hname, hnone]
          rfl
        · rw [if_neg hname, if_neg hname, Option.or_none, h.paths]
          rfl

theorem find?_of_clash {t : Symbols} {name : String} (h : t.clash? ns name = none) :
    t.find? ns name = none := by
  rw [SymbolTable.clash?] at h
  split at h
  · cases h
  · assumption

theorem new_of_contributes {t : Symbols} (h : Contribution.Contributes ns load t item c) :
    ∀ k ∈ c.accepted, t.find? ns k.name = none := by
  intro k hk
  cases h with
  | accepted hload hclash =>
      cases hk
      exact find?_of_clash hclash
  | _ => cases hk

theorem Mirrors.steps {items : List CollectionItem} (h : Mirrors ns define s) (hns : ns ≠ .error)
    (hopen : s.symbols.frozen = false) (hs : Declared.steps ns define load items s = .ok r) :
    Mirrors ns define r := by
  refine (steps_keep (P := fun s => Mirrors ns define s ∧ s.symbols.frozen = false)
    (fun item _ s s' hkept hstep => ?_) ⟨h, hopen⟩ hs).1
  obtain ⟨c, hc, rfl⟩ := (step_eq_ok hns hkept.2).mp hstep
  exact ⟨hkept.1.add hns (new_of_contributes (Contribution.contributes hc)), hkept.2⟩

/-! ### Taking the items of a collection -/

variable {T t : Symbols} {spaces : List Namespace} {seen : List String}

theorem barred_of_clash {name : String} {clash : SymbolTable.Clash} (hT : t.Extends spaces T)
    (hseen : ∀ name, t.has ns name = true ↔ name ∈ seen) (h : t.clash? ns name = some clash) :
    name ∈ seen ∨ Barred T ns name := by
  rw [SymbolTable.clash?] at h
  split at h
  · next d hfound => exact .inl ((hseen name).mp (by rw [SymbolTable.has, hfound]; rfl))
  · split at h
    · next d hfound =>
        obtain ⟨other, hrival, hother⟩ := Option.bind_eq_some_iff.mp hfound
        exact .inr (.inl ⟨other, hrival, hT.has_of_has (by rw [SymbolTable.has, hother]; rfl)⟩)
    · split at h
      · next hprimitive => exact .inr (.inr hprimitive)
      · cases h

theorem not_barred_of_free {name : String} (hT : T.Exclusive) (hhas : T.has ns name = true)
    (h : t.clash? ns name = none) : ¬ Barred T ns name := by
  rintro (⟨other, hrival, hother⟩ | hprimitive)
  · exact absurd hother (Bool.eq_false_iff.mp (hT ns other name hrival hhas))
  · rw [SymbolTable.clash?] at h
    split at h
    · cases h
    · split at h
      · cases h
      · rw [if_pos hprimitive] at h
        cases h

/-- How one item is taken, told from the symbol table `T` at the end: what is kept stands in it, and
where an item is turned down its name is taken before, or barred. -/
theorem take_step (hns : ns ≠ .error) (hseen : ∀ name, s.symbols.has ns name = true ↔ name ∈ seen)
    (hmalformed : ∀ d, item = .malformed d → d.severity = .error)
    (hload : ∀ name body path, (load name body path).Blames)
    (hc : Contribution.Contributes ns load s.symbols item c) (hbefore : s.symbols.Extends spaces T)
    (hafter : (s.add ns define c).symbols.Extends spaces T) (hexclusive : T.Exclusive) :
    ∃ taken x, (∀ name, (s.add ns define c).symbols.has ns name = true ↔ name ∈ taken) ∧
      x.diagnostics = c.notes.diagnostics ∧
      (∀ k ∈ x.item, T.find? ns k.name = some ⟨ns, k.name, k.path, some k.item⟩) ∧
      ∀ items ts, Takes (CollectionItem.read define load) (Barred T ns) taken items ts →
        Takes (CollectionItem.read define load) (Barred T ns) seen (item :: items) (x :: ts) := by
  have hsame (hnone : c.accepted = none) (name : String) :
      (s.add ns define c).symbols.has ns name = true ↔ name ∈ seen := by
    rw [SymbolTable.has, find?_add_none hns hnone]
    exact hseen name
  cases hc with
  | malformed d =>
      refine ⟨seen, ⟨none, _⟩, hsame rfl, rfl, by simp, fun items ts hts => ?_⟩
      exact .unread (CollectionItem.read_malformed d)
        ⟨d, List.mem_singleton_self d, hmalformed d rfl⟩ hts
  | empty h =>
      refine ⟨seen, ⟨none, _⟩, hsame rfl, rfl, by simp, fun items ts hts => ?_⟩
      exact .unread (CollectionItem.read_named h) (hload _ _ _ _ h) hts
  | clash h hclash =>
      refine ⟨seen, ⟨none, _⟩, hsame rfl, rfl, by simp, fun items ts hts => ?_⟩
      exact .refused (CollectionItem.read_named h) (barred_of_clash hbefore hseen hclash) rfl hts
  | @accepted name body path a notes h hclash =>
      let k : AcceptedItem α := ⟨name, path, a⟩
      have hnone := find?_of_clash hclash
      have hdeclared : T.find? ns name = some ⟨ns, name, path, some (define a)⟩ := by
        refine hafter.find?_of_some ?_
        rw [find?_add_some (k := k) hns rfl, hnone, if_pos rfl]
        rfl
      refine ⟨name :: seen, ⟨some ⟨name, path, define a⟩, _⟩, fun other => ?_, rfl, ?_,
        fun items ts hts => ?_⟩
      · rw [has_add_some (k := k) hns rfl, hseen, List.mem_cons]
      · intro k hk
        cases hk
        exact hdeclared
      · have hnew : name ∉ seen := by
          rw [← hseen, SymbolTable.has, hnone]
          exact Bool.false_ne_true
        have hhas : T.has ns name = true := by
          rw [SymbolTable.has, hdeclared]
          rfl
        exact .kept (CollectionItem.read_named h) hnew (not_barred_of_free hexclusive hhas hclash) hts

theorem takes_steps {items : List CollectionItem} (hns : ns ≠ .error)
    (hopen : s.symbols.frozen = false) (hseen : ∀ name, s.symbols.has ns name = true ↔ name ∈ seen)
    (hmalformed : ∀ d, .malformed d ∈ items → d.severity = .error)
    (hload : ∀ name body path, (load name body path).Blames)
    (hs : Declared.steps ns define load items s = .ok r) (hT : r.symbols.Extends spaces T)
    (hexclusive : T.Exclusive) :
    ∃ ts, Takes (CollectionItem.read define load) (Barred T ns) seen items ts ∧
      r.notes.diagnostics = s.notes.diagnostics ++ ts.flatMap (·.diagnostics) ∧
      ∀ t ∈ ts, ∀ k ∈ t.item, T.find? ns k.name = some ⟨ns, k.name, k.path, some k.item⟩ := by
  induction items generalizing s seen with
  | nil =>
      cases hs
      exact ⟨[], .nil, (List.append_nil _).symm, nofun⟩
  | cons item items ih =>
      have hgrows {s : Declared α} {items : List CollectionItem}
          (hs : Declared.steps ns define load items s = .ok r) : s.symbols.Extends ([ns] ++ spaces) T :=
        (extends_steps hs).append hT
      have hbefore := hgrows hs
      obtain ⟨between, hstep, hs⟩ := bind_eq_ok.mp hs
      obtain ⟨c, hc, rfl⟩ := (step_eq_ok hns hopen).mp hstep
      obtain ⟨taken, x, htaken, hx, hkept, htakes⟩ := take_step hns hseen
        (fun d heq => hmalformed d (heq ▸ List.mem_cons_self)) hload (Contribution.contributes hc)
        hbefore (hgrows hs) hexclusive
      obtain ⟨ts, hts, hdiagnostics, hrest⟩ := ih (s := s.add ns define c) hopen htaken
        (fun d hd => hmalformed d (List.mem_cons_of_mem _ hd)) hs
      refine ⟨x :: ts, htakes items ts hts, ?_, List.forall_mem_cons.mpr ⟨hkept, hrest⟩⟩
      rw [hdiagnostics, List.flatMap_cons, hx, ← List.append_assoc]
      rfl

end Declared

/-! ### Whole collections -/

theorem Load.forall₂_each {β γ : Type} {f : β → Load γ} {bs : List β} {cs : List γ} {notes : Notes}
    (h : each f bs = .ok (cs, notes)) :
    List.Forall₂ (fun b c => ∃ more, f b = .ok (c, more)) bs cs := by
  induction bs generalizing cs notes with
  | nil =>
      cases h
      exact .nil
  | cons b bs ih =>
      obtain ⟨c, first, rest, hc, h, -⟩ := load_bind_eq_ok.mp h
      obtain ⟨cs, second, _, hcs, h, -⟩ := load_bind_eq_ok.mp h
      cases h
      exact .cons ⟨first, hc⟩ (ih hcs)

namespace RawEntry

def item (path : String) : RawEntry → CollectionItem
  | .keyed key body => .ofEntry path (key, body)
  | .listed index item => .ofListItem path (index, item)

theorem all_eq_ok {v : Value} {path : String} {items : List CollectionItem} {notes : Notes}
    (h : CollectionItem.all v path = .ok (items, notes)) :
    all v = [] ∨ items = (all v).map (item path) ∧ notes = {} := by
  unfold CollectionItem.all at h
  split at h
  · exact .inl rfl
  · next entries =>
      obtain ⟨_, first, rest, hkeys, hrest, rfl⟩ := Load.load_bind_eq_ok.mp h
      cases hrest
      rw [Load.keysWritable] at hkeys
      split at hkeys
      · cases hkeys
      · cases hkeys
        refine .inr ⟨?_, rfl⟩
        rw [all, List.map_map]
        rfl
  · cases h
    refine .inr ⟨?_, rfl⟩
    rw [all, List.map_map]
    rfl
  · next hnull hdict hlist =>
      refine .inl ?_
      cases v with
      | dict entries => exact absurd rfl (hdict entries)
      | list items => exact absurd rfl (hlist items)
      | _ => rfl

theorem severity_item {path : String} {e : RawEntry} {d : Diagnostic}
    (h : e.item path = .malformed d) : d.severity = .error := by
  cases e with
  | keyed key body => cases h
  | listed index item => exact CollectionItem.severity_ofListItem h

end RawEntry

section Whole

variable {T t : Symbols} {spaces : List Namespace} {v : Value} {path : String} {s : Declared α}
  {items : List CollectionItem} {notes : Notes} {es : List RawEntry}
  {read : RawEntry → Load (Option (AcceptedItem Definition))}

theorem mirrors_declareAll (hns : ns ≠ .error) (hopen : t.frozen = false)
    (hfresh : ∀ name, t.find? ns name = none) (h : declareAll ns define load v path t = .ok s) :
    s.Mirrors ns define := by
  obtain ⟨⟨items, notes⟩, -, h⟩ := bind_eq_ok.mp h
  exact (Declared.mirrors_start hfresh notes).steps hns hopen h

/-- How entries are taken that are read as the items of a collection. -/
theorem takes_items (hns : ns ≠ .error) (hopen : t.frozen = false)
    (hfresh : ∀ name, t.find? ns name = none) (hload : ∀ name body path, (load name body path).Blames)
    (hmalformed : ∀ d, .malformed d ∈ items → d.severity = .error)
    (hread : List.Forall₂ (fun item e => item.read define load = read e) items es)
    (h : Declared.steps ns define load items ((Declared.start t).note notes) = .ok s)
    (hT : s.symbols.Extends spaces T) (hexclusive : T.Exclusive) :
    ∃ ts, Takes read (Barred T ns) [] es ts ∧
      (∀ t ∈ ts, ∀ d ∈ t.diagnostics, d ∈ s.notes.diagnostics) ∧
      ∀ t ∈ ts, ∀ k ∈ t.item, T.find? ns k.name = some ⟨ns, k.name, k.path, some k.item⟩ := by
  have hseen (name : String) : t.has ns name = true ↔ name ∈ ([] : List String) := by
    simp [SymbolTable.has, hfresh]
  obtain ⟨ts, hts, hdiagnostics, hkept⟩ :=
    Declared.takes_steps hns hopen hseen hmalformed hload h hT hexclusive
  refine ⟨ts, hts.congr hread, fun t ht d hd => ?_, hkept⟩
  rw [hdiagnostics]
  exact List.mem_append_right _ (List.mem_flatMap.mpr ⟨t, ht, hd⟩)

theorem takes_declareAll (hns : ns ≠ .error) (hopen : t.frozen = false)
    (hfresh : ∀ name, t.find? ns name = none) (hload : ∀ name body path, (load name body path).Blames)
    (h : declareAll ns define load v path t = .ok s) (hT : s.symbols.Extends spaces T)
    (hexclusive : T.Exclusive) :
    ∃ ts, Takes (fun e => (RawEntry.item path e).read define load) (Barred T ns) []
        (RawEntry.all v) ts ∧
      (∀ t ∈ ts, ∀ d ∈ t.diagnostics, d ∈ s.notes.diagnostics) ∧
      ∀ t ∈ ts, ∀ k ∈ t.item, T.find? ns k.name = some ⟨ns, k.name, k.path, some k.item⟩ := by
  obtain ⟨⟨items, notes⟩, hitems, h⟩ := bind_eq_ok.mp h
  rcases RawEntry.all_eq_ok hitems with hnone | ⟨rfl, rfl⟩
  · rw [hnone]
    exact ⟨[], .nil, nofun, nofun⟩
  · have hmalformed : ∀ d, .malformed d ∈ (RawEntry.all v).map (RawEntry.item path) →
        d.severity = .error := by
      intro d hd
      obtain ⟨e, -, he⟩ := List.mem_map.mp hd
      exact RawEntry.severity_item he
    refine takes_items hns hopen hfresh hload hmalformed ?_ h hT hexclusive
    rw [List.forall₂_map_left_iff]
    exact List.forall₂_same.mpr fun _ _ => rfl

end Whole

/-! ### Roles -/

namespace Security

/-- A role is read like any other entry of a mapping; in a list it may stand in shorter forms. -/
def readRole : RawEntry → Load (Option (AcceptedItem Definition))
  | .keyed key body => (CollectionItem.ofEntry rolesPath (key, body)).read .role loadRole
  | .listed _ v => do (← listedRole v).read .role loadRole

theorem severity_listedRole {v : Value} {d : Diagnostic} {notes : Notes}
    (h : listedRole v = .ok (.malformed d, notes)) : d.severity = .error := by
  unfold listedRole at h
  split at h
  · next s =>
      split at h
      · exact CollectionItem.severity_ofListItem (Prod.mk.inj (Except.ok.inj h)).1
      · cases h
  · split at h
    · exact CollectionItem.severity_ofListItem (Prod.mk.inj (Except.ok.inj h)).1
    · obtain ⟨_, _, _, -, h, -⟩ := Load.load_bind_eq_ok.mp h
      cases h
  · exact CollectionItem.severity_ofListItem (Prod.mk.inj (Except.ok.inj h)).1

theorem notes_listedRole {v : Value} {item : CollectionItem} {notes : Notes}
    (h : listedRole v = .ok (item, notes)) : notes = {} := by
  unfold listedRole at h
  split at h
  · cases h
    rfl
  · next key body =>
      split at h
      · cases h
        rfl
      · obtain ⟨_, first, rest, hkeys, hrest, rfl⟩ := Load.load_bind_eq_ok.mp h
        cases hrest
        rw [Load.keysWritable] at hkeys
        split at hkeys
        · cases hkeys
        · cases hkeys
          rfl
  · cases h
    rfl

theorem read_listedRole {index : Nat} {v : Value} {item : CollectionItem} {notes : Notes}
    (h : listedRole v = .ok (item, notes)) :
    item.read .role loadRole = readRole (.listed index v) := by
  rw [readRole, h, notes_listedRole h]
  exact (Load.load_pure_bind item _).symm

theorem forall₂_roleItems {v : Value} {items : List CollectionItem} {notes : Notes}
    (h : roleItems v = .ok (items, notes)) : RawEntry.all v = [] ∨
      List.Forall₂ (fun item e => item.read .role loadRole = readRole e) items (RawEntry.all v) := by
  unfold roleItems at h
  split at h
  · next vs =>
      have hvalues : (Load.indexed vs).map Prod.snd = vs := by
        rw [Load.indexed, List.map_map]
        exact List.zipIdx_map_fst 0 vs
      rw [← hvalues] at h
      have hroles := List.forall₂_map_left_iff.mp (Load.forall₂_each h)
      refine .inr (List.forall₂_map_right_iff.mpr (hroles.flip.imp fun item p hrole => ?_))
      obtain ⟨more, hrole⟩ := hrole
      exact read_listedRole hrole
  · next hlist =>
      rcases RawEntry.all_eq_ok h with hnone | ⟨rfl, -⟩
      · exact .inl hnone
      · refine .inr (List.forall₂_map_left_iff.mpr (List.forall₂_same.mpr fun e he => ?_))
        cases e with
        | keyed key body => rfl
        | listed index item =>
            cases v with
            | list vs => exact absurd rfl (hlist vs)
            | _ => simp [RawEntry.all] at he

theorem severity_roleItems {v : Value} {items : List CollectionItem} {notes : Notes}
    (h : roleItems v = .ok (items, notes)) (hentries : RawEntry.all v ≠ []) :
    ∀ d, .malformed d ∈ items → d.severity = .error := by
  intro d hd
  unfold roleItems at h
  split at h
  · obtain ⟨v, -, more, hlisted⟩ := Load.mem_of_each h hd
    exact severity_listedRole hlisted
  · rcases RawEntry.all_eq_ok h with hnone | ⟨rfl, -⟩
    · exact absurd hnone hentries
    · obtain ⟨e, -, he⟩ := List.mem_map.mp hd
      exact RawEntry.severity_item he

end Security

end AppSpec
