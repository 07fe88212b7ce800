import AppSpec.Proofs.Layer.Behaves
import AppSpec.Proofs.SymbolTable

/-!
Collections at large: a collection is loaded where each of its items is, and it reports nothing but
what its items do, items that cannot be named, and clashes of names.
-/

namespace AppSpec

open Load (Behaves behaves_pure behaves_reject behaves_keysWritable)

open ItemFault (opens_append)

variable {P : Prop} {π : Permitted}

namespace SymbolTable

variable {t t' : Symbols} {ns : Namespace} {name path : String} {definition : Definition}

theorem isTypeSpace_of_clash (h : t.clash? ns name = some .primitive) : ns.isTypeSpace = true := by
  rw [clash?] at h
  split at h
  · cases h
  · split at h
    · cases h
    · split at h
      · next hprimitive => exact (Bool.and_eq_true_iff.mp hprimitive).1
      · cases h

theorem fault_clash {c : Clash} (h : t.clash? ns name = some c) :
    π.fault (c.diagnostic ns name path) := by
  cases c with
  | duplicate first =>
      refine π.opened (o := .duplicated ns) ?_ ?_ path
      · exact List.mem_append_right _ (by simp [Namespace.mem_all])
      · exact opens_append (opens_append (opens_append (opens_append (List.prefix_refl _))))
  | rival other first =>
      refine π.opened (o := .shared) (by decide) ?_ path
      exact opens_append (opens_append (opens_append (opens_append (opens_append (opens_append
        (opens_append (List.prefix_refl _)))))))
  | primitive =>
      have hns : Opening.builtIn ns ∈ Opening.all := by
        have htype := isTypeSpace_of_clash h
        cases ns <;> first | decide | cases htype
      refine π.opened hns ?_ path
      exact opens_append (opens_append (opens_append (opens_append (List.prefix_refl _))))

theorem fault_define {d : Diagnostic} (h : t.define ns name definition path = .ok (some d, t')) :
    π.fault d := by
  obtain ⟨c, hclash, rfl⟩ := exists_clash_of_define h
  exact fault_clash hclash

theorem define_runs (h : t.frozen = false) (ns : Namespace) (name : String) (definition : Definition)
    (path : String) :
    ∃ d t', t.define ns name definition path = .ok (d, t') ∧ t'.frozen = false := by
  rw [define, h]
  cases t.clash? ns name with
  | some c => exact ⟨_, _, rfl, h⟩
  | none => exact ⟨_, _, rfl, rfl⟩

theorem declareByUse_runs (h : t.frozen = false) (ns : Namespace) (name path : String) :
    ∃ t', t.declareByUse ns name path = .ok t' ∧ t'.frozen = false := by
  rw [declareByUse, h]
  cases t.has ns name with
  | true => exact ⟨_, rfl, h⟩
  | false => exact ⟨_, rfl, rfl⟩

end SymbolTable

namespace CollectionItem

theorem fault_malformed {path : String} {p : Nat × Value} {d : Diagnostic}
    (h : ofListItem path p = .malformed d) : π.fault d := by
  have hunnamed (h : unnamed path p.1 = .malformed d) : π.fault d := by
    cases h
    exact π.syntaxError "list items must be " (by decide) (by decide) _
  unfold ofListItem at h
  split at h
  · split at h
    · exact hunnamed h
    · split at h
      · split at h
        · exact hunnamed h
        · cases h
      · exact hunnamed h
  · exact hunnamed h

theorem short_ofListItem {path name below : String} {p : Nat × Value} {body : Value}
    (h : ofListItem path p = .named name body below) (hp : p.2.Short) : body.Short := by
  unfold ofListItem at h
  split at h
  · next entries heq =>
      rw [heq] at hp
      split at h
      · cases h
      · split at h
        · split at h
          · cases h
          · cases h
            exact ((Entries.short_dict hp).without _).dict
        · cases h
  · cases h

theorem behaves_all {v : Value} {path : String} (h : P → v.Short) : Behaves P π (all v path) := by
  unfold all
  split
  · exact behaves_pure []
  · exact (behaves_keysWritable fun hP => Entries.short_dict (h hP)).next fun _ => behaves_pure _
  · exact behaves_pure _
  · exact behaves_pure _

theorem fault_all {v : Value} {path : String} {items : List CollectionItem} {notes : Notes}
    (h : all v path = .ok (items, notes)) : ∀ d, .malformed d ∈ items → π.fault d := by
  intro d hd
  unfold all at h
  split at h
  · cases h
    cases hd
  · obtain ⟨_, _, _, -, h, -⟩ := Load.load_bind_eq_ok.mp h
    cases h
    obtain ⟨e, -, he⟩ := List.mem_map.mp hd
    cases he
  · cases h
    obtain ⟨p, -, hp⟩ := List.mem_map.mp hd
    exact fault_malformed hp
  · cases h
    cases List.mem_singleton.mp hd
    exact π.syntaxError "expected a mapping or a list, got " (by decide)
      (opens_append (List.prefix_refl _)) _

theorem short_all {v : Value} {path : String} {items : List CollectionItem} {notes : Notes}
    (h : all v path = .ok (items, notes)) (hv : v.Short) :
    ∀ name body below, .named name body below ∈ items → body.Short := by
  intro name body below hitem
  unfold all at h
  split at h
  · cases h
    cases hitem
  · obtain ⟨_, _, _, -, h, -⟩ := Load.load_bind_eq_ok.mp h
    cases h
    obtain ⟨e, he, heq⟩ := List.mem_map.mp hitem
    cases heq
    exact (Entries.short_dict hv).values e he
  · cases h
    obtain ⟨p, hp, heq⟩ := List.mem_map.mp hitem
    cases hv with
    | list hitems => exact short_ofListItem heq (hitems _ (Load.mem_indexed hp))
  · cases h
    cases List.mem_singleton.mp hitem

end CollectionItem

namespace Declared

variable {α : Type} {ns : Namespace} {define : α → Definition}
  {load : String → Value → String → Load (Option α)} {items : List CollectionItem} {s s' : Declared α}

structure Permits (π : Permitted) (s : Declared α) : Prop where
  faults : ∀ d ∈ s.notes.diagnostics, π.fault d
  references : ∀ r ∈ s.notes.references, π.reference r

theorem Permits.note (h : Permits π s) {more : Notes} (hd : ∀ d ∈ more.diagnostics, π.fault d)
    (hr : ∀ r ∈ more.references, π.reference r) : Permits π (s.note more) := by
  refine ⟨fun d hmem => ?_, fun r hmem => ?_⟩
  · exact (List.mem_append.mp hmem).elim (h.faults d) (hd d)
  · exact (List.mem_append.mp hmem).elim (h.references r) (hr r)

theorem Permits.noteOne (h : Permits π s) {d : Diagnostic} (hd : π.fault d) :
    Permits π (s.note { diagnostics := [d] }) := by
  refine h.note (fun e he => ?_) nofun
  rw [List.mem_singleton.mp he]
  exact hd

def PermitsItem (π : Permitted) (load : String → Value → String → Load (Option α)) :
    CollectionItem → Prop
  | .malformed d => π.fault d
  | .named name body path => Behaves False π (load name body path)

theorem Permits.step {item : CollectionItem} (h : Permits π s) (hitem : PermitsItem π load item)
    (hs : step ns define load item s = .ok s') : Permits π s' := by
  have hnoted {name path : String} {body : Value} {found : Option α} {notes : Notes}
      (hitem : PermitsItem π load (.named name body path))
      (hload : load name body path = .ok (found, notes)) : Permits π (s.note notes) :=
    h.note (hitem.faults hload) (hitem.references hload)
  cases stepped hs with
  | malformed d => exact h.noteOne hitem
  | empty hload => exact ⟨(hnoted hitem hload).faults, (hnoted hitem hload).references⟩
  | taken hload _ hdefine =>
      have hclash := (hnoted hitem hload).noteOne (SymbolTable.fault_define hdefine)
      exact ⟨hclash.faults, hclash.references⟩
  | kept hload => exact ⟨(hnoted hitem hload).faults, (hnoted hitem hload).references⟩

theorem Permits.steps (h : Permits π s) (hitems : ∀ item ∈ items, PermitsItem π load item)
    (hs : steps ns define load items s = .ok s') : Permits π s' :=
  steps_keep (fun item hitem _ _ h hs => h.step (hitems item hitem) hs) h hs

theorem useErrors_runs {symbols : Symbols} (h : symbols.frozen = false)
    (uses : List (String × String)) :
    ∃ symbols', useErrors symbols uses = .ok symbols' ∧ symbols'.frozen = false := by
  induction uses generalizing symbols with
  | nil => exact ⟨symbols, rfl, h⟩
  | cons use uses ih =>
      obtain ⟨between, huse, hbetween⟩ := SymbolTable.declareByUse_runs h .error use.1 use.2
      obtain ⟨symbols', hrest, hfrozen⟩ := ih hbetween
      exact ⟨symbols', bind_eq_ok.mpr ⟨between, huse, hrest⟩, hfrozen⟩

theorem declare_runs (h : s.symbols.frozen = false) (name path : String) (a : α) :
    ∃ s', declare ns define name path a s = .ok s' ∧ s'.symbols.frozen = false := by
  obtain ⟨d, symbols, hdefine, hfrozen⟩ := SymbolTable.define_runs h ns name (define a) path
  rw [declare, hdefine]
  cases d with
  | some d => exact ⟨_, rfl, hfrozen⟩
  | none => exact ⟨_, rfl, hfrozen⟩

def RunsItem (load : String → Value → String → Load (Option α)) : CollectionItem → Prop
  | .malformed _ => True
  | .named name body path => ∃ loaded notes, load name body path = .ok (loaded, notes)

theorem step_runs {item : CollectionItem} (h : s.symbols.frozen = false)
    (hitem : RunsItem load item) :
    ∃ s', step ns define load item s = .ok s' ∧ s'.symbols.frozen = false := by
  cases item with
  | malformed d => exact ⟨_, rfl, h⟩
  | named name body path =>
      obtain ⟨loaded, notes, hloaded⟩ := hitem
      obtain ⟨symbols, hsymbols, hfrozen⟩ := useErrors_runs h notes.errorUses
      cases loaded with
      | none =>
          refine ⟨_, bind_eq_ok.mpr ⟨_, hloaded, bind_eq_ok.mpr ⟨_, hsymbols, rfl⟩⟩, hfrozen⟩
      | some a =>
          obtain ⟨s', hdeclare, hafter⟩ : ∃ s', declare ns define name path a
              { s.note notes with symbols } = .ok s' ∧ s'.symbols.frozen = false :=
            declare_runs hfrozen name path a
          exact ⟨s', bind_eq_ok.mpr ⟨_, hloaded, bind_eq_ok.mpr ⟨_, hsymbols, hdeclare⟩⟩, hafter⟩

theorem steps_runs (h : s.symbols.frozen = false) (hitems : ∀ item ∈ items, RunsItem load item) :
    ∃ s', steps ns define load items s = .ok s' ∧ s'.symbols.frozen = false := by
  induction items generalizing s with
  | nil => exact ⟨s, rfl, h⟩
  | cons item items ih =>
      obtain ⟨between, hstep, hbetween⟩ := step_runs h (hitems item List.mem_cons_self)
      obtain ⟨s', hrest, hfrozen⟩ := ih hbetween fun item hitem =>
        hitems item (List.mem_cons_of_mem _ hitem)
      exact ⟨s', bind_eq_ok.mpr ⟨between, hstep, hrest⟩, hfrozen⟩

end Declared

end AppSpec
