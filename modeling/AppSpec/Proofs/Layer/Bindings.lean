import AppSpec.Proofs.Layer.Taken

/-!
How the entries of the mapping layer are taken: the first binding of an operation is kept.
-/

namespace AppSpec.Mapping

def readTarget (operation : String) (target : Value) (path : String) :
    Load (Option (AcceptedItem MappingEntry)) :=
  match target with
  | .null => pure (some ⟨operation, path, ⟨operation, none⟩⟩)
  | .str name =>
      pure (some ⟨operation, path, ⟨operation, if name.isEmpty then none else some name⟩⟩)
  | _ => do
      Load.report (.schemaError path
        ("mapping target for '" ++ operation ++ "' must be a dotted path or null"))
      return none

def readFields (index : Nat) (entries : AppSpec.Entries) :
    Load (Option (AcceptedItem MappingEntry)) := do
  let problems ← Load.lift (Shape.mappingEntry.check entries (Path.item "mapping" index))
  if problems.isEmpty then
    let operation := (AppSpec.Entries.field entries "operation").text
    readTarget operation (AppSpec.Entries.field entries "target") (bindPath operation)
  else
    Load.reportAll problems
    return none

def readEntry : RawEntry → Load (Option (AcceptedItem MappingEntry))
  | .keyed key target => readTarget key.text target (bindPath key.text)
  | .listed index (.dict entries) => readFields index entries
  | .listed index _ => do
      Load.report (.syntaxError (Path.item "mapping" index) "a mapping entry must be a mapping")
      return none

variable {operation path : String} {target : Value} {s s' : Entries} {notes : Notes}
  {seen : List String} {e : RawEntry}

/-- What is bound stays bound, each operation with its path. -/
structure Grows (s s' : Entries) : Prop where
  entries : ∀ {name a}, s.entries.get? name = some a → s'.entries.get? name = some a
  paths : ∀ {name p}, s.paths.get? name = some p → s'.paths.get? name = some p

theorem Grows.refl (s : Entries) : Grows s s := ⟨id, id⟩

theorem Grows.trans {s'' : Entries} (h : Grows s s') (h' : Grows s' s'') : Grows s s'' :=
  ⟨fun hname => h'.entries (h.entries hname), fun hname => h'.paths (h.paths hname)⟩

/-- The operations bound so far are the names that are taken, and each has a path. -/
structure Holds (seen : List String) (s : Entries) : Prop where
  names : ∀ name, s.entries.has name = true ↔ name ∈ seen
  paths : ∀ name, s.paths.has name = s.entries.has name

/-- How one entry is taken, and what is bound after it. -/
structure Step (seen : List String) (e : RawEntry) (s s' : Entries) (notes : Notes)
    (taken : List String) (x : Taken MappingEntry) : Prop where
  holds : Holds taken s'
  grows : Grows s s'
  diagnostics : x.diagnostics = notes.diagnostics
  kept : ∀ k ∈ x.item, s'.entries.get? k.name = some k.item ∧ s'.paths.get? k.name = some k.path
  takes : ∀ {es ts}, Takes readEntry (fun _ => False) taken es ts →
    Takes readEntry (fun _ => False) seen (e :: es) (x :: ts)

theorem step_unread (hs : Holds seen s) (hread : readEntry e = .ok (none, notes))
    (herror : ∃ d ∈ notes.diagnostics, d.severity = .error) :
    Step seen e s s notes seen ⟨none, notes.diagnostics⟩ :=
  ⟨hs, .refl s, rfl, nofun, fun rest => .unread hread herror rest⟩

theorem step_bound {k : AcceptedItem MappingEntry} (hs : Holds seen s)
    (hread : readEntry e = .ok (some k, {})) (hhas : s.entries.has k.name = true) {d : Diagnostic}
    (hd : d.severity = .error) : Step seen e s s { diagnostics := [d] } seen ⟨none, [d]⟩ :=
  ⟨hs, .refl s, rfl, nofun, fun rest => .refused hread (.inl ((hs.names k.name).mp hhas)) hd rest⟩

theorem step_new {k : AcceptedItem MappingEntry} (hs : Holds seen s)
    (hread : readEntry e = .ok (some k, {})) (hnew : s.entries.has k.name = false)
    (hnotes : notes.diagnostics = []) :
    Step seen e s ⟨s.entries ++ [(k.name, k.item)], s.paths ++ [(k.name, k.path)]⟩ notes
      (k.name :: seen) ⟨some k, []⟩ where
  holds := by
    refine ⟨fun name => ?_, fun name => ?_⟩
    · rw [Named.has_append, Named.has_singleton, Bool.or_eq_true, hs.names, List.mem_cons, or_comm]
      simp [eq_comm]
    · simp [hs.paths]
  grows := by
    refine ⟨fun {name a} h => ?_, fun {name p} h => ?_⟩
    · simp [h]
    · simp [h]
  diagnostics := hnotes.symm
  kept := by
    intro k' hk
    cases hk
    have hnone : s.entries.get? k.name = none := by simpa [Named.has] using hnew
    have hnone' : s.paths.get? k.name = none := by
      simpa [Named.has] using (hs.paths k.name).trans hnew
    simp [Named.get?, hnone, hnone']
  takes rest := by
    have hseen : k.name ∉ seen := fun hmem => by
      rw [(hs.names k.name).mpr hmem] at hnew
      cases hnew
    exact .kept hread hseen id rest

/-- How an entry is taken whose target is bound to its operation. -/
theorem exists_step_bindTarget (hs : Holds seen s)
    (hread : readEntry e = readTarget operation target path)
    (h : bindTarget operation target path s = .ok (s', notes)) :
    ∃ taken x, Step seen e s s' notes taken x := by
  unfold bindTarget at h
  extract_lets accept at h
  have haccept {written : Option String}
      (hread : readEntry e = .ok (some ⟨operation, path, ⟨operation, written⟩⟩, {}))
      (h : accept written = .ok (s', notes)) : ∃ taken x, Step seen e s s' notes taken x := by
    dsimp only [accept] at h
    split at h
    · next hhas =>
        cases h
        exact ⟨_, _, step_bound hs hread hhas rfl⟩
    · next hnew =>
        rw [Bool.not_eq_true] at hnew
        cases written <;> cases h <;> exact ⟨_, _, step_new hs hread hnew rfl⟩
  have hreport {d : Diagnostic} (hd : d.severity = .error)
      (hread : readEntry e = .ok (none, { diagnostics := [d] }))
      (h : .ok (s, { diagnostics := [d] }) = (.ok (s', notes) : Load Entries)) :
      ∃ taken x, Step seen e s s' notes taken x := by
    cases h
    exact ⟨_, _, step_unread hs hread ⟨d, List.mem_singleton_self d, hd⟩⟩
  cases target with
  | scalar value =>
      cases value with
      | null => exact haccept hread h
      | str name => exact haccept hread h
      | _ => exact hreport rfl hread h
  | _ => exact hreport rfl hread h

theorem exists_step_bindFields {index : Nat} {fields : AppSpec.Entries} (hs : Holds seen s)
    (h : bindItem index (.dict fields) s = .ok (s', notes)) :
    ∃ taken x, Step seen (.listed index (.dict fields)) s s' notes taken x := by
  have hread : readEntry (.listed index (.dict fields)) = readFields index fields := rfl
  unfold bindItem at h
  unfold readFields at hread
  dsimp only at h
  cases hcheck : Shape.mappingEntry.check fields (Path.item "mapping" index) with
  | error f =>
      rw [hcheck] at h
      cases h
  | ok problems =>
      rw [hcheck] at h hread
      cases problems with
      | nil =>
          exact exists_step_bindTarget hs (hread.trans (Load.load_pure_bind _ _))
            ((Load.load_pure_bind _ _).symm.trans h)
      | cons problem problems =>
          cases h
          refine ⟨_, _, step_unread hs hread ⟨problem, List.mem_cons_self, ?_⟩⟩
          exact Shape.severity_check hcheck problem List.mem_cons_self

theorem exists_step_bindItem {index : Nat} {v : Value} (hs : Holds seen s)
    (h : bindItem index v s = .ok (s', notes)) :
    ∃ taken x, Step seen (.listed index v) s s' notes taken x := by
  cases v with
  | dict fields => exact exists_step_bindFields hs h
  | _ =>
      cases h
      exact ⟨_, _, step_unread hs rfl ⟨_, List.mem_singleton_self _, rfl⟩⟩

/-! ### All entries -/

/-- How entries are taken one after the other, and what is bound after them. -/
structure Run (seen : List String) (es : List RawEntry) (s s' : Entries) (notes : Notes)
    (ts : List (Taken MappingEntry)) : Prop where
  takes : Takes readEntry (fun _ => False) seen es ts
  grows : Grows s s'
  diagnostics : notes.diagnostics = ts.flatMap (·.diagnostics)
  kept : ∀ x ∈ ts, ∀ k ∈ x.item,
    s'.entries.get? k.name = some k.item ∧ s'.paths.get? k.name = some k.path

variable {es : List RawEntry} {s'' : Entries} {rest : Notes} {ts : List (Taken MappingEntry)}
  {taken : List String} {x : Taken MappingEntry}

theorem run_nil (seen : List String) (s : Entries) : Run seen [] s s {} [] :=
  ⟨.nil, .refl s, rfl, nofun⟩

theorem Run.cons (hstep : Step seen e s s' notes taken x) (hrun : Run taken es s' s'' rest ts) :
    Run seen (e :: es) s s'' (notes ++ rest) (x :: ts) where
  takes := hstep.takes hrun.takes
  grows := hstep.grows.trans hrun.grows
  diagnostics := by
    rw [List.flatMap_cons, hstep.diagnostics, ← hrun.diagnostics]
    rfl
  kept := by
    refine List.forall_mem_cons.mpr ⟨fun k hk => ?_, hrun.kept⟩
    obtain ⟨hentry, hpath⟩ := hstep.kept k hk
    exact ⟨hrun.grows.entries hentry, hrun.grows.paths hpath⟩

theorem exists_run_bindEntries {entries : AppSpec.Entries} (hs : Holds seen s)
    (h : bindEntries entries s = .ok (s', notes)) :
    ∃ ts, Run seen (entries.map fun e => .keyed e.1 e.2) s s' notes ts := by
  induction entries generalizing seen s notes with
  | nil =>
      cases h
      exact ⟨[], run_nil _ _⟩
  | cons entry entries ih =>
      obtain ⟨between, first, rest, hfirst, hrest, rfl⟩ := Load.load_bind_eq_ok.mp h
      obtain ⟨taken, x, hstep⟩ := exists_step_bindTarget (e := .keyed entry.1 entry.2) hs rfl hfirst
      obtain ⟨ts, hrun⟩ := ih hstep.holds hrest
      exact ⟨x :: ts, hrun.cons hstep⟩

theorem exists_run_bindItems {items : List (Nat × Value)} (hs : Holds seen s)
    (h : bindItems items s = .ok (s', notes)) :
    ∃ ts, Run seen (items.map fun p => .listed p.1 p.2) s s' notes ts := by
  induction items generalizing seen s notes with
  | nil =>
      cases h
      exact ⟨[], run_nil _ _⟩
  | cons item items ih =>
      obtain ⟨between, first, rest, hfirst, hrest, rfl⟩ := Load.load_bind_eq_ok.mp h
      obtain ⟨taken, x, hstep⟩ := exists_step_bindItem hs hfirst
      obtain ⟨ts, hrun⟩ := ih hstep.holds hrest
      exact ⟨x :: ts, hrun.cons hstep⟩

/-- How the entries of the layer are taken, where it has any. -/
theorem takes_load {v : Value} {loaded : Option Entries} (h : load v = .ok (loaded, notes)) :
    ∃ ts, Takes readEntry (fun _ => False) [] (RawEntry.all v) ts ∧
      (∀ x ∈ ts, ∀ d ∈ x.diagnostics, d ∈ notes.diagnostics) ∧
      ∀ x ∈ ts, ∀ k ∈ x.item, ∃ m, loaded = some m ∧ m.entries.get? k.name = some k.item ∧
        m.paths.get? k.name = some k.path := by
  have hnone : Holds [] ⟨[], []⟩ := ⟨fun name => ⟨nofun, nofun⟩, fun name => rfl⟩
  have hsome {m : Entries} {more : Notes} {ts : List (Taken MappingEntry)} {es : List RawEntry}
      (hmore : ∀ d ∈ more.diagnostics, d ∈ notes.diagnostics)
      (hrun : Run [] es ⟨[], []⟩ m more ts) :
      ∃ ts, Takes readEntry (fun _ => False) [] es ts ∧
        (∀ x ∈ ts, ∀ d ∈ x.diagnostics, d ∈ notes.diagnostics) ∧
        ∀ x ∈ ts, ∀ k ∈ x.item, ∃ m', some m = some m' ∧ m'.entries.get? k.name = some k.item ∧
          m'.paths.get? k.name = some k.path := by
    refine ⟨ts, hrun.takes, fun x hx d hd => hmore d ?_, fun x hx k hk => ⟨m, rfl, hrun.kept x hx k hk⟩⟩
    rw [hrun.diagnostics]
    exact List.mem_flatMap.mpr ⟨x, hx, hd⟩
  unfold load at h
  split at h
  · next entries =>
      obtain ⟨_, first, rest, hkeys, hrest, rfl⟩ := Load.load_bind_eq_ok.mp h
      obtain ⟨m, more, last, hbind, hlast, rfl⟩ := Load.load_bind_eq_ok.mp hrest
      cases hlast
      obtain ⟨ts, hrun⟩ := exists_run_bindEntries hnone hbind
      refine hsome (fun d hd => ?_) hrun
      exact List.mem_append_right _ (List.mem_append_left _ hd)
  · next items =>
      obtain ⟨m, more, last, hbind, hlast, rfl⟩ := Load.load_bind_eq_ok.mp h
      cases hlast
      obtain ⟨ts, hrun⟩ := exists_run_bindItems hnone hbind
      exact hsome (fun d hd => List.mem_append_left _ hd) hrun
  · next hdict hlist =>
      have hall : RawEntry.all v = [] := by
        cases v with
        | dict entries => exact absurd rfl (hdict entries)
        | list items => exact absurd rfl (hlist items)
        | _ => rfl
      rw [hall]
      exact ⟨[], .nil, nofun, nofun⟩

end AppSpec.Mapping
