import AppSpec.Proofs.Layer.Taken

/-!
What is left of the items of a collection: the notes on each of them, kept or not, and of those that
are kept what they were loaded as.
-/

namespace AppSpec

open Load (load_bind_eq_ok)

theorem Notes.subset_append_left (a b : Notes) : a.references ⊆ (a ++ b).references :=
  List.subset_append_left _ _

theorem Notes.subset_append_right (a b : Notes) : b.references ⊆ (a ++ b).references :=
  List.subset_append_right _ _

namespace Declared

variable {α : Type} {ns : Namespace} {define : α → Definition}
  {load : String → Value → String → Load (Option α)} {item : CollectionItem}
  {done items : List CollectionItem} {s s' : Declared α}

/-- What is left of the items that were stepped over. -/
structure Covers (load : String → Value → String → Load (Option α)) (done : List CollectionItem)
    (s : Declared α) : Prop where
  loaded : ∀ entry ∈ s.items, ∃ body path notes, .named entry.1 body path ∈ done ∧
    load entry.1 body path = .ok (some entry.2, notes)
  noted : ∀ name body path, .named name body path ∈ done →
    ∃ a notes, load name body path = .ok (a, notes) ∧ notes.references ⊆ s.notes.references

theorem covers_start (symbols : Symbols) (notes : Notes) :
    Covers load [] ((start symbols : Declared α).note notes) :=
  ⟨nofun, nofun⟩

theorem subset_note (s : Declared α) (more : Notes) :
    s.notes.references ⊆ (s.note more).notes.references :=
  Notes.subset_append_left _ _

theorem Covers.note (h : Covers load done s) (more : Notes) : Covers load done (s.note more) := by
  refine ⟨h.loaded, fun name body path hitem => ?_⟩
  obtain ⟨a, notes, hload, hsubset⟩ := h.noted name body path hitem
  exact ⟨a, notes, hload, List.Subset.trans hsubset (subset_note _ _)⟩

/-- One more item is stepped over, with its notes if it is loaded at all. -/
theorem Covers.over (h : Covers load done s) {more : Notes}
    (hlast : ∀ name body path, item = .named name body path →
      ∃ a, load name body path = .ok (a, more)) :
    Covers load (done ++ [item]) (s.note more) := by
  refine ⟨fun entry hentry => ?_, fun name body path hitem => ?_⟩
  · obtain ⟨body, path, notes, hitem, hload⟩ := h.loaded entry hentry
    exact ⟨body, path, notes, List.mem_append_left _ hitem, hload⟩
  · rcases List.mem_append.mp hitem with hitem | hitem
    · exact (h.note more).noted name body path hitem
    · obtain ⟨a, hload⟩ := hlast name body path (List.mem_singleton.mp hitem).symm
      exact ⟨a, more, hload, Notes.subset_append_right _ _⟩

theorem Covers.step (h : Covers load done s) (hs : step ns define load item s = .ok s') :
    Covers load (done ++ [item]) s' := by
  have hnoted {name path : String} {body : Value} {found : Option α} {notes : Notes}
      (hload : load name body path = .ok (found, notes)) :
      Covers load (done ++ [.named name body path]) (s.note notes) :=
    h.over fun _ _ _ heq => by cases heq; exact ⟨found, hload⟩
  cases stepped hs with
  | malformed d => exact h.over nofun
  | empty hload => exact ⟨(hnoted hload).loaded, (hnoted hload).noted⟩
  | @taken name body path a notes d _ _ hload =>
      have hclash := (hnoted hload).note { diagnostics := [d] }
      exact ⟨hclash.loaded, hclash.noted⟩
  | @kept name body path a notes _ _ hload =>
      refine ⟨fun entry hentry => ?_, (hnoted hload).noted⟩
      rcases Named.mem_set hentry with rfl | hentry
      · exact ⟨body, path, notes, List.mem_append_right _ (List.mem_singleton_self _), hload⟩
      · exact (hnoted hload).loaded entry hentry

theorem Covers.steps (h : Covers load done s) (hs : steps ns define load items s = .ok s') :
    Covers load (done ++ items) s' := by
  induction items generalizing done s with
  | nil =>
      cases hs
      rwa [List.append_nil]
  | cons item items ih =>
      obtain ⟨between, hstep, hs⟩ := bind_eq_ok.mp hs
      rw [List.append_cons]
      exact ih (h.step hstep) hs

end Declared

theorem RawEntry.named_mem {v : Value} {path : String} {items : List CollectionItem} {notes : Notes}
    (h : CollectionItem.all v path = .ok (items, notes)) {name place : String} {body : Value} :
    .named name body place ∈ items ↔ .named name body place ∈ (all v).map (item path) := by
  unfold CollectionItem.all at h
  split at h
  · cases h
    exact Iff.rfl
  · obtain ⟨_, _, _, -, hend, rfl⟩ := load_bind_eq_ok.mp h
    cases hend
    rw [all, List.map_map]
    rfl
  · cases h
    rw [all, List.map_map]
    rfl
  · next hnull hdict hlist =>
      cases h
      cases v with
      | dict entries => exact absurd rfl (hdict entries)
      | list items => exact absurd rfl (hlist items)
      | _ => simp [all]

theorem covers_declareAll {α : Type} {ns : Namespace} {define : α → Definition}
    {load : String → Value → String → Load (Option α)} {v : Value} {path : String}
    {symbols : Symbols} {s : Declared α} (h : declareAll ns define load v path symbols = .ok s) :
    Declared.Covers load ((RawEntry.all v).map (RawEntry.item path)) s := by
  obtain ⟨⟨items, notes⟩, hitems, h⟩ := bind_eq_ok.mp h
  have hcovers := (Declared.covers_start symbols notes).steps h
  simp only [List.nil_append] at hcovers
  refine ⟨fun entry hentry => ?_, fun name body path hitem => ?_⟩
  · obtain ⟨body, path, notes, hitem, hload⟩ := hcovers.loaded entry hentry
    exact ⟨body, path, notes, (RawEntry.named_mem hitems).mp hitem, hload⟩
  · exact hcovers.noted name body path ((RawEntry.named_mem hitems).mpr hitem)

end AppSpec
