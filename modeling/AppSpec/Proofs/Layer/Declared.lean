import AppSpec.Proofs.Layer.Items
import AppSpec.Proofs.SymbolTable

/-!
Collections: the mentions of every kept item are deferred, and every name that the symbol table
gains is the name of a kept item or of an error.
-/

namespace AppSpec

namespace Declared

variable {α : Type} {mentions : α → Mentioning} {ns : Namespace} {before : Symbols}
  {s s' : Declared α}

abbrev ItemMentions (mentions : α → Mentioning) (items : Named α) : Mentioning :=
  .ofList (fun entry => mentions entry.2) items

def Gains (ns : Namespace) (before after : Symbols) (names : List String) : Prop :=
  ∀ other name, after.has other name = true →
    before.has other name = true ∨ other = .error ∨ other = ns ∧ name ∈ names

structure Sound (mentions : α → Mentioning) (ns : Namespace) (before : Symbols)
    (s : Declared α) : Prop where
  deferred : ∀ spaces name, ItemMentions mentions s.items spaces name → s.notes.Defers spaces name
  gains : Gains ns before s.symbols (Named.keys s.items)

theorem useErrors_has {symbols symbols' : Symbols} {uses : List (String × String)}
    (h : useErrors symbols uses = .ok symbols') {other : Namespace} {name : String}
    (hhas : symbols'.has other name = true) :
    symbols.has other name = true ∨ other = .error := by
  induction uses generalizing symbols with
  | nil =>
      cases h
      exact .inl hhas
  | cons use uses ih =>
      obtain ⟨between, huse, h⟩ := bind_eq_ok.mp h
      rcases ih h with hhas | hhas
      · exact SymbolTable.has_declareByUse huse hhas
      · exact .inr hhas

theorem sound_start (symbols : Symbols) : Sound mentions ns symbols (start symbols : Declared α) :=
  ⟨fun _ _ ⟨_, h, _⟩ => absurd h List.not_mem_nil, fun _ _ => .inl⟩

theorem Sound.note (h : Sound mentions ns before s) (more : Notes) :
    Sound mentions ns before (s.note more) :=
  ⟨fun spaces name hm => Notes.defers_append.mpr (.inl (h.deferred spaces name hm)), h.gains⟩

theorem Sound.used (h : Sound mentions ns before s) {uses : List (String × String)} {used : Symbols}
    (huses : useErrors s.symbols uses = .ok used) : Sound mentions ns before { s with symbols := used } := by
  refine ⟨h.deferred, fun other name hhas => ?_⟩
  rcases useErrors_has huses hhas with hhas | rfl
  · exact h.gains other name hhas
  · exact .inr (.inl rfl)

theorem Sound.keep (h : Sound mentions ns before s) {name path : String} {a : α} {definition : Definition}
    {symbols : Symbols} (ha : ∀ spaces name', mentions a spaces name' → s.notes.Defers spaces name')
    (hdefine : s.symbols.define ns name definition path = .ok (none, symbols)) :
    Sound mentions ns before
      { s with items := s.items.set name a, paths := s.paths.set name path, symbols } := by
  constructor
  · rintro spaces name' ⟨entry, hentry, hm⟩
    rcases Named.mem_set hentry with rfl | hentry
    · exact ha spaces name' hm
    · exact h.deferred spaces name' ⟨entry, hentry, hm⟩
  · intro other name' hhas
    rw [Named.mem_keys_set]
    rcases (SymbolTable.has_define hdefine).mp hhas with hhas | ⟨rfl, rfl⟩
    · rcases h.gains other name' hhas with hhas | rfl | ⟨rfl, hname⟩
      · exact .inl hhas
      · exact .inr (.inl rfl)
      · exact .inr (.inr ⟨rfl, .inr hname⟩)
    · exact .inr (.inr ⟨rfl, .inl rfl⟩)

theorem Sound.step {load : String → Value → String → Load (Option α)}
    (hload : RecordsItems load mentions) {define : α → Definition} {item : CollectionItem}
    (h : Sound mentions ns before s) (hs : step ns define load item s = .ok s') :
    Sound mentions ns before s' := by
  cases stepped hs with
  | malformed d => exact h.note _
  | empty _ huses => exact (h.used huses).note _
  | taken _ huses hdefine =>
      obtain rfl := SymbolTable.define_rejected hdefine
      exact ((h.used huses).note _).note _
  | @kept name body path a notes used symbols hloaded huses hdefine =>
      have hnoted : Sound mentions ns before { s.note notes with symbols := used } :=
        (h.used huses).note notes
      refine hnoted.keep (fun spaces name' hm => ?_) hdefine
      exact Notes.defers_append.mpr (.inr ((hload name body path _).deferred hloaded ⟨a, rfl, hm⟩))

theorem Sound.steps {load : String → Value → String → Load (Option α)}
    (hload : RecordsItems load mentions) {define : α → Definition} {items : List CollectionItem}
    (h : Sound mentions ns before s) (hs : steps ns define load items s = .ok s') :
    Sound mentions ns before s' :=
  steps_keep (fun _ _ _ _ h hs => h.step hload hs) h hs

end Declared

theorem sound_declareAll {α : Type} {mentions : α → Mentioning}
    {load : String → Value → String → Load (Option α)} (hload : RecordsItems load mentions)
    {ns : Namespace} {define : α → Definition} {v : Value} {path : String} {symbols : Symbols}
    {s : Declared α} (h : declareAll ns define load v path symbols = .ok s) :
    Declared.Sound mentions ns symbols s := by
  obtain ⟨⟨items, notes⟩, -, h⟩ := bind_eq_ok.mp h
  exact ((Declared.sound_start symbols).note notes).steps hload h

end AppSpec
