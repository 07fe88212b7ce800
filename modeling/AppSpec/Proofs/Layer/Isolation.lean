import AppSpec.Proofs.Layer.Contribution
import AppSpec.Proofs.Layer.Frame

/-!
What a layer is loaded to depends on the symbol table only by what is found in the layer's own
namespaces and in those that share their names.
-/

namespace AppSpec

namespace SymbolTable

variable {δ : Type} {spaces : List Namespace} {t t' : SymbolTable δ} {ns : Namespace}

/-- In the namespaces the same is found in both tables. -/
structure Agree (spaces : List Namespace) (t t' : SymbolTable δ) : Prop where
  unfrozen : t.frozen = false
  unfrozen' : t'.frozen = false
  find : ∀ ns ∈ spaces, ∀ name, t.find? ns name = t'.find? ns name

theorem Agree.clash? (h : Agree spaces t t') (hns : ns ∈ spaces)
    (hrival : ∀ other, ns.rival? = some other → other ∈ spaces) (name : String) :
    t.clash? ns name = t'.clash? ns name := by
  have hother : ns.rival?.bind (fun other => t.find? other name) =
      ns.rival?.bind fun other => t'.find? other name := by
    cases hr : ns.rival? with
    | none => rfl
    | some other => exact h.find other (hrival other hr) name
  rw [SymbolTable.clash?, SymbolTable.clash?, h.find ns hns, hother]

theorem Agree.after (h : Agree spaces t t') (herror : .error ∉ spaces) (uses : Named String)
    (ds : List (Declaration δ)) : Agree spaces (t.after uses ds) (t'.after uses ds) where
  unfrozen := h.unfrozen
  unfrozen' := h.unfrozen'
  find ns hns name := by
    have hne : ns ≠ .error := fun heq => herror (heq ▸ hns)
    rw [find?_after hne, find?_after hne, h.find ns hns, h.unfrozen, h.unfrozen']

end SymbolTable

open SymbolTable (Agree)

section Collections

variable {α : Type} {ns : Namespace} {define : α → Definition}
  {load : String → Value → String → Load (Option α)} {spaces : List Namespace} {t t' : Symbols}

/-- The namespaces in which a collection looks names up. -/
structure Namespace.ReadIn (ns : Namespace) (spaces : List Namespace) : Prop where
  own : ns ∈ spaces
  rival : ∀ other, ns.rival? = some other → other ∈ spaces
  noError : .error ∉ spaces

namespace Declared

/-- The same was kept and noted so far, next to symbols that agree. -/
structure Agrees (spaces : List Namespace) (s s' : Declared α) : Prop where
  items : s.items = s'.items
  paths : s.paths = s'.paths
  notes : s.notes = s'.notes
  symbols : s.symbols.Agree spaces s'.symbols

variable {s s' r : Declared α}

theorem Agrees.step (h : Agrees spaces s s') (hns : ns.ReadIn spaces) {item : CollectionItem}
    (hs : Declared.step ns define load item s = .ok r) :
    ∃ r', Declared.step ns define load item s' = .ok r' ∧ Agrees spaces r r' := by
  have hne : ns ≠ .error := fun heq => hns.noError (heq ▸ hns.own)
  rw [step_eq hne h.symbols.unfrozen, map_eq_ok] at hs
  obtain ⟨c, hc, rfl⟩ := hs
  have hsame : Contribution.ofItem ns load s.symbols item =
      Contribution.ofItem ns load s'.symbols item :=
    Contribution.ofItem_congr fun name _ => h.symbols.clash? hns.own hns.rival name
  refine ⟨s'.add ns define c, ?_, ?_⟩
  · rw [step_eq hne h.symbols.unfrozen', ← hsame, hc]
    rfl
  · exact ⟨congrArg (Named.setAll · _) h.items, congrArg (Named.setAll · _) h.paths,
      congrArg (· ++ c.notes) h.notes, h.symbols.after hns.noError _ _⟩

theorem Agrees.steps {items : List CollectionItem} (h : Agrees spaces s s') (hns : ns.ReadIn spaces)
    (hs : Declared.steps ns define load items s = .ok r) :
    ∃ r', Declared.steps ns define load items s' = .ok r' ∧ Agrees spaces r r' :=
  steps_side_by_side (fun h hs => h.step hns hs) h hs

theorem agrees_start (h : t.Agree spaces t') (notes : Notes) :
    Agrees spaces ((start t).note notes : Declared α) ((start t').note notes) :=
  ⟨rfl, rfl, rfl, h⟩

end Declared

theorem declareAll_agrees (h : t.Agree spaces t') (hns : ns.ReadIn spaces) {v : Value}
    {path : String} {r : Declared α} (hr : declareAll ns define load v path t = .ok r) :
    ∃ r', declareAll ns define load v path t' = .ok r' ∧ r.Agrees spaces r' := by
  obtain ⟨⟨items, notes⟩, hitems, hr⟩ := bind_eq_ok.mp hr
  obtain ⟨r', hr', hagrees⟩ := (Declared.agrees_start h notes).steps hns hr
  exact ⟨r', bind_eq_ok.mpr ⟨_, hitems, hr'⟩, hagrees⟩

end Collections

namespace Layer

/-- The namespaces by which a layer depends on the symbols before it. -/
def reads (layer : Layer) : List Namespace :=
  layer.declares.flatMap fun ns => ns :: ns.rival?.toList

theorem readIn_reads {layer : Layer} {ns : Namespace} (h : ns ∈ layer.declares) :
    ns.ReadIn layer.reads := by
  have hreads (other : Namespace) (hother : other ∈ ns :: ns.rival?.toList) : other ∈ layer.reads :=
    List.mem_flatMap.mpr ⟨ns, h, hother⟩
  refine ⟨hreads ns List.mem_cons_self, fun other hrival => hreads other ?_, ?_⟩
  · rw [hrival]
    exact List.mem_cons_of_mem _ (List.mem_singleton_self _)
  · cases layer <;> decide

variable {limit : Int} {layer : Layer} {v : Value} {t t' u : Symbols} {r : LayerResult}

theorem agrees_collected {α : Type} {data : Named α → LayerData} {d d' : Except Failure (Declared α)}
    (hd : ∀ s, d = .ok s → ∃ s', d' = .ok s' ∧ s.Agrees layer.reads s')
    (h : collected layer data d = .ok (r, u)) :
    ∃ u', collected layer data d' = .ok (r, u') ∧ u.Agree layer.reads u' := by
  obtain ⟨s, hs, h⟩ := bind_eq_ok.mp h
  cases h
  obtain ⟨s', hs', hagrees⟩ := hd s hs
  refine ⟨s'.symbols, bind_eq_ok.mpr ⟨s', hs', ?_⟩, hagrees.symbols⟩
  rw [hagrees.items, hagrees.paths, hagrees.notes]
  rfl

theorem agrees_domain (ht : t.Agree Layer.domain.reads t')
    (h : loadPresent limit .domain v t = .ok (r, u)) :
    ∃ u', loadPresent limit .domain v t' = .ok (r, u') ∧ u.Agree Layer.domain.reads u' := by
  obtain ⟨⟨loaded, notes, symbols⟩, hload, h⟩ := bind_eq_ok.mp h
  cases h
  suffices hdomain : ∃ u', Domain.load limit v t' = .ok (loaded, notes, u') ∧
      u.Agree Layer.domain.reads u' by
    obtain ⟨u', hload', hu⟩ := hdomain
    exact ⟨u', bind_eq_ok.mpr ⟨_, hload', rfl⟩, hu⟩
  rw [Domain.load] at hload ⊢
  split at hload
  · cases hload
    exact ⟨t', rfl, ht⟩
  · next sections _ =>
      obtain ⟨types, htypes, hload⟩ := bind_eq_ok.mp hload
      obtain ⟨entities, hentities, hload⟩ := bind_eq_ok.mp hload
      cases hload
      obtain ⟨types', htypes', hagrees⟩ := declareAll_agrees ht (readIn_reads (by decide)) htypes
      obtain ⟨entities', hentities', hagrees'⟩ :=
        declareAll_agrees hagrees.symbols (readIn_reads (by decide)) hentities
      refine ⟨entities'.symbols, bind_eq_ok.mpr ⟨types', htypes', bind_eq_ok.mpr
        ⟨entities', hentities', ?_⟩⟩, hagrees'.symbols⟩
      rw [hagrees.items, hagrees.paths, hagrees.notes, hagrees'.items, hagrees'.paths,
        hagrees'.notes]
      rfl

theorem agrees_security (ht : t.Agree Layer.security.reads t')
    (h : loadPresent limit .security v t = .ok (r, u)) :
    ∃ u', loadPresent limit .security v t' = .ok (r, u') ∧ u.Agree Layer.security.reads u' := by
  obtain ⟨⟨policy, notes, symbols⟩, hload, h⟩ := bind_eq_ok.mp h
  cases h
  suffices hsecurity : ∃ u', Security.load v t' = .ok (policy, notes, u') ∧
      u.Agree Layer.security.reads u' by
    obtain ⟨u', hload', hu⟩ := hsecurity
    exact ⟨u', bind_eq_ok.mpr ⟨_, hload', rfl⟩, hu⟩
  obtain ⟨⟨entries?, first⟩, hentries, hload⟩ := bind_eq_ok.mp hload
  cases entries? with
  | none =>
      cases hload
      exact ⟨t', bind_eq_ok.mpr ⟨_, hentries, rfl⟩, ht⟩
  | some entries =>
      obtain ⟨⟨items, more⟩, hitems, hload⟩ := bind_eq_ok.mp hload
      obtain ⟨roles, hroles, hload⟩ := bind_eq_ok.mp hload
      obtain ⟨⟨policy, last⟩, hpolicy, hload⟩ := bind_eq_ok.mp hload
      cases hload
      obtain ⟨roles', hroles', hagrees⟩ :=
        (Declared.agrees_start ht more).steps (readIn_reads (by decide)) hroles
      refine ⟨roles'.symbols, bind_eq_ok.mpr ⟨_, hentries, bind_eq_ok.mpr ⟨_, hitems,
        bind_eq_ok.mpr ⟨roles', hroles', bind_eq_ok.mpr ⟨(policy, last), ?_, ?_⟩⟩⟩⟩,
        hagrees.symbols⟩
      · rw [← hagrees.items]
        exact hpolicy
      · rw [hagrees.paths, hagrees.notes]
        rfl

/-- Symbols that agree where the layer looks names up leave the layer no way to tell them apart. -/
theorem agrees_load (ht : t.Agree layer.reads t') (h : load limit layer v t = .ok (r, u)) :
    ∃ u', load limit layer v t' = .ok (r, u') ∧ u.Agree layer.reads u' := by
  rw [load] at h ⊢
  split at h
  · next habsent =>
      cases h
      rw [if_pos habsent]
      exact ⟨t', rfl, ht⟩
  · next hpresent =>
      rw [if_neg hpresent]
      cases layer with
      | project =>
          obtain ⟨⟨info, notes⟩, hinfo, h⟩ := bind_eq_ok.mp h
          cases h
          exact ⟨t', bind_eq_ok.mpr ⟨_, hinfo, rfl⟩, ht⟩
      | domain => exact agrees_domain ht h
      | security => exact agrees_security ht h
      | mapping =>
          obtain ⟨⟨loaded, notes⟩, hloaded, h⟩ := bind_eq_ok.mp h
          cases loaded <;> cases h <;> exact ⟨t', bind_eq_ok.mpr ⟨_, hloaded, rfl⟩, ht⟩
      | _ =>
          exact agrees_collected (fun s => declareAll_agrees ht (readIn_reads (by decide))) h

end Layer

end AppSpec
