import AppSpec.Layer.Basic
import AppSpec.Proofs.Layer.Alike
import AppSpec.Proofs.Layer.ItemBehaves
import AppSpec.Proofs.Value.Reordered

/-!
Loading a layer whose declarations stand in another order: the same is left behind but for the
order. Of two operations that use an error only the first is known to the symbol table, so where
such uses are told apart the operations keep their order.
-/

namespace AppSpec

open Value (Permuted Reordered under)

variable {α : Type} {ns : Namespace} {define : α → Definition}
  {load : String → Value → String → Load (Option α)} {t t' : Symbols} {s : Declared α}
  {E : String → Prop} {F : Prop} {π : Permitted} {v v' : Value} {path : String}

/-! ### Collections -/

namespace CollectionItem

def Distinct (x y : CollectionItem) : Prop := ∀ name, x.name? = some name → y.name? ≠ some name

theorem all_mapping (entries : Named Value) (path : String) :
    all (.mapping entries) path =
      .ok (entries.map fun e => .named e.1 e.2 (Path.child path e.1), {}) := by
  have hkeys : (entries.map fun e => (Scalar.str e.1, e.2)).any (fun e => e.1.hasLongInteger) =
      false := by
    rw [List.any_map]
    exact List.any_eq_false.mpr fun _ _ => nofun
  have hwritable : Load.keysWritable (entries.map fun e => (.str e.1, e.2)) = pure () := by
    rw [Load.keysWritable, hkeys]
    rfl
  rw [Value.mapping, all, hwritable, Load.load_pure_bind, List.map_map]
  rfl

theorem distinct_mapping {entries : Named Value} (h : (Named.keys entries).Nodup) (path : String) :
    (entries.map fun e => named e.1 e.2 (Path.child path e.1)).Pairwise Distinct := by
  refine List.pairwise_map.mpr ((List.pairwise_map.mp h).imp fun hne name hx hy => ?_)
  exact hne ((Option.some.inj hx).trans (Option.some.inj hy).symm)

theorem all_permuted (h : Permuted v v') {items : List CollectionItem} {notes : Notes}
    (hall : all v path = .ok (items, notes)) :
    ∃ items', all v' path = .ok (items', notes) ∧
      (items = items' ∨ items.Perm items' ∧ items.Pairwise Distinct) := by
  rcases h.cases with rfl | ⟨xs, ys, rfl, rfl, hnodup, hperm⟩
  · exact ⟨items, hall, .inl rfl⟩
  · rw [all_mapping] at hall
    cases hall
    exact ⟨_, all_mapping ys path, .inr ⟨hperm.map _, distinct_mapping hnodup path⟩⟩

/-- No two items use the same error of those that are told apart. -/
def UsesApart (E : String → Prop) (load : String → Value → String → Load (Option α))
    (x y : CollectionItem) : Prop := ∀ error, E error → x.Uses load error → ¬ y.Uses load error

theorem Apart.of_distinct {items : List CollectionItem} (h : items.Pairwise Distinct)
    (huses : items.Pairwise (UsesApart E load)) : items.Pairwise (Apart E load) :=
  h.imp₂ (fun _ _ hnames herrors => ⟨hnames, herrors⟩) huses

theorem usesApart_of_behaves {uses : Prop} (huses : ¬ uses) {limit : Int}
    (hload : ∀ name body path, Load.Behaves False (.item limit uses) (load name body path))
    (items : List CollectionItem) : items.Pairwise (UsesApart E load) := by
  refine List.pairwise_of_forall fun x y error _ hx => ?_
  cases x with
  | malformed d => exact hx.elim
  | named name body path =>
      obtain ⟨loaded, notes, h, herror⟩ := hx
      rw [((hload name body path).uses h).resolve_left huses] at herror
      cases herror

end CollectionItem

namespace Declared

theorem Alike.steps_reordered {s' r : Declared α} {items items' : List CollectionItem}
    (h : Alike E True π s s') (hns : ns ≠ .error)
    (hitems : items = items' ∨ items.Perm items' ∧ items.Pairwise CollectionItem.Distinct)
    (huses : items.Pairwise (CollectionItem.UsesApart E load))
    (hmalformed : ∀ d, .malformed d ∈ items → π.fault d)
    (hload : ∀ name body path, Load.Behaves False π (load name body path))
    (hs : Declared.steps ns define load items s = .ok r) :
    ∃ r', Declared.steps ns define load items' s' = .ok r' ∧ Alike E True π r r' := by
  rcases hitems with rfl | ⟨hperm, hdistinct⟩
  · exact h.steps hns hs
  · refine h.steps_perm trivial hns hperm (CollectionItem.Apart.of_distinct hdistinct huses) (fun item hitem => ?_) hs
    cases item with
    | malformed d => exact hmalformed d hitem
    | named name body path => exact hload name body path

/-- Every kept item was loaded under its name. -/
def Kept (load : String → Value → String → Load (Option α)) (s : Declared α) : Prop :=
  ∀ e ∈ s.items, ∃ body path notes, load e.1 body path = .ok (some e.2, notes)

theorem kept_start (t : Symbols) (notes : Notes) :
    Kept load ((start t).note notes : Declared α) := nofun

theorem Kept.step {item : CollectionItem} {s' : Declared α} (h : Kept load s)
    (hs : step ns define load item s = .ok s') : Kept load s' := by
  cases stepped hs with
  | malformed d => exact h
  | empty => exact h
  | taken => exact h
  | @kept _ body path _ notes _ _ hload =>
      intro e he
      rcases Named.mem_set he with rfl | he
      · exact ⟨body, path, notes, hload⟩
      · exact h e he

theorem Kept.steps {items : List CollectionItem} {s' : Declared α} (h : Kept load s)
    (hs : steps ns define load items s = .ok s') : Kept load s' :=
  steps_keep (fun _ _ _ _ h hs => h.step hs) h hs

end Declared

theorem declareAll_same (ht : t.Alike E t') (hns : ns ≠ .error)
    (h : declareAll ns define load v path t = .ok s) :
    ∃ s', declareAll ns define load v path t' = .ok s' ∧ Declared.Alike E F π s s' := by
  obtain ⟨⟨items, notes⟩, hitems, h⟩ := bind_eq_ok.mp h
  obtain ⟨s', hs', hs⟩ := (Declared.alike_start ht notes).steps hns h
  exact ⟨s', bind_eq_ok.mpr ⟨_, hitems, hs'⟩, hs⟩

theorem declareAll_permuted (ht : t.Alike E t') (hns : ns ≠ .error) (hv : Permuted v v')
    (huses : ∀ items notes, CollectionItem.all v path = .ok (items, notes) →
      items.Pairwise (CollectionItem.UsesApart E load))
    (hload : ∀ name body path, Load.Behaves False π (load name body path))
    (h : declareAll ns define load v path t = .ok s) :
    ∃ s', declareAll ns define load v' path t' = .ok s' ∧ Declared.Alike E True π s s' := by
  obtain ⟨⟨items, notes⟩, hitems, h⟩ := bind_eq_ok.mp h
  obtain ⟨items', hitems', hreordered⟩ := CollectionItem.all_permuted hv hitems
  obtain ⟨s', hs', hs⟩ := (Declared.alike_start ht notes).steps_reordered hns hreordered
    (huses items notes hitems) (CollectionItem.fault_all hitems) hload h
  exact ⟨s', bind_eq_ok.mpr ⟨_, hitems', hs'⟩, hs⟩

/-- Items that use no errors may stand in any order. -/
theorem declareAll_reordered (limit : Int) (ht : t.Alike E t') (hns : ns ≠ .error)
    (hv : Permuted v v')
    (hload : ∀ name body path, Load.Behaves False (.item limit False) (load name body path))
    (h : declareAll ns define load v path t = .ok s) :
    ∃ s', declareAll ns define load v' path t' = .ok s' ∧
      Declared.Alike E True (.item limit False) s s' :=
  declareAll_permuted ht hns hv
    (fun items _ _ => CollectionItem.usesApart_of_behaves id hload items) hload h

theorem kept_declareAll (h : declareAll ns define load v path t = .ok s) : s.Kept load := by
  obtain ⟨⟨items, notes⟩, -, h⟩ := bind_eq_ok.mp h
  exact (Declared.kept_start t notes).steps h

/-! ### The names of loaded items -/

def Load.Returns (Q : α → Prop) (x : Load α) : Prop := ∀ a notes, x = .ok (a, notes) → Q a

namespace Load

variable {β : Type} {Q : β → Prop}

theorem Returns.after {x : Load α} {f : α → Load β} (h : ∀ a, Returns Q (f a)) :
    Returns Q (x >>= f) := by
  intro b notes hb
  obtain ⟨a, first, rest, -, hb, -⟩ := load_bind_eq_ok.mp hb
  exact h a b rest hb

theorem returns_pure {b : β} (h : Q b) : Returns Q (pure b) := by
  intro a notes ha
  cases ha
  exact h

end Load

open Load (Returns returns_pure)

theorem returns_bodyEntries {Q : α → Prop} {f : Entries → Load (Option α)}
    (hf : ∀ entries, Returns (∀ a ∈ ·, Q a) (f entries)) (body : Value) (path problem : String) :
    Returns (∀ a ∈ ·, Q a) (do
      match ← bodyEntries? body path problem with
      | none => return none
      | some entries => f entries) := by
  refine .after fun entries? => ?_
  cases entries? with
  | none => exact returns_pure nofun
  | some entries => exact hf entries

theorem Components.id_loadComponent (id : String) (body : Value) (path : String) :
    Returns (∀ c ∈ ·, c.id = id) (loadComponent id body path) := by
  refine returns_bodyEntries (fun entries => ?_) _ _ _
  refine .after fun _ => .after fun _ => .after fun _ => .after fun _ => .after fun _ => ?_
  refine .after fun _ => returns_pure fun c hc => ?_
  cases hc
  rfl

theorem Security.name_loadRole (name : String) (body : Value) (path : String) :
    Returns (∀ r ∈ ·, r.name = name) (loadRole name body path) := by
  refine returns_bodyEntries (fun entries => ?_) _ _ _
  refine .after fun _ => .after fun _ => .after fun _ => returns_pure fun r hr => ?_
  cases hr
  rfl

theorem Pages.name_loadPage (name : String) (body : Value) (path : String) :
    Returns (∀ p ∈ ·, p.name = name) (loadPage name body path) := by
  refine returns_bodyEntries (fun entries => ?_) _ _ _
  refine .after fun _ => .after fun _ => .after fun _ => .after fun _ => .after fun _ => ?_
  refine returns_pure fun p hp => ?_
  cases hp
  rfl

theorem Domain.name_finishEntity {name path : String} {description : Option String}
    {validation : Value} {fields : Named EntityField} :
    Returns (∀ e ∈ ·, e.name = name) (finishEntity name path description validation fields) := by
  have hend (rules : List ValidationRule) : Returns (∀ e ∈ ·, e.name = name)
      (pure (some (⟨name, description, fields, rules⟩ : Entity))) :=
    returns_pure fun e he => by cases he; rfl
  unfold finishEntity
  dsimp only
  split
  · exact .after fun _ => .after hend
  · exact .after hend

theorem Domain.name_loadEntity (limit : Int) (name : String) (body : Value) (path : String) :
    Returns (∀ e ∈ ·, e.name = name) (loadEntity limit name body path) := by
  rw [loadEntity_eq]
  refine returns_bodyEntries (fun entries => ?_) _ _ _
  dsimp only [loadBody]
  split
  · exact .after fun _ => .after fun _ => .after fun _ => name_finishEntity
  · exact .after fun _ => name_finishEntity

/-- Kept items that have their own name stand under it. -/
theorem Declared.Kept.reordered {nameOf : α → String} {items' : Named α} (h : s.Kept load)
    (hname : ∀ name body path, Returns (∀ a ∈ ·, nameOf a = name) (load name body path))
    (hitems : s.items.Alike items') : s.items.Reordered nameOf items' := by
  refine .alike hitems fun e he => ?_
  obtain ⟨body, path, notes, hload⟩ := h e he
  exact hname _ _ _ _ _ hload _ rfl

end AppSpec
