import AppSpec.Proofs.Layer.LayersReordered
import AppSpec.Proofs.Layer.Taken

/-!
The first use of each error. Only operations use errors, and the first operation that uses one
declares it, so all that the order of the operations can change is where an error is first used.
-/

namespace AppSpec

open Value (Permuted Reordered under)

variable {α : Type} {ns : Namespace} {define : α → Definition}
  {load : String → Value → String → Load (Option α)} {t t' : Symbols} {s r : Declared α}
  {c : Contribution α} {item x y : CollectionItem} {items items' : List CollectionItem}
  {E E' : String → Prop} {F : Prop} {limit : Int} {v v' : Value} {error : String}

theorem SymbolTable.Alike.withPaths (h : t.Alike E t')
    (hpaths : ∀ name, E' name → t.path? .error name = t'.path? .error name) : t.Alike E' t' :=
  { h with errorPath := hpaths }

/-! ### Items -/

namespace CollectionItem

/-- Where the item first uses the error. -/
def use? (load : String → Value → String → Load (Option α)) (error : String) :
    CollectionItem → Option String
  | .malformed _ => none
  | .named name body path =>
      match load name body path with
      | .ok (_, notes) => Named.get? notes.errorUses error
      | .error _ => none

def firstUse? (load : String → Value → String → Load (Option α)) (error : String)
    (items : List CollectionItem) : Option String := items.findSome? (use? load error)

theorem use?_of_contributes (h : Contribution.Contributes ns load t item c) :
    item.use? load error = Named.get? c.notes.errorUses error := by
  cases h with
  | malformed d => rfl
  | empty hload =>
      rw [use?, hload]
  | clash hload hclash =>
      rw [use?, hload]
      exact congrArg (Named.get? · error) (List.append_nil _).symm
  | accepted hload hclash =>
      rw [use?, hload]

end CollectionItem

open CollectionItem (firstUse?)

theorem Declared.path?_steps (hns : ns ≠ .error) (hopen : s.symbols.frozen = false)
    (hs : steps ns define load items s = .ok r) : r.symbols.path? .error error =
      (s.symbols.path? .error error).or (firstUse? load error items) := by
  induction items generalizing s with
  | nil =>
      cases hs
      exact Option.or_none.symm
  | cons item items ih =>
      obtain ⟨between, hstep, hs⟩ := bind_eq_ok.mp hs
      obtain ⟨c, hc, rfl⟩ := (step_eq_ok hns hopen).mp hstep
      have hspaces := Contribution.space_declarations hns define c
      have hfirst : firstUse? load error (item :: items) =
          (Named.get? c.notes.errorUses error).or (firstUse? load error items) := by
        rw [firstUse?, List.findSome?_cons,
          CollectionItem.use?_of_contributes (Contribution.contributes hc)]
        cases Named.get? c.notes.errorUses error <;> rfl
      have hadd : (s.add ns define c).symbols.path? .error error =
          (s.symbols.path? .error error).or (Named.get? c.notes.errorUses error) :=
        SymbolTable.path?_after hspaces error
      rw [ih (s := s.add ns define c) hopen hs, hfirst, hadd, Option.or_assoc]

/-! ### The logic layer -/

/-- The operations of the logic layer. -/
def Layer.operationItems (v : Value) : Load (List CollectionItem) :=
  CollectionItem.all (unwrapped v "logic" "operations").1 (unwrapped v "logic" "operations").2

/-- The error is first used in the same place, by the operations of both layers. -/
def SameFirstUse (limit : Int) (v v' : Value) (error : String) : Prop :=
  ∀ items items' notes notes', Layer.operationItems v = .ok (items, notes) →
    Layer.operationItems v' = .ok (items', notes') →
      firstUse? (Logic.loadOperation limit) error items =
        firstUse? (Logic.loadOperation limit) error items'

namespace Layer

theorem load_logic (v : Value) (t : Symbols) :
    Logic.load limit v t = declareAll .operation .operation (Logic.loadOperation limit)
      (unwrapped v "logic" "operations").1 (unwrapped v "logic" "operations").2 t := rfl

theorem path?_logic {s : Declared Operation} (hopen : t.frozen = false)
    (h : Logic.load limit v t = .ok s) : ∃ items notes, operationItems v = .ok (items, notes) ∧
      ∀ error, s.symbols.path? .error error =
        (t.path? .error error).or (firstUse? (Logic.loadOperation limit) error items) := by
  obtain ⟨⟨items, notes⟩, hitems, hs⟩ := bind_eq_ok.mp h
  exact ⟨items, notes, hitems, fun error =>
    Declared.path?_steps (s := (Declared.start t).note notes) (by nofun) hopen hs⟩

/-- Operations may stand in any order, as long as only those errors are told apart whose first use
stays where it is. -/
theorem matches_logic (h : Reordered (under [("operations", Permuted)]) v v') :
    Matches (SameFirstUse limit v v') F limit .logic v v' := by
  obtain ⟨hitems, hpath⟩ := unwrapped_reordered "logic" "operations" h
  refine matches_of_present (isNull_reordered h) fun {t t' r u} ht hload => ?_
  have hload : collected .logic .logic (Logic.load limit v t) = .ok (r, u) := hload
  refine collected_alike hload fun s hs => ?_
  have hbehaves (name : String) (body : Value) (path : String) :
      Load.Behaves False (.item limit True) (Logic.loadOperation limit name body path) :=
    Logic.behaves_loadOperation nofun nofun
  obtain ⟨s', hs', halike⟩ := declareAll_permuted (E := fun _ => False) (ht.withPaths nofun) (by nofun)
    hitems (fun _ _ _ => List.pairwise_of_forall fun _ _ _ => nofun) hbehaves (load_logic v t ▸ hs)
  rw [hpath, ← load_logic] at hs'
  refine ⟨s', hs', .logic halike.items.toPerm, halike.layerNotes, halike.symbols.withPaths ?_⟩
  intro error hfirst
  obtain ⟨items, notes, hitems, hfound⟩ := path?_logic ht.unfrozen hs
  obtain ⟨items', notes', hitems', hfound'⟩ := path?_logic ht.unfrozen' hs'
  rw [hfound, hfound', ht.errorPath error hfirst, hfirst _ _ _ _ hitems hitems']

end Layer

/-! ### Errors that are used -/

namespace Load

variable {β : Type} {x : Load α} {f : α → Load β} {listed : β → List String}

/-- The errors that are used are the ones listed in what comes out. -/
def Lists (listed : α → List String) (x : Load α) : Prop :=
  ∀ a notes, x = .ok (a, notes) → Named.keys notes.errorUses = listed a

abbrev Quiet (x : Load α) : Prop := Lists (fun _ => []) x

theorem keys_append (first rest : Notes) : Named.keys (first ++ rest).errorUses =
    Named.keys first.errorUses ++ Named.keys rest.errorUses := List.map_append

theorem quiet_of_behaves (limit : Int) (h : Behaves False (.item limit False) x) : x.Quiet := by
  intro a notes ha
  rw [(h.uses ha).resolve_left id]
  rfl

theorem Quiet.after (hx : x.Quiet) (hf : ∀ a, Lists listed (f a)) : Lists listed (x >>= f) := by
  intro b notes hb
  obtain ⟨a, first, rest, ha, hrest, rfl⟩ := load_bind_eq_ok.mp hb
  rw [keys_append, hx a first ha, hf a b rest hrest]
  rfl

theorem Lists.before {more : α → List String} (hx : Lists more x) (hquiet : ∀ a, (f a).Quiet)
    (hf : ∀ a, Returns (listed · = more a) (f a)) : Lists listed (x >>= f) := by
  intro b notes hb
  obtain ⟨a, first, rest, ha, hrest, rfl⟩ := load_bind_eq_ok.mp hb
  rw [keys_append, hx a first ha, hquiet a b rest hrest, hf a b rest hrest, List.append_nil]

theorem quiet_pure (a : α) : (pure a : Load α).Quiet := by
  intro b notes hb
  cases hb
  rfl

theorem quiet_names (v : Value) (path : String) : (names v path).Quiet :=
  quiet_of_behaves 0 (behaves_names nofun)

theorem quiet_bodyEntries (body : Value) (path problem : String) :
    (bodyEntries? body path problem).Quiet := by
  intro entries? notes h
  unfold bodyEntries? at h
  split at h <;> cases h <;> rfl

end Load

namespace Logic

open Load (Lists Returns returns_pure quiet_of_behaves)

theorem lists_loadErrors (v : Value) (path : String) : Lists id (loadErrors v path) := by
  refine (Load.quiet_names v path).after fun names => ?_
  induction names with
  | nil =>
      intro errors notes h
      cases h
      rfl
  | cons name names ih =>
      have hused : Lists (fun error => [error]) (do
          Load.useError name.1 name.2
          Load.defer name.2 name.1 .error [.error]
          return name.1) := by
        intro error notes h
        cases h
        rfl
      intro errors notes h
      obtain ⟨error, first, rest, herror, hrest, rfl⟩ := Load.load_bind_eq_ok.mp h
      obtain ⟨more, second, _, hmore, hlast, rfl⟩ := Load.load_bind_eq_ok.mp hrest
      cases hlast
      rw [Load.keys_append, Load.keys_append, hused error first herror, ih more second hmore]
      exact congrArg (error :: ·) (List.append_nil more)

/-- An operation uses just the errors that it lists. -/
theorem lists_loadOperation (limit : Int) (name : String) (body : Value) (path : String) :
    Lists (fun o : Option Operation => (o.map (·.errors)).getD [])
      (loadOperation limit name body path) := by
  refine (Load.quiet_bodyEntries _ _ _).after fun entries? => ?_
  cases entries? with
  | none =>
      intro loaded notes h
      cases h
      rfl
  | some entries =>
      refine (quiet_of_behaves limit (Load.behaves_checkShape False.elim)).after fun _ => ?_
      refine (quiet_of_behaves limit (behaves_loadParameters nofun)).after fun inputs => ?_
      refine (quiet_of_behaves limit (behaves_loadOutput nofun)).after fun output => ?_
      refine (quiet_of_behaves limit (Load.behaves_deferField nofun rfl (by decide))).after
        fun modifies => ?_
      refine (lists_loadErrors _ _).before (fun errors => ?_) fun errors => ?_
      · refine (quiet_of_behaves limit (Load.behaves_textField nofun)).after fun description => ?_
        refine (quiet_of_behaves limit (Load.behaves_texts nofun)).after fun preconditions => ?_
        refine (quiet_of_behaves limit (Load.behaves_texts nofun)).after fun postconditions => ?_
        exact Load.quiet_pure _
      · refine .after fun description => .after fun preconditions => .after fun postconditions => ?_
        exact returns_pure rfl

theorem name_loadOperation (limit : Int) (name : String) (body : Value) (path : String) :
    Returns (∀ o ∈ ·, o.name = name) (loadOperation limit name body path) := by
  refine returns_bodyEntries (fun entries => ?_) _ _ _
  refine .after fun _ => .after fun _ => .after fun _ => .after fun _ => .after fun _ => ?_
  refine .after fun _ => .after fun _ => .after fun _ => returns_pure fun o ho => ?_
  cases ho
  rfl

end Logic

/-! ### Operations that are kept -/

namespace CollectionItem

/-- The item as it is loaded, under its name. -/
def loaded? (load : String → Value → String → Load (Option α)) : CollectionItem → Option (String × α)
  | .malformed _ => none
  | .named name body path =>
      match load name body path with
      | .ok (some a, _) => some (name, a)
      | _ => none

theorem loaded?_of_contributes (h : Contribution.Contributes ns load t item c)
    (hfree : ∀ name, item.name? = some name → t.clash? ns name = none) :
    c.accepted.map (fun k => (k.name, k.item)) = item.loaded? load := by
  cases h with
  | malformed d => rfl
  | empty hload => rw [loaded?, hload]; rfl
  | clash hload hclash => rw [hfree _ rfl] at hclash; cases hclash
  | accepted hload hclash => rw [loaded?, hload]; rfl

end CollectionItem

theorem SymbolTable.clash?_of_plain {name : String} (hrival : ns.rival? = none)
    (hspace : ns.isTypeSpace = false) (hnew : t.find? ns name = none) : t.clash? ns name = none := by
  rw [clash?, hnew, hrival, hspace]
  rfl

theorem Declared.items_add (hfresh : ∀ k ∈ c.accepted, s.items.has k.name = false) :
    (s.add ns define c).items = s.items ++ (c.accepted.map fun k => (k.name, k.item)).toList := by
  rw [add, Contribution.items]
  cases haccepted : c.accepted with
  | none => exact (List.append_nil _).symm
  | some k => exact Named.set_of_not_has k.item (hfresh k haccepted)

/-- What is declared next to an item does not take another name. -/
theorem Declared.new_add {name : String} (hns : ns ≠ .error)
    (hfresh : ∀ k ∈ c.accepted, s.items.has k.name = false) (hname : ∀ k ∈ c.accepted, k.name ≠ name)
    (hnew : s.symbols.find? ns name = none ∧ s.items.has name = false) :
    (s.add ns define c).symbols.find? ns name = none ∧ (s.add ns define c).items.has name = false := by
  rw [items_add hfresh]
  cases haccepted : c.accepted with
  | none =>
      rw [find?_add_none hns haccepted, Option.map_none, Option.toList_none, List.append_nil]
      exact hnew
  | some k =>
      have hne := hname k haccepted
      rw [find?_add_some hns haccepted, if_neg hne, Option.or_none, Option.map_some,
        Option.toList_some, Named.has_append, Named.has_singleton, decide_eq_false hne, Bool.or_false]
      exact hnew

/-- Where no other namespace shares the names, items of different names are all kept. -/
theorem Declared.items_steps (hns : ns ≠ .error) (hrival : ns.rival? = none)
    (hspace : ns.isTypeSpace = false) (hopen : s.symbols.frozen = false)
    (hdistinct : items.Pairwise CollectionItem.Distinct)
    (hnew : ∀ item ∈ items, ∀ name, item.name? = some name →
      s.symbols.find? ns name = none ∧ s.items.has name = false)
    (hs : steps ns define load items s = .ok r) :
    r.items = s.items ++ items.filterMap (CollectionItem.loaded? load) := by
  induction items generalizing s with
  | nil =>
      cases hs
      exact (List.append_nil _).symm
  | cons item items ih =>
      obtain ⟨between, hstep, hs⟩ := bind_eq_ok.mp hs
      obtain ⟨c, hc, rfl⟩ := (step_eq_ok hns hopen).mp hstep
      have hcontributes := Contribution.contributes hc
      obtain ⟨hitem, hdistinct⟩ := List.pairwise_cons.mp hdistinct
      obtain ⟨hfree, hnew⟩ := List.forall_mem_cons.mp hnew
      have hnamed (k : AcceptedItem α) (hk : k ∈ c.accepted) : item.name? = some k.name :=
        Contribution.name?_of_accepted hcontributes hk
      have hfresh (k : AcceptedItem α) (hk : k ∈ c.accepted) : s.items.has k.name = false :=
        (hfree k.name (hnamed k hk)).2
      have hloaded := CollectionItem.loaded?_of_contributes hcontributes fun name hname =>
        SymbolTable.clash?_of_plain hrival hspace (hfree name hname).1
      have hlater : ∀ other ∈ items, ∀ name, other.name? = some name →
          (s.add ns define c).symbols.find? ns name = none ∧
            (s.add ns define c).items.has name = false := by
        refine fun other hother name hname => new_add hns hfresh (fun k hk heq => ?_)
          (hnew other hother name hname)
        exact hitem other hother name (heq ▸ hnamed k hk) hname
      rw [ih (s := s.add ns define c) hopen hdistinct hlater hs, items_add hfresh, hloaded,
        List.append_assoc, List.filterMap_cons]
      cases item.loaded? load <;> rfl

/-! ### The first operation that uses an error -/

namespace Logic

def firstUser? (operations : List Operation) (error : String) : Option String :=
  (operations.find? fun o => o.errors.contains error).map (·.name)

/-- An operation that uses an error is kept, and lists it. -/
theorem loaded?_use (limit : Int) (error : String) (item : CollectionItem) :
    (item.use? (loadOperation limit) error).isSome =
        ((item.loaded? (loadOperation limit)).any fun e => e.2.errors.contains error) ∧
      ∀ e ∈ item.loaded? (loadOperation limit), item.name? = some e.2.name := by
  cases item with
  | malformed d => exact ⟨rfl, by simp [CollectionItem.loaded?]⟩
  | named name body path =>
      rw [CollectionItem.use?, CollectionItem.loaded?]
      cases hload : loadOperation limit name body path with
      | error f => exact ⟨rfl, by simp⟩
      | ok found =>
          obtain ⟨loaded, notes⟩ := found
          have hkeys := lists_loadOperation limit name body path loaded notes hload
          have huse : (Named.get? notes.errorUses error).isSome =
              (Named.keys notes.errorUses).contains error := by
            rw [← Named.has, Bool.eq_iff_iff, Named.has_iff_mem_keys, List.contains_iff_mem]
          cases loaded with
          | none =>
              refine ⟨?_, by simp⟩
              dsimp only
              rw [huse, hkeys]
              rfl
          | some o =>
              refine ⟨?_, fun e he => ?_⟩
              · dsimp only
                rw [huse, hkeys]
                rfl
              · cases he
                exact congrArg some (name_loadOperation limit name body path _ _ hload o rfl).symm

theorem firstUser?_loaded (limit : Int) (error : String) (items : List CollectionItem) :
    firstUser? ((items.filterMap (CollectionItem.loaded? (loadOperation limit))).map Prod.snd) error =
      (items.find? fun item => (item.use? (loadOperation limit) error).isSome).bind (·.name?) := by
  induction items with
  | nil => rfl
  | cons item items ih =>
      obtain ⟨huse, hname⟩ := loaded?_use limit error item
      rw [List.filterMap_cons, List.find?_cons, huse]
      cases hloaded : item.loaded? (loadOperation limit) with
      | none => exact ih
      | some e =>
          rw [firstUser?, List.map_cons, List.find?_cons]
          cases hlisted : e.2.errors.contains error with
          | false =>
              rw [Option.any_some, hlisted]
              exact ih
          | true =>
              rw [Option.any_some, hlisted]
              exact (hname e hloaded).symm

end Logic

theorem CollectionItem.firstUse?_eq (items : List CollectionItem) : firstUse? load error items =
    (items.find? fun item => (item.use? load error).isSome).bind (use? load error) := by
  induction items with
  | nil => rfl
  | cons item items ih =>
      rw [firstUse?, List.findSome?_cons, List.find?_cons]
      cases huse : use? load error item with
      | none => exact ih
      | some path => exact huse.symm

instance : Std.Symm CollectionItem.Distinct := ⟨fun _ _ hab name hb ha => hab name ha hb⟩

/-- An error is first used in the same place where the item that uses it first is the same. -/
theorem CollectionItem.firstUse?_perm (hperm : items.Perm items') (hdistinct : items.Pairwise Distinct)
    (h : (items.find? fun item => (item.use? load error).isSome).bind (·.name?) =
      (items'.find? fun item => (item.use? load error).isSome).bind (·.name?)) :
    firstUse? load error items = firstUse? load error items' := by
  have hnamed {x : CollectionItem} (hx : (x.use? load error).isSome = true) :
      ∃ name, x.name? = some name := by
    cases x with
    | malformed d => cases hx
    | named name body path => exact ⟨name, rfl⟩
  rw [firstUse?_eq, firstUse?_eq]
  cases hx : items.find? fun item => (item.use? load error).isSome with
  | none =>
      rw [hx] at h
      cases hy : items'.find? fun item => (item.use? load error).isSome with
      | none => rfl
      | some y =>
          have huse : (y.use? load error).isSome = true := by simpa using List.find?_some hy
          obtain ⟨name, hname⟩ := hnamed huse
          rw [hy, Option.bind_some, hname] at h
          cases h
  | some x =>
      have huse : (x.use? load error).isSome = true := by simpa using List.find?_some hx
      obtain ⟨name, hname⟩ := hnamed huse
      rw [hx, Option.bind_some, hname] at h
      obtain ⟨y, hy, hname'⟩ := Option.bind_eq_some_iff.mp h.symm
      rw [hy]
      have hxmem := List.mem_of_find?_eq_some hx
      have hymem := hperm.mem_iff.mpr (List.mem_of_find?_eq_some hy)
      have heq : x = y := by
        by_contra hne
        exact hdistinct.forall hxmem hymem hne name hname hname'
      rw [heq]

namespace Logic

theorem values_load {operations : Declared Operation} {notes : Notes} (hopen : t.frozen = false)
    (hfresh : ∀ name, t.find? .operation name = none) (h : Logic.load limit v t = .ok operations)
    (hitems : Layer.operationItems v = .ok (items, notes))
    (hdistinct : items.Pairwise CollectionItem.Distinct) : operations.items.values =
      (items.filterMap (CollectionItem.loaded? (loadOperation limit))).map Prod.snd := by
  obtain ⟨⟨items', notes'⟩, hitems', hsteps⟩ := bind_eq_ok.mp h
  cases hitems.symm.trans hitems'
  have hkept := Declared.items_steps (s := (Declared.start t).note notes) (by nofun) rfl rfl hopen
    hdistinct (fun _ _ name _ => ⟨hfresh name, rfl⟩) hsteps
  rw [hkept]
  rfl

/-- The first operation to list an error in the model is the first one to use it. -/
theorem sameFirstUse_of_firstUser {operations operations' : Declared Operation}
    (h : Reordered (under [("operations", Permuted)]) v v') (hopen : t.frozen = false)
    (hopen' : t'.frozen = false) (hfresh : ∀ name, t.find? .operation name = none)
    (hfresh' : ∀ name, t'.find? .operation name = none) (hload : Logic.load limit v t = .ok operations)
    (hload' : Logic.load limit v' t' = .ok operations')
    (hfirst : firstUser? operations.items.values error = firstUser? operations'.items.values error) :
    SameFirstUse limit v v' error := by
  intro items items' notes notes' hitems hitems'
  obtain ⟨hpermuted, hpath⟩ := unwrapped_reordered "logic" "operations" h
  obtain ⟨found, hfound, hperm⟩ := CollectionItem.all_permuted hpermuted hitems
  have hfound : Layer.operationItems v' = .ok (found, notes) := by
    rw [Layer.operationItems, ← hpath]
    exact hfound
  cases hfound.symm.trans hitems'
  rcases hperm with rfl | ⟨hperm, hdistinct⟩
  · rfl
  · have hdistinct' := hperm.pairwise hdistinct fun hxy => Std.Symm.symm _ _ hxy
    rw [values_load hopen hfresh hload hitems hdistinct,
      values_load hopen' hfresh' hload' hitems' hdistinct', firstUser?_loaded, firstUser?_loaded]
      at hfirst
    exact CollectionItem.firstUse?_perm hperm hdistinct hfirst

end Logic

end AppSpec
