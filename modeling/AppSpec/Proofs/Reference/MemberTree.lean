import AppSpec.Proofs.Reference.MappingTarget
import AppSpec.Proofs.Value.Reordered

/-!
Which of the members that a value declares are in its tree. The items of a list share one level, and
a key that is declared there again takes the place of the earlier one with everything below it.
-/

namespace AppSpec

namespace Members

variable {v w : Value} {entries : Entries} {items : List Value} {name : String}
  {names : List String}

/-! ### What is declared -/

/-- The paths of the members that a value declares. A mapping declares its keys, and below a key
what the value there declares; a list declares its texts, and what its mappings declare. -/
inductive Declares : Value → List String → Prop
  | key {entries : Entries} {e : Scalar × Value} (he : e ∈ entries) :
      Declares (.dict entries) [e.1.text]
  | inside {entries : Entries} {e : Scalar × Value} {names : List String} (he : e ∈ entries)
      (h : Declares e.2 names) : Declares (.dict entries) (e.1.text :: names)
  | text {items : List Value} {name : String} (hname : .str name ∈ items) :
      Declares (.list items) [name]
  | item {items : List Value} {entries : Entries} {names : List String}
      (hitem : .dict entries ∈ items) (h : Declares (.dict entries) names) :
      Declares (.list items) names

def entryMembers (entries : Entries) : Named Value := entries.map fun e => (e.1.text, e.2)

def itemMembers : Value → Named Value
  | .str s => [(s, .null)]
  | .dict entries => entryMembers entries
  | _ => []

/-- The declarations at the level of a value itself, in their order, each with what it holds. -/
def members : Value → Named Value
  | .dict entries => entryMembers entries
  | .list items => items.flatMap itemMembers
  | _ => []

theorem not_declares_nil : ¬ Declares v [] := by
  intro h
  generalize hnil : ([] : List String) = names at h
  induction h with
  | key => cases hnil
  | inside => cases hnil
  | text => cases hnil
  | item _ _ ih => exact ih hnil

theorem mem_entryMembers :
    (name, w) ∈ entryMembers entries ↔ ∃ e ∈ entries, e.1.text = name ∧ e.2 = w := by
  simp [entryMembers, List.mem_map, Prod.ext_iff]

theorem declares_dict : Declares (.dict entries) (name :: names) ↔
    ∃ w, (name, w) ∈ entryMembers entries ∧ (names = [] ∨ Declares w names) := by
  constructor
  · intro h
    cases h with
    | key he => exact ⟨_, mem_entryMembers.mpr ⟨_, he, rfl, rfl⟩, .inl rfl⟩
    | inside he h => exact ⟨_, mem_entryMembers.mpr ⟨_, he, rfl, rfl⟩, .inr h⟩
  · rintro ⟨w, hmem, hrest⟩
    obtain ⟨e, he, rfl, rfl⟩ := mem_entryMembers.mp hmem
    rcases hrest with rfl | h
    · exact .key he
    · exact .inside he h

theorem declares_cons : Declares v (name :: names) ↔
    ∃ w, (name, w) ∈ members v ∧ (names = [] ∨ Declares w names) := by
  cases v with
  | dict entries => exact declares_dict
  | list items =>
      constructor
      · intro h
        cases h with
        | text hname =>
            exact ⟨.null, List.mem_flatMap.mpr ⟨_, hname, List.mem_singleton_self _⟩, .inl rfl⟩
        | item hitem h =>
            obtain ⟨w, hmem, hrest⟩ := declares_dict.mp h
            exact ⟨w, List.mem_flatMap.mpr ⟨_, hitem, hmem⟩, hrest⟩
      · rintro ⟨w, hmem, hrest⟩
        obtain ⟨item, hitem, hmem⟩ := List.mem_flatMap.mp hmem
        unfold itemMembers at hmem
        split at hmem
        · cases List.mem_singleton.mp hmem
          rcases hrest with rfl | h
          · exact .text hitem
          · cases h
        · exact .item hitem (declares_dict.mpr ⟨w, hmem, hrest⟩)
        · cases hmem
  | _ =>
      refine iff_of_false (fun h => ?_) fun h => ?_
      · cases h
      · obtain ⟨_, hmem, -⟩ := h
        exact List.not_mem_nil hmem

/-! ### What the tree holds -/

/-- What the last declaration of a name holds. -/
def last? (v : Value) (name : String) : Option Value :=
  Named.get? (members v).reverse name

theorem isSome_last? : (last? v name).isSome = true ↔ ∃ w, (name, w) ∈ members v := by
  rw [last?, ← Named.has.eq_1, Named.has_iff_mem_keys, Named.keys, List.mem_map]
  simp

theorem mem_of_last? (h : last? v name = some w) : (name, w) ∈ members v :=
  List.mem_reverse.mp (Named.mem_of_get? h)

/-- A path whose keys, but for the last one, are each followed where they are declared last. -/
inductive Retains : Value → List String → Prop
  | key {v w : Value} {name : String} (h : (name, w) ∈ members v) : Retains v [name]
  | inside {v w : Value} {name : String} {names : List String} (hlast : last? v name = some w)
      (h : Retains w names) : Retains v (name :: names)

theorem retains_cons : Retains v (name :: names) ↔
    ∃ w, last? v name = some w ∧ (names = [] ∨ Retains w names) := by
  constructor
  · intro h
    cases h with
    | key h =>
        obtain ⟨w, hw⟩ := Option.isSome_iff_exists.mp (isSome_last?.mpr ⟨_, h⟩)
        exact ⟨w, hw, .inl rfl⟩
    | inside hlast h => exact ⟨_, hlast, .inr h⟩
  · rintro ⟨w, hlast, rfl | h⟩
    · exact .key (mem_of_last? hlast)
    · exact .inside hlast h

theorem Retains.declares {path : List String} (h : Retains v path) : Declares v path := by
  induction h with
  | key h => exact declares_cons.mpr ⟨_, h, .inl rfl⟩
  | inside hlast _ ih => exact declares_cons.mpr ⟨_, mem_of_last? hlast, .inr ih⟩

/-- The entries of a mapping whose keys are texts. -/
abbrev texted (xs : Named Value) : Entries := xs.map fun e => (.str e.1, e.2)

theorem any_texted (xs : Named Value) (name : String) :
    (texted xs).any (fun e => e.1.same (.str name)) = Named.has xs name := by
  rw [Bool.eq_iff_iff, Named.has_iff_mem_keys, Named.keys, List.any_map, List.any_eq_true,
    List.mem_map]
  simp [Scalar.same_str]

theorem insert_texted {xs : Named Value} (hn : (Named.keys xs).Nodup) (name : String) (v : Value) :
    Entries.insert (texted xs) (.str name) v = texted (xs.set name v) := by
  rw [Entries.insert, any_texted]
  cases h : Named.has xs name with
  | true =>
      rw [if_pos rfl, Named.set_eq_map hn h, texted, texted, List.map_map, List.map_map]
      refine List.map_congr_left fun e _ => ?_
      simp only [Function.comp, Scalar.same_str, beq_iff_eq]
      split <;> rfl
  | false =>
      rw [if_neg Bool.false_ne_true, Named.set_of_not_has v h, texted, texted, List.map_append]
      rfl

theorem foldl_insert_texted {xs : Named Value} (hn : (Named.keys xs).Nodup) (more : Named Value) :
    (texted more).foldl (fun kept e => Entries.insert kept e.1 e.2) (texted xs) =
      texted (xs.setAll more) := by
  induction more generalizing xs with
  | nil => rfl
  | cons entry more ih =>
      obtain ⟨key, value⟩ := entry
      have hcons : texted ((key, value) :: more) = (.str key, value) :: texted more := rfl
      rw [hcons, List.foldl_cons, insert_texted hn, ih (Named.nodup_keys_set hn key value)]
      rfl

/-- What the tree holds in place of what is declared. -/
def grown (xs : Named Value) : Named Value := xs.map fun e => (e.1, body e.2)

theorem entryTrees_texted {xs : Named Value} (hn : (Named.keys xs).Nodup) (entries : Entries) :
    entryTrees entries (texted xs) = texted (xs.setAll (grown (entryMembers entries))) := by
  induction entries generalizing xs with
  | nil => rfl
  | cons entry entries ih =>
      obtain ⟨key, v⟩ := entry
      rw [entryTrees, insert_texted hn, ih (Named.nodup_keys_set hn _ _)]
      rfl

theorem get?_setAll_grown (xs members : Named Value) (name : String) :
    Named.get? (xs.setAll (grown members)) name =
      ((Named.get? members.reverse name).map body).or (xs.get? name) := by
  rw [Named.get?_setAll_last, grown, ← List.map_reverse, Named.get?_map]

theorem itemTrees_text (name : String) (items : List Value) (found : Entries) :
    itemTrees (.str name :: items) found =
      itemTrees items (Entries.insert found (.str name) .null) := rfl

theorem itemTrees_dict (entries : Entries) (items : List Value) (found : Entries) :
    itemTrees (.dict entries :: items) found =
      itemTrees items
        ((entryTrees entries []).foldl (fun kept e => Entries.insert kept e.1 e.2) found) := rfl

theorem itemTrees_texted {xs : Named Value} (hn : (Named.keys xs).Nodup) (items : List Value) :
    ∃ ys : Named Value, itemTrees items (texted xs) = texted ys ∧ ∀ name,
      ys.get? name = ((Named.get? (items.flatMap itemMembers).reverse name).map body).or
        (xs.get? name) := by
  induction items generalizing xs with
  | nil => exact ⟨xs, rfl, fun name => rfl⟩
  | cons item items ih =>
      -- what one item declares lies over what the items before it have left
      have hlevel : ∃ zs : Named Value, (Named.keys zs).Nodup ∧
          itemTrees (item :: items) (texted xs) = itemTrees items (texted zs) ∧ ∀ name,
          zs.get? name = ((Named.get? (itemMembers item).reverse name).map body).or
            (xs.get? name) := by
        cases item with
        | scalar s =>
            cases s with
            | str s =>
                refine ⟨xs.set s .null, Named.nodup_keys_set hn s .null, ?_, fun name => ?_⟩
                · rw [itemTrees_text, insert_texted hn]
                · exact get?_setAll_grown xs [(s, .null)] name
            | _ => exact ⟨xs, hn, rfl, fun name => rfl⟩
        | dict entries =>
            have hgrown := @entryTrees_texted [] List.nodup_nil entries
            have hinner := @Named.nodup_keys_setAll _ [] List.nodup_nil
              (grown (entryMembers entries))
            refine ⟨xs.setAll (Named.setAll [] (grown (entryMembers entries))),
              Named.nodup_keys_setAll hn _, ?_, fun name => ?_⟩
            · rw [itemTrees_dict, ← List.map_nil, hgrown, foldl_insert_texted hn]
            · rw [Named.get?_setAll hinner, get?_setAll_grown, Named.get?, Option.or_none]
              rfl
        | _ => exact ⟨xs, hn, rfl, fun name => rfl⟩
      obtain ⟨zs, hzs, htree, hget⟩ := hlevel
      obtain ⟨ys, hys, hget'⟩ := ih hzs
      refine ⟨ys, htree.trans hys, fun name => ?_⟩
      rw [hget', hget, List.flatMap_cons, List.reverse_append, Named.get?_append, Option.map_or,
        Option.or_assoc]

/-- Under each key the tree holds what the last declaration of the key gives. -/
theorem text?_tree (v : Value) (name : String) :
    Entries.text? (tree v) name = (last? v name).map body := by
  cases v with
  | dict entries =>
      have hgrown := @entryTrees_texted [] List.nodup_nil entries
      rw [tree, ← List.map_nil, hgrown, Entries.text?_mapping, get?_setAll_grown, Named.get?,
        Option.or_none]
      rfl
  | list items =>
      obtain ⟨ys, hys, hget⟩ := @itemTrees_texted [] List.nodup_nil items
      rw [tree, ← List.map_nil, hys, Entries.text?_mapping, hget, Named.get?, Option.or_none]
      rfl
  | _ => rfl

theorem keyPath_body : KeyPath (body v) names ↔ KeyPath (.dict (tree v)) names := by
  cases names with
  | nil => exact iff_of_true (.nil _) (.nil _)
  | cons name names =>
      cases v with
      | dict entries => rw [body, tree]
      | list items => rw [body, tree]
      | _ => exact iff_of_false nofun nofun

theorem keyPath_dict : KeyPath (.dict entries) (name :: names) ↔
    ∃ w, Entries.text? entries name = some w ∧ KeyPath w names := by
  constructor
  · rintro (_ | ⟨hname, hrest⟩)
    exact ⟨_, hname, hrest⟩
  · rintro ⟨w, hname, hrest⟩
    exact .cons hname hrest

theorem keyPath_tree : KeyPath (.dict (tree v)) names ↔ names = [] ∨ Retains v names := by
  induction names generalizing v with
  | nil => exact iff_of_true (.nil _) (.inl rfl)
  | cons name names ih =>
      rw [keyPath_dict, retains_cons, text?_tree]
      simp [keyPath_body, ih]

/-! ### Values that declare each member once -/

/-- No list in the value declares a key twice, and its mappings have distinct keys. -/
inductive Distinct : Value → Prop
  | mk {v : Value} (hkeys : (Named.keys (members v)).Nodup)
      (hmembers : ∀ m ∈ members v, Distinct m.2) : Distinct v

theorem retains_of_distinct (hv : Distinct v) (h : Declares v names) : Retains v names := by
  induction names generalizing v with
  | nil => exact absurd h not_declares_nil
  | cons name names ih =>
      obtain ⟨hkeys, hmembers⟩ := hv
      obtain ⟨w, hmem, hrest⟩ := declares_cons.mp h
      have hlast : last? v name = some w := by
        refine Named.get?_of_mem ?_ (List.mem_reverse.mpr hmem)
        rw [Named.keys, List.map_reverse, List.nodup_reverse]
        exact hkeys
      exact retains_cons.mpr ⟨w, hlast, hrest.imp_right (ih (hmembers _ hmem))⟩

/-- The tree of a value holds the paths whose keys are each followed where they are declared last.
All of them are declared, and so are all keys at the level of the value itself; a path that is
declared further down is there as well where no list declares a key twice. -/
theorem keyPath_tree_exact (v : Value) (name : String) (names : List String) :
    (KeyPath (.dict (tree v)) (name :: names) ↔ Retains v (name :: names)) ∧
      (KeyPath (.dict (tree v)) (name :: names) → Declares v (name :: names)) ∧
      (KeyPath (.dict (tree v)) [name] ↔ Declares v [name]) ∧
      (Distinct v → (KeyPath (.dict (tree v)) (name :: names) ↔ Declares v (name :: names))) := by
  have hexact (names : List String) :
      KeyPath (.dict (tree v)) (name :: names) ↔ Retains v (name :: names) := by
    rw [keyPath_tree, or_iff_right (List.cons_ne_nil _ _)]
  refine ⟨hexact names, fun h => ((hexact names).mp h).declares, ?_, fun hv => ?_⟩
  · rw [hexact]
    refine ⟨Retains.declares, fun h => ?_⟩
    obtain ⟨w, hmem, -⟩ := declares_cons.mp h
    exact .key hmem
  · rw [hexact]
    exact ⟨Retains.declares, retains_of_distinct hv⟩

def versions : Value :=
  .list [.str "list",
    .dict [(.str "v1", .list [.str "get", .dict [(.str "admin", .list [.str "purge"])]])]]

theorem distinct_versions : Distinct versions := by
  have hscalar (s : Scalar) : Distinct (.scalar s) := .mk List.nodup_nil nofun
  have hpurge : Distinct (.list [.str "purge"]) :=
    .mk (by decide) (List.forall_mem_singleton.mpr (hscalar _))
  have hlist : Distinct (.list [.str "get", .dict [(.str "admin", .list [.str "purge"])]]) :=
    .mk (by decide) (List.forall_mem_cons.mpr ⟨hscalar _, List.forall_mem_singleton.mpr hpurge⟩)
  exact .mk (by decide)
    (List.forall_mem_cons.mpr ⟨hscalar _, List.forall_mem_singleton.mpr hlist⟩)

theorem keyPath_tree_exact_versions :
    Distinct versions ∧ KeyPath (.dict (tree versions)) ["v1", "admin", "purge"] := by
  obtain ⟨-, -, -, hdistinct⟩ := keyPath_tree_exact versions "v1" ["admin", "purge"]
  refine ⟨distinct_versions, (hdistinct distinct_versions).mpr ?_⟩
  have hpurge : Declares (.list [.str "purge"]) ["purge"] := .text List.mem_cons_self
  have hadmin : Declares (.dict [(.str "admin", .list [.str "purge"])]) ["admin", "purge"] :=
    .inside List.mem_cons_self hpurge
  have hlist : Declares (.list [.str "get", .dict [(.str "admin", .list [.str "purge"])]])
      ["admin", "purge"] := .item (by simp) hadmin
  exact .item (List.mem_cons_of_mem _ List.mem_cons_self) (.inside List.mem_cons_self hlist)

/-- Two mappings of a list that declare the same key: the members of the first one are lost. -/
theorem keyPath_tree_hidden :
    let v : Value := .list [.dict [(.str "v1", .dict [(.str "get", .null)])],
      .dict [(.str "v1", .dict [(.str "put", .null)])]]
    Declares v ["v1", "get"] ∧ ¬ KeyPath (.dict (tree v)) ["v1", "get"] := by
  intro v
  refine ⟨?_, ?_⟩
  · exact .item List.mem_cons_self (.inside List.mem_cons_self (.key List.mem_cons_self))
  · rw [← Resolve.missing?_eq_none "api"]
    decide

end Members

end AppSpec
