import AppSpec.Proofs.Layer.Behaves
import AppSpec.Proofs.Yaml.Spelled

/-!
Items of lists under the names that loaders give them. The values that loaders come to are made of
nodes that are located under the same paths, if texts are written as texts and no item on the way
has an `id` before its `name`.
-/

namespace AppSpec

/-- An `id` stands before the `name`. -/
def Value.idFirst : Value → Bool
  | .dict entries =>
      (entries.dropWhile fun e => !e.1.same (.str "id")).any fun e => e.1.same (.str "name")
  | _ => false

/-- What loaders come to from a value at a path: what stands under texts, and the items of lists by
their indexes and by their names, where no `id` stands before these. -/
inductive Value.Reaches : Value → String → Value → String → Prop
  | refl (v : Value) (path : String) : Reaches v path v path
  | value {entries : Entries} {path there : String} {v w : Value} (key : String)
      (hv : Entries.text? entries key = some v) (more : v.Reaches (Path.child path key) w there) :
      Reaches (.dict entries) path w there
  | item {items : List Value} {p : Nat × Value} {path there : String} {w : Value}
      (hp : p ∈ Load.indexed items) (more : p.2.Reaches (Path.item path p.1) w there) :
      Reaches (.list items) path w there
  | named {items : List Value} {p : Nat × Value} {path name below there : String} {body w : Value}
      (hp : p ∈ Load.indexed items)
      (hname : CollectionItem.ofListItem path p = .named name body below)
      (hfirst : p.2.idFirst = false) (more : p.2.Reaches below w there) :
      Reaches (.list items) path w there

/-! ### What gives an item its name -/

theorem Entries.text?_of_field {entries : Entries} {key text : String}
    (h : field entries key = .str text) : text? entries key = some (.str text) := by
  unfold field at h
  cases hv : text? entries key with
  | none =>
      rw [hv] at h
      cases h
  | some v =>
      rw [hv, Option.getD_some] at h
      rw [h]

theorem CollectionItem.nameKey?_eq_some {entries : Entries} {key : String}
    (h : nameKey? entries = some key) :
    key = "name" ∨ key = "id" ∧ Entries.text? entries "name" = none := by
  simp only [nameKey?, List.find?_cons, List.find?_nil] at h
  split at h
  · cases h
    exact .inl rfl
  · next hnone =>
      split at h
      · cases h
        exact .inr ⟨rfl, by simpa [Entries.has] using hnone⟩
      · cases h

/-- What gives an item its name: the text under `name`, or under `id` where there is no `name`. -/
theorem CollectionItem.exists_name {path there name : String} {p : Nat × Value} {body : Value}
    (h : ofListItem path p = .named name body there) :
    there = Path.child path name ∧ name.isEmpty = false ∧ ∃ entries key, p.2 = .dict entries ∧
      Entries.text? entries key = some (.str name) ∧
      (key = "name" ∨ key = "id" ∧ Entries.text? entries "name" = none) := by
  unfold ofListItem at h
  split at h
  · next entries hp =>
      split at h
      · cases h
      · next key hkey =>
          split at h
          · next hfield =>
              split at h
              · cases h
              · next hempty =>
                  cases h
                  exact ⟨rfl, Bool.not_eq_true _ ▸ hempty, entries, key, hp,
                    Entries.text?_of_field hfield, nameKey?_eq_some hkey⟩
          · cases h
  · cases h

theorem ne_id_of_idFirst {front back : Entries} {v : Value}
    (h : (Value.dict (front ++ (.str "name", v) :: back)).idFirst = false) :
    ∀ o ∈ front, o.1 ≠ .str "id" := by
  intro o ho heq
  rw [Value.idFirst, List.dropWhile_append] at h
  split at h
  · next hempty =>
      have hall := List.dropWhile_eq_nil_iff.mp (List.isEmpty_iff.mp hempty) o ho
      rw [heq, Scalar.same_str] at hall
      simp at hall
  · rw [List.any_append, Bool.or_eq_false_iff, List.any_cons, Scalar.same_str] at h
    simp at h

/-- Nothing before what gives an item its name could give it another. -/
theorem not_named_before {front back : Entries} {key : String} {v : Value}
    (hkey : key = "name" ∨
      key = "id" ∧ Entries.text? (front ++ (.str key, v) :: back) "name" = none)
    (hfirst : (Value.dict (front ++ (.str key, v) :: back)).idFirst = false)
    (hfront : ∀ o ∈ front, o.1 ≠ .str key) :
    ∀ o ∈ front, o.1 ≠ .str "name" ∧ o.1 ≠ .str "id" := by
  intro o ho
  rcases hkey with rfl | ⟨rfl, hnone⟩
  · exact ⟨hfront o ho, ne_id_of_idFirst hfirst o ho⟩
  · refine ⟨fun heq => ?_, hfront o ho⟩
    have hall := List.find?_eq_none.mp (Option.map_eq_none_iff.mp hnone) o
      (List.mem_append_left _ ho)
    rw [heq, Scalar.same_str] at hall
    simp at hall

namespace Yaml

open Builder

/-! ### Located items -/

section Names

variable {g : NodeGraph} {raw : RawGraph} {b : Builder}

/-- The name that an item gives itself is the first one that its node writes. -/
theorem itemName?_eq (hb : g.build = .ok (raw, b)) (hs : g.Spelled) {i steps : Nat}
    {item : RawItem} {entries : Entries} {key name : String} (hmade : Made b.made i item)
    (h : RawGraph.unfoldItem (raw.unfold steps) item = .dict entries)
    (hv : Entries.text? entries key = some (.str name)) (hempty : name.isEmpty = false)
    (hkey : key = "name" ∨ key = "id" ∧ Entries.text? entries "name" = none)
    (hfirst : (Value.dict entries).idFirst = false) : g.itemName? i = some name := by
  obtain ⟨c, steps', held, hi, hc, rfl⟩ := unfold_eq_dict hb hmade h
  obtain ⟨front, item', back, rfl, hitem, hfront⟩ := exists_rawEntry hv
  obtain ⟨before, k, j, after, hpairs, -, hk, hvalue, hbefore⟩ := exists_pair hb hs hi hc
  have hmem : (k, j) ∈ pairsAt g.nodes i := by simp [hpairs]
  have hname : g.text? j = some name :=
    (text?_of_made hb hs (eq_value_of_unfold hb hvalue hitem.symm ▸ hvalue)).2
  rw [List.map_append, List.map_cons] at hkey hfirst
  have hnone := List.forall_mem_map.mp
    (not_named_before hkey hfirst (List.forall_mem_map.mpr hfront))
  obtain ⟨n, hn, hcontent⟩ := content_of_mem_pairsAt hmem
  have hpairs? : g.pairs? i = some (before ++ (k, j) :: after) := by
    rw [NodeGraph.pairs?, hn, Option.bind_some, Node.pairs?, hcontent, ← hpairs]
  rw [NodeGraph.itemName?, hpairs?, Option.bind_some]
  -- A pair before it with one of the two keys would have given an entry before the one taken.
  refine List.findSome?_eq_some_iff.mpr ⟨before, (k, j), after, rfl, ?_, fun p hp => ?_⟩
  · rcases hkey with rfl | ⟨rfl, -⟩ <;> simp [hk, hname, hempty, NodeGraph.isNameKey]
  · split
    · next t other ht _ =>
        refine if_neg fun hnamed => ?_
        have hkeyed : NodeGraph.isNameKey t = true := (Bool.and_eq_true_iff.mp hnamed).1
        have hp' : p ∈ pairsAt g.nodes i := by simp [hpairs, hp]
        have htext := hs.named i (lt_size_of_mem_pairsAt hmem) p hp' (by simp [ht, hkeyed])
        obtain ⟨o, ho, heq⟩ := hbefore p hp t htext ht
        rcases Bool.or_eq_true_iff.mp hkeyed with h | h <;> rw [beq_iff_eq.mp h] at heq
        · exact (hnone o ho).1 heq
        · exact (hnone o ho).2 heq
    · rfl

/-- The value is made of a node that is located at the path. -/
def Sited (g : NodeGraph) (raw : RawGraph) (b : Builder) (s : Index) (v : Value) (path : String) :
    Prop :=
  ∃ i steps item, g.Located s i path ∧ Made b.made i item ∧
    v = RawGraph.unfoldItem (raw.unfold steps) item

namespace Sited

variable {s : Index} {path : String} {items : List Value} {p : Nat × Value}

theorem value (hb : g.build = .ok (raw, b)) (hs : g.Spelled) {entries : Entries} {key : String}
    {v : Value} (h : Sited g raw b s (.dict entries) path)
    (hv : Entries.text? entries key = some v) : Sited g raw b s v (Path.child path key) := by
  obtain ⟨i, steps, item, hi, hmade, hdict⟩ := h
  obtain ⟨j, steps', item', hj, hmade', hvalue⟩ := exists_value hb hs hmade hdict.symm hv
  exact ⟨j, steps', item', hi.value hj, hmade', hvalue⟩

theorem item (hb : g.build = .ok (raw, b)) (h : Sited g raw b s (.list items) path)
    (hp : p ∈ Load.indexed items) :
    (∃ parts, p.2 = .tuple parts) ∨ Sited g raw b s p.2 (Path.item path p.1) := by
  obtain ⟨i, steps, item, hi, hmade, hlist⟩ := h
  refine (exists_item hb hmade hlist.symm (Load.mem_indexed_iff.mp hp)).imp_right ?_
  rintro ⟨j, steps', item', hj, hmade', hvalue⟩
  exact ⟨j, steps', item', (hi.item hj).1, hmade', hvalue⟩

/-- An item of a list is located under its name, unless an `id` stands before that. -/
theorem named (hb : g.build = .ok (raw, b)) (hs : g.Spelled) {name there : String} {body : Value}
    (h : Sited g raw b s (.list items) path) (hp : p ∈ Load.indexed items)
    (hname : CollectionItem.ofListItem path p = .named name body there)
    (hfirst : p.2.idFirst = false) :
    s.positions.has there = true ∧ Sited g raw b s p.2 there := by
  obtain ⟨rfl, hempty, entries, key, hentries, hkey, hnone⟩ := CollectionItem.exists_name hname
  obtain ⟨i, steps, item, hi, hmade, hlist⟩ := h
  rcases exists_item hb hmade hlist.symm (Load.mem_indexed_iff.mp hp) with
    ⟨parts, htuple⟩ | ⟨j, steps', item', hj, hmade', hvalue⟩
  · rw [hentries] at htuple
    cases htuple
  · have hdict := hvalue.symm.trans hentries
    rw [hentries] at hfirst
    have hname' := itemName?_eq hb hs hmade' hdict hkey hempty hnone hfirst
    obtain ⟨hnoted, hlocated⟩ := (hi.item hj).2 name hname'
    exact ⟨hnoted, j, steps', item', hlocated, hmade', hvalue⟩

/-- What loaders come to is made of located nodes, but for tuples. -/
theorem reaches (hb : g.build = .ok (raw, b)) (hs : g.Spelled) {v w : Value} {there : String}
    (h : Sited g raw b s v path) (hreach : v.Reaches path w there) :
    (∃ parts, w = .tuple parts) ∨ Sited g raw b s w there := by
  induction hreach with
  | refl v path => exact .inr h
  | value key hv more ih => exact ih (h.value hb hs hv)
  | item hp more ih =>
      rcases h.item hb hp with ⟨parts, htuple⟩ | hitem
      · rw [htuple] at more
        cases more
        exact .inl ⟨parts, rfl⟩
      · exact ih hitem
  | named hp hname hfirst more ih => exact ih (h.named hb hs hp hname hfirst).2

end Sited

theorem load_item_names {cs : List Char} {loaded : Loaded} {items : List Value} {p : Nat × Value}
    {path name there : String} {body : Value} (hg : NodeGraph.ofText? cs = .ok (some g))
    (hl : load cs = .ok loaded) (hs : g.Spelled)
    (hitems : loaded.graph.value.Reaches "" (.list items) path) (hp : p ∈ Load.indexed items)
    (hname : CollectionItem.ofListItem path p = .named name body there)
    (hfirst : p.2.idFirst = false) : loaded.positions.has there = true := by
  obtain ⟨⟨b, hb⟩, s, hindex, hpositions, -⟩ := exists_build hg hl
  obtain ⟨-, hroot, -⟩ := NodeGraph.settled_build hb
  have hstart : Sited g loaded.graph b s loaded.graph.value "" :=
    ⟨g.root, _, _, located_root hindex, hroot, rfl⟩
  have hlist := (hstart.reaches hb hs hitems).resolve_left fun ⟨_, h⟩ => nomatch h
  exact hpositions ▸ (hlist.named hb hs hp hname hfirst).1

end Names

/-- The text of a document, read and loaded, of whose nodes and value something holds. -/
def loadsTo (cs : List Char) (holds : NodeGraph → Loaded → Bool) : Bool :=
  match NodeGraph.ofText? cs, load cs with
  | .ok (some g), .ok loaded => holds g loaded
  | _, _ => false

theorem exists_of_loadsTo {cs : List Char} {holds : NodeGraph → Loaded → Bool}
    (h : loadsTo cs holds = true) : ∃ g loaded, NodeGraph.ofText? cs = .ok (some g) ∧
      load cs = .ok loaded ∧ holds g loaded = true := by
  unfold loadsTo at h
  split at h
  · next g loaded hg hl => exact ⟨g, loaded, hg, hl, h⟩
  · cases h

/-- A named item with a list of its own, whose item has no name but an `id`. -/
def nestedText : String :=
  "components:\n  - name: a\n    id: x\n    props:\n      - id: c\n"

def isNested (g : NodeGraph) (loaded : Loaded) : Bool :=
  decide g.Spelled &&
    match loaded.graph.value with
    | .dict [(.str "components", .list [.dict [(.str "name", .str "a"), (.str "id", .str "x"),
        (.str "props", .list [.dict [(.str "id", .str "c")]])]])] => true
    | _ => false

theorem loadsTo_nestedText : loadsTo nestedText.toList isNested = true := by decide +kernel

theorem load_item_names_nested :
    ∃ g loaded, NodeGraph.ofText? nestedText.toList = .ok (some g) ∧
      load nestedText.toList = .ok loaded ∧ g.Spelled ∧
      loaded.positions.has "components.a.props.c" = true := by
  obtain ⟨g, loaded, hg, hl, h⟩ := exists_of_loadsTo loadsTo_nestedText
  obtain ⟨hs, h⟩ := Bool.and_eq_true_iff.mp h
  split at h
  · next hvalue =>
      have hs := of_decide_eq_true hs
      have hprops : loaded.graph.value.Reaches "" (.list [.dict [(.str "id", .str "c")]])
          "components.a.props" := by
        rw [hvalue]
        refine .value "components" rfl ?_
        refine .named List.mem_cons_self rfl ?_ ?_
        · rfl
        · exact .value "props" rfl (.refl _ _)
      exact ⟨g, loaded, hg, hl, hs,
        load_item_names hg hl hs hprops List.mem_cons_self rfl rfl⟩
  · cases h

/-- An item with an `id` before its `name`. -/
def idFirstText : String := "components:\n  - id: a\n    name: b\n"

def isIdFirst (g : NodeGraph) (loaded : Loaded) : Bool :=
  decide g.Spelled && !loaded.positions.has "components.b" &&
    match loaded.graph.value with
    | .dict [(.str "components", .list [.dict [(.str "id", .str "a"), (.str "name", .str "b")]])] =>
        true
    | _ => false

theorem loadsTo_idFirstText : loadsTo idFirstText.toList isIdFirst = true := by decide +kernel

/-- The name that a loader gives an item behind its `id` is not located. -/
theorem load_item_name_behind_id :
    ∃ g loaded items p body, NodeGraph.ofText? idFirstText.toList = .ok (some g) ∧
      load idFirstText.toList = .ok loaded ∧ g.Spelled ∧
      loaded.graph.value.Reaches "" (.list items) "components" ∧ p ∈ Load.indexed items ∧
      CollectionItem.ofListItem "components" p = .named "b" body "components.b" ∧
      loaded.positions.has "components.b" = false := by
  obtain ⟨g, loaded, hg, hl, h⟩ := exists_of_loadsTo loadsTo_idFirstText
  obtain ⟨h, hvalue⟩ := Bool.and_eq_true_iff.mp h
  obtain ⟨hs, hnot⟩ := Bool.and_eq_true_iff.mp h
  split at hvalue
  · next heq =>
      have hitems : loaded.graph.value.Reaches ""
          (.list [.dict [(.str "id", .str "a"), (.str "name", .str "b")]]) "components" := by
        rw [heq]
        exact .value "components" rfl (.refl _ _)
      exact ⟨g, loaded, _, (0, _), _, hg, hl, of_decide_eq_true hs, hitems, List.mem_cons_self,
        rfl, (Bool.not_eq_true' _).mp hnot⟩
  · cases hvalue

end Yaml

end AppSpec
