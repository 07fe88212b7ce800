import AppSpec.Proofs.Yaml.Located

/-!
Documents that write their texts as texts. What stands under a text in a value is made of the first
node under it, and the items of a list are made of those of a sequence.
-/

namespace AppSpec

theorem Scalar.eq_str_of_same {s : Scalar} {t : String} (h : s.same (.str t) = true) :
    s = .str t := by
  cases s with
  | str s => rw [beq_iff_eq.mp h]
  | _ => simp [Scalar.same, Scalar.toInt?] at h

theorem Entries.exists_of_text? {entries : Entries} {key : String} {v : Value}
    (h : Entries.text? entries key = some v) :
    ∃ front back, entries = front ++ (.str key, v) :: back ∧ ∀ o ∈ front, o.1 ≠ .str key := by
  obtain ⟨⟨_, _⟩, hfind, rfl⟩ := Option.map_eq_some_iff.mp h
  obtain ⟨hsame, front, back, rfl, hfront⟩ := List.find?_eq_some_iff_append.mp hfind
  cases Scalar.eq_str_of_same hsame
  refine ⟨front, back, rfl, fun o ho heq => ?_⟩
  have hnot := hfront o ho
  rw [heq, Scalar.same_str] at hnot
  simp at hnot

/-- What a container holds, as a value. -/
def RawNode.unfold (unfold : Nat → Value) : RawNode → Value
  | .dict entries => .dict (entries.map fun e => (e.1, RawGraph.unfoldItem unfold e.2))
  | .list items => .list (RawGraph.unfoldItems unfold items)
  | .set items => .set items

theorem RawGraph.getElem?_unfoldItems {unfold : Nat → Value} {items : List RawItem} {n : Nat} :
    (unfoldItems unfold items)[n]? = items[n]?.map (unfoldItem unfold) := by
  induction items generalizing n with
  | nil => rfl
  | cons item rest ih =>
      cases n with
      | zero => rfl
      | succ n => exact ih

namespace Yaml

open Builder

namespace NodeGraph

/-- The node stands for a text; as a key, so does a value of its own. -/
def isText (g : NodeGraph) (k : Nat) : Bool :=
  match g.nodes[k]? with
  | some n => n.tag == Tag.str || n.tag == Tag.value
  | none => false

/-- Nothing is merged, texts are written as scalars, keys of a mapping that are written alike are
texts together, and `name` and `id` are texts. -/
structure Spelled (g : NodeGraph) : Prop where
  mergeFree : ∀ i < g.nodes.size, ∀ p ∈ pairsAt g.nodes i,
    isMergeAt g.nodes p.1 = false ∧ g.text? p.1 ≠ some mergeKey
  written : ∀ k < g.nodes.size, g.isText k = true → (g.text? k).isSome
  alike : ∀ i < g.nodes.size, ∀ p ∈ pairsAt g.nodes i, ∀ q ∈ pairsAt g.nodes i,
    g.text? p.1 = g.text? q.1 → g.isText p.1 = g.isText q.1
  named : ∀ i < g.nodes.size, ∀ p ∈ pairsAt g.nodes i,
    (g.text? p.1).any isNameKey = true → g.isText p.1 = true

instance (g : NodeGraph) : Decidable g.Spelled :=
  decidable_of_iff (_ ∧ _ ∧ _ ∧ _)
    ⟨fun ⟨h₁, h₂, h₃, h₄⟩ => ⟨h₁, h₂, h₃, h₄⟩, fun h => ⟨h.mergeFree, h.written, h.alike, h.named⟩⟩

end NodeGraph

theorem ScalarValue.ofText_eq_str {text s : String} {mark : Mark} {kind : Tag.ScalarKind}
    (h : ScalarValue.ofText text mark kind = .ok (.str s)) : kind = .str ∧ text = s := by
  cases kind with
  | str =>
      cases h
      exact ⟨rfl, rfl⟩
  | null => cases h
  | bool =>
      simp only [ofText] at h
      split at h <;> cases h
  | int =>
      simp only [ofText] at h
      cases hn : Number.integer text.toList <;> rw [hn] at h <;> cases h
  | float =>
      simp only [ofText] at h
      cases hn : Number.real text.toList <;> rw [hn] at h <;> cases h
  | binary =>
      simp only [ofText] at h
      cases hb : bytes text mark <;> rw [hb] at h <;> cases h
  | timestamp =>
      simp only [ofText, moment] at h
      split at h
      · next w _ =>
          unfold WrittenMoment.scalar at h
          split at h
          · split at h <;> cases h
          · dsimp only at h
            split at h <;> cases h
      · cases h

theorem Tag.eq_str_of_meaning {tag : String} (h : Tag.meaning? tag = some (.scalar .str)) :
    tag = Tag.str := by
  obtain ⟨m, hm, heq⟩ := Option.map_eq_some_iff.mp h
  have htag := List.find?_some hm
  have hall : ∀ m ∈ Tag.meanings, m.2 = .scalar .str → m.1 = Tag.str := by decide
  rw [← beq_iff_eq.mp htag]
  exact hall m (List.mem_of_find?_eq_some hm) heq

section Texts

variable {g : NodeGraph} {k : Nat}

theorem isText_of_gives {s : String} (h : Gives g.nodes k (.value (.scalar (.str s)))) :
    g.isText k = true ∧ ∀ own, g.text? k = some own → own = s := by
  cases h with
  | scalar hn htag hs hown =>
      obtain ⟨rfl, rfl⟩ := ScalarValue.ofText_eq_str hs
      refine ⟨?_, hown⟩
      rw [NodeGraph.isText, hn]
      rcases htag with htag | ⟨htag, -⟩
      · simp [Tag.eq_str_of_meaning htag]
      · simp [htag]

theorem eq_str_of_isText {own : String} {item : RawItem} (hk : g.isText k = true)
    (hown : g.text? k = some own) (h : Gives g.nodes k item) :
    item = .value (.scalar (.str own)) := by
  unfold NodeGraph.isText at hk
  have hmeaning {n : Node} {m : Tag.Meaning} (hn : g.nodes[k]? = some n)
      (hm : Tag.meaning? n.tag = some m) : m = .scalar .str := by
    rw [hn] at hk
    rcases Bool.or_eq_true_iff.mp hk with htag | htag
    · rw [beq_iff_eq.mp htag, meaning_str] at hm
      exact (Option.some.inj hm).symm
    · rw [beq_iff_eq.mp htag, meaning_value] at hm
      cases hm
  cases h with
  | scalar hn htag hs hsame =>
      rw [← hsame own hown] at hs
      rcases htag with htag | ⟨-, rfl⟩
      · cases hmeaning hn htag
        cases hs
        rfl
      · cases hs
        rfl
  | container hn htag => cases hmeaning hn htag

end Texts

/-- A key that is one with a text is that text. -/
theorem Builder.KeyOf.eq_str_of_same {made : Array (Option RawItem)} {o key : Key} {k k' : Nat}
    {t : String} (ho : KeyOf made k' o) (hk : KeyOf made k key) (hkey : key.scalar = .str t)
    (h : o.same key = true) : o.scalar = .str t := by
  rw [Key.same, Bool.or_eq_true] at h
  rcases h with h | h
  · rw [hkey] at h
    exact Scalar.eq_str_of_same h
  · have hfrom : key.origin = some k := by
      refine hk.origin.resolve_right ?_
      rintro ⟨-, x, hx, -⟩
      rw [hkey] at hx
      cases hx
    rcases ho.origin with hfrom' | ⟨hnone, -⟩
    · rw [hfrom, hfrom', beq_iff_eq] at h
      cases h
      have hmade := ho.isMade.unique hk.isMade
      rw [hkey, RawItem.value.injEq, Value.scalar.injEq] at hmade
      exact hmade
    · rw [hfrom, hnone] at h
      cases h

/-! ### What is made of nodes -/

section Values

variable {g : NodeGraph} {raw : RawGraph} {b : Builder}

theorem lt_size_of_isText {k : Nat} (h : g.isText k = true) : k < g.nodes.size := by
  unfold NodeGraph.isText at h
  split at h
  · next hn => exact (Array.getElem?_eq_some_iff.mp hn).1
  · cases h

section Built

variable (hb : g.build = .ok (raw, b))

include hb

theorem made_of_text? {k : Nat} {t : String} {item : RawItem}
    (hk : g.isText k = true) (ht : g.text? k = some t) (h : Made b.made k item) :
    item = .value (.str t) :=
  eq_str_of_isText hk ht <| (NodeGraph.gives_build hb h).resolve_right fun ⟨hout, _⟩ =>
    Nat.not_lt_of_le hout (lt_size_of_isText hk)

theorem item_of_made {i : Nat} {item : RawItem}
    (h : Made b.made i item) :
    (∃ s, item = .value (.scalar s)) ∨
      ∃ c, item = .node c ∧ b.made[i]? = some (some (.node c)) := by
  rcases h with h | ⟨-, rfl⟩
  · rcases NodeGraph.gives_build hb (.inl h) with hgives | ⟨-, rfl⟩
    · cases hgives with
      | scalar => exact .inl ⟨_, rfl⟩
      | container => exact .inr ⟨_, rfl, h⟩
    · exact .inl ⟨_, rfl⟩
  · exact .inl ⟨_, rfl⟩

/-- What is made unfolds to a scalar, or to what a container holds. -/
theorem unfold_cases {i steps : Nat} {item : RawItem} (hmade : Made b.made i item) :
    (∃ s, RawGraph.unfoldItem (raw.unfold steps) item = .scalar s ∧
      (item = .value (.scalar s) ∨ s = .null)) ∨
    ∃ c steps' held, b.made[i]? = some (some (.node c)) ∧ raw.nodes[c]? = some held ∧
      RawGraph.unfoldItem (raw.unfold steps) item = held.unfold (raw.unfold steps') := by
  rcases item_of_made hb hmade with ⟨s, rfl⟩ | ⟨c, rfl, hi⟩
  · exact .inl ⟨s, rfl, .inl rfl⟩
  · cases steps with
    | zero => exact .inl ⟨.null, rfl, .inr rfl⟩
    | succ steps =>
        cases hc : raw.nodes[c]? with
        | none => exact .inl ⟨.null, by rw [RawGraph.unfoldItem, RawGraph.unfold, hc], .inr rfl⟩
        | some held =>
            refine .inr ⟨c, steps, held, hi, hc, ?_⟩
            rw [RawGraph.unfoldItem, RawGraph.unfold, hc]
            cases held <;> rfl

theorem unfold_eq_dict {i steps : Nat} {item : RawItem} {entries : Entries}
    (hmade : Made b.made i item)
    (h : RawGraph.unfoldItem (raw.unfold steps) item = .dict entries) :
    ∃ c steps' held, b.made[i]? = some (some (.node c)) ∧ raw.nodes[c]? = some (.dict held) ∧
      entries = held.map fun e => (e.1, RawGraph.unfoldItem (raw.unfold steps') e.2) := by
  rcases unfold_cases hb hmade with ⟨s, heq, -⟩ | ⟨c, steps', held, hi, hc, heq⟩
  · cases h.symm.trans heq
  · cases held <;> cases h.symm.trans heq
    exact ⟨c, steps', _, hi, hc, rfl⟩

theorem unfold_eq_list {i steps : Nat} {item : RawItem} {items : List Value}
    (hmade : Made b.made i item)
    (h : RawGraph.unfoldItem (raw.unfold steps) item = .list items) :
    ∃ c steps' held, b.made[i]? = some (some (.node c)) ∧ raw.nodes[c]? = some (.list held) ∧
      items = RawGraph.unfoldItems (raw.unfold steps') held := by
  rcases unfold_cases hb hmade with ⟨s, heq, -⟩ | ⟨c, steps', held, hi, hc, heq⟩
  · cases h.symm.trans heq
  · cases held <;> cases h.symm.trans heq
    exact ⟨c, steps', _, hi, hc, rfl⟩

theorem eq_value_of_unfold {i steps : Nat} {item : RawItem} {t : String}
    (hmade : Made b.made i item) (h : RawGraph.unfoldItem (raw.unfold steps) item = .str t) :
    item = .value (.str t) := by
  rcases unfold_cases hb hmade with ⟨s, heq, hitem⟩ | ⟨c, steps', held, hi, hc, heq⟩
  · cases h.symm.trans heq
    exact hitem.resolve_right nofun
  · cases held <;> cases h.symm.trans heq

/-- Items of a list are made of those of a sequence, but for tuples. -/
theorem exists_item {i steps n : Nat} {item : RawItem}
    {items : List Value} {v : Value} (hmade : Made b.made i item)
    (h : RawGraph.unfoldItem (raw.unfold steps) item = .list items) (hv : items[n]? = some v) :
    (∃ parts, v = .tuple parts) ∨ ∃ j steps' item', (itemsAt g.nodes i)[n]? = some j ∧
      Made b.made j item' ∧ v = RawGraph.unfoldItem (raw.unfold steps') item' := by
  obtain ⟨c, steps', held, hi, hc, rfl⟩ := unfold_eq_list hb hmade h
  rw [RawGraph.getElem?_unfoldItems] at hv
  obtain ⟨item', hitem, rfl⟩ := Option.map_eq_some_iff.mp hv
  rcases (NodeGraph.fills_build hb hi hc).listed held rfl with hall | hall
  · obtain ⟨hlength, hmade'⟩ := List.forall₂_iff_get.mp hall
    obtain ⟨hn, rfl⟩ := List.getElem?_eq_some_iff.mp hitem
    exact .inr ⟨_, steps', _, List.getElem?_eq_getElem (hlength ▸ hn),
      hmade' n (hlength ▸ hn) hn, rfl⟩
  · obtain ⟨parts, rfl⟩ := hall item' (List.mem_of_getElem? hitem)
    exact .inl ⟨_, rfl⟩

end Built

/-- The entry of a text in the value of a container. -/
theorem exists_rawEntry {entries : List (Scalar × RawItem)} {unfold : Nat → Value} {key : String}
    {v : Value}
    (h : Entries.text? (entries.map fun e => (e.1, RawGraph.unfoldItem unfold e.2)) key = some v) :
    ∃ front item back, entries = front ++ (.str key, item) :: back ∧
      v = RawGraph.unfoldItem unfold item ∧ ∀ o ∈ front, o.1 ≠ .str key := by
  obtain ⟨front, back, heq, hfront⟩ := Entries.exists_of_text? h
  obtain ⟨front, rest, rfl, rfl, hrest⟩ := List.map_eq_append_iff.mp heq
  obtain ⟨⟨k, item⟩, back, rfl, he, -⟩ := List.map_eq_cons_iff.mp hrest
  obtain ⟨rfl, rfl⟩ := Prod.mk.inj he
  exact ⟨front, item, back, rfl, rfl, fun o ho => hfront _ (List.mem_map_of_mem ho)⟩

section Spelled

variable (hb : g.build = .ok (raw, b)) (hs : g.Spelled)

include hb hs

/-- A text is made of a node that is written as this text. -/
theorem text?_of_made {k : Nat} {t : String}
    (h : Made b.made k (.value (.str t))) : g.isText k = true ∧ g.text? k = some t := by
  have hgives := (NodeGraph.gives_build hb h).resolve_right fun ⟨_, hnull⟩ => nomatch hnull
  obtain ⟨htext, hown⟩ := isText_of_gives hgives
  obtain ⟨own, howns⟩ := Option.isSome_iff_exists.mp (hs.written k (lt_size_of_isText htext) htext)
  exact ⟨htext, hown own howns ▸ howns⟩

/-- The entry of a text comes from a pair whose key is written so, and the texts of the pairs before
it are those of entries before it. -/
theorem exists_pair {i c : Nat} {key : String}
    {item : RawItem} {front back : List (Scalar × RawItem)}
    (hi : b.made[i]? = some (some (.node c)))
    (hc : raw.nodes[c]? = some (.dict (front ++ (.str key, item) :: back))) :
    ∃ before k value after, pairsAt g.nodes i = before ++ (k, value) :: after ∧
      g.isText k = true ∧ g.text? k = some key ∧ Made b.made value item ∧
      ∀ p ∈ before, ∀ t, g.isText p.1 = true → g.text? p.1 = some t →
        ∃ o ∈ front, o.1 = .str t := by
  have hfree : MergeFree g.nodes (pairsAt g.nodes i) := fun p hp =>
    (hs.mergeFree i (lt_size_of_mem_pairsAt hp) p hp).1
  obtain ⟨own, dropped, heq, hown⟩ :=
    (NodeGraph.writtenFirst_build hb hi hc (.inl hfree)).of_mergeFree hfree
  obtain ⟨first, rest, rfl, rfl, hrest⟩ := List.map_eq_append_iff.mp heq.symm
  obtain ⟨e, last, rfl, he, rfl⟩ := List.map_eq_cons_iff.mp hrest
  obtain ⟨before, k, value, after, hpairs, hkey, hvalue, hbefore⟩ := hown.pair_of_entry
  obtain ⟨hscalar, hitem⟩ := Prod.mk.inj he
  have hmade := hkey.isMade
  rw [hscalar] at hmade
  obtain ⟨hkeyText, hkey⟩ := text?_of_made hb hs hmade
  refine ⟨before, k, value, after, hpairs, hkeyText, hkey, hitem ▸ hvalue, ?_⟩
  intro p hp t htext ht
  -- Only the same text is one with a text, so the entry found for the key is under it.
  obtain ⟨key', hkey', o, ho, hsame⟩ := hbefore p hp
  have hscalar' : key'.scalar = .str t := by
    have hmade' := made_of_text? hb htext ht hkey'.isMade
    rwa [RawItem.value.injEq, Value.scalar.injEq] at hmade'
  obtain ⟨rest', hfront, hfrom⟩ := hown.exists_rest
  rw [List.nil_append] at ho hfront
  obtain ⟨-, q, -, ho', -⟩ := hfrom o (hfront ▸ List.mem_append_left _ ho)
  exact ⟨_, List.mem_map_of_mem ho, ho'.eq_str_of_same hkey' hscalar' hsame⟩

/-- The value under a text is made of the first node under it. -/
theorem exists_value {i steps : Nat}
    {item : RawItem} {entries : Entries} {key : String} {v : Value} (hmade : Made b.made i item)
    (h : RawGraph.unfoldItem (raw.unfold steps) item = .dict entries)
    (hv : Entries.text? entries key = some v) :
    ∃ j steps' item', (key, j) ∈ g.firsts (pairsAt g.nodes i) [] ∧
      Made b.made j item' ∧ v = RawGraph.unfoldItem (raw.unfold steps') item' := by
  obtain ⟨c, steps', held, hi, hc, rfl⟩ := unfold_eq_dict hb hmade h
  obtain ⟨front, item', back, rfl, rfl, hfront⟩ := exists_rawEntry hv
  obtain ⟨before, k, j, after, hpairs, hkeyText, hkey, hvalue, hbefore⟩ :=
    exists_pair hb hs hi hc
  have hk : (k, j) ∈ pairsAt g.nodes i := by simp [hpairs]
  have hsize := lt_size_of_mem_pairsAt hk
  have hnew : ∀ p ∈ before, g.text? p.1 ≠ some key := fun p hp htext => by
    have hp' : p ∈ pairsAt g.nodes i := by simp [hpairs, hp]
    have halike := hs.alike i hsize p hp' _ hk (htext.trans hkey.symm)
    obtain ⟨o, ho, hsame⟩ := hbefore p hp key (halike.trans hkeyText) htext
    exact hfront o ho hsame
  have hname : key ≠ NodeGraph.mergeKey := fun heq =>
    (hs.mergeFree i hsize _ hk).2 (heq ▸ hkey)
  rw [hpairs]
  exact ⟨j, steps', item', mem_firsts hkey hname List.not_mem_nil hnew, hvalue, rfl⟩

end Spelled

end Values

end Yaml

end AppSpec
