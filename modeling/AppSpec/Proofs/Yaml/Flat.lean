import AppSpec.Yaml.Value
import Mathlib.Logic.Relation

/-!
The nodes of a document of which some mappings are flattened. However often a mapping is flattened,
and from wherever, it holds in front what mappings that it merges have written, and behind that what
it has written itself.
-/

namespace AppSpec.Yaml

open Relation

/-! ### Reading nodes -/

def pairsAt (nodes : Array Node) (i : Nat) : List (Nat × Nat) :=
  (nodes[i]?.bind Node.pairs?).getD []

def itemsAt (nodes : Array Node) (i : Nat) : List Nat := (nodes[i]?.bind Node.items?).getD []

def isMergeAt (nodes : Array Node) (k : Nat) : Bool := (nodes[k]?.map Node.isMerge).getD false

def IsMapping (nodes : Array Node) (i : Nat) : Prop := (nodes[i]?.bind Node.pairs?).isSome

/-- What is written in a mapping, apart from what it merges. -/
def writtenAt (nodes : Array Node) (i : Nat) : List (Nat × Nat) :=
  (pairsAt nodes i).filter fun p => !isMergeAt nodes p.1

/-- A mapping merges what stands under a merge key, or in a list under one. -/
def Merges (nodes : Array Node) (i j : Nat) : Prop :=
  ∃ p ∈ pairsAt nodes i, isMergeAt nodes p.1 = true ∧ (p.2 = j ∨ j ∈ itemsAt nodes p.2)

instance (nodes : Array Node) (i j : Nat) : Decidable (Merges nodes i j) :=
  inferInstanceAs (Decidable (∃ p ∈ pairsAt nodes i, _ ∧ _))

/-- The pair is written in a mapping that another merges, at once or through further ones. -/
def Brought (nodes : Array Node) (i : Nat) (p : Nat × Nat) : Prop :=
  ∃ j, TransGen (Merges nodes) i j ∧ p ∈ writtenAt nodes j

def MergeFree (nodes : Array Node) (pairs : List (Nat × Nat)) : Prop :=
  ∀ p ∈ pairs, isMergeAt nodes p.1 = false

/-- The node is a scalar that stands for a value. -/
def Writes (nodes : Array Node) (k : Nat) (s : Scalar) : Prop :=
  ∃ n text style kind, nodes[k]? = some n ∧ n.content = .scalar text style ∧
    Tag.meaning? n.tag = some (.scalar kind) ∧ ScalarValue.ofText text n.start kind = .ok s

/-- The text of a node that is a scalar. -/
def textAt (nodes : Array Node) (k : Nat) : Option String := nodes[k]?.bind Node.text?

/-- What may be made of a node by its tag: the scalar of a text, which is the node's own if it has
one, or a container. A value of its own may have become text. -/
inductive Gives (nodes : Array Node) (k : Nat) : RawItem → Prop
  | scalar {n : Node} {kind : Tag.ScalarKind} {text : String} {s : Scalar} (hn : nodes[k]? = some n)
      (htag : Tag.meaning? n.tag = some (.scalar kind) ∨ n.tag = Tag.value ∧ kind = .str)
      (hs : ScalarValue.ofText text n.start kind = .ok s)
      (hown : ∀ own, textAt nodes k = some own → own = text) : Gives nodes k (.value (.scalar s))
  | container {n : Node} {kind : Tag.CollectionKind} (hn : nodes[k]? = some n)
      (htag : Tag.meaning? n.tag = some (.collection kind)) (c : Nat) : Gives nodes k (.node c)

section Reading

variable {nodes : Array Node} {i j : Nat} {p : Nat × Nat} {pairs : List (Nat × Nat)}

theorem content_of_mem_itemsAt (h : j ∈ itemsAt nodes i) :
    ∃ n, nodes[i]? = some n ∧ n.content = .sequence (itemsAt nodes i) := by
  unfold itemsAt at h ⊢
  cases hn : nodes[i]? with
  | none =>
      rw [hn] at h
      cases h
  | some n =>
      refine ⟨n, rfl, ?_⟩
      rw [hn, Option.bind_some, Node.items?] at h
      rw [Option.bind_some, Node.items?]
      split at h
      · next items hcontent => simp [hcontent]
      · cases h

theorem content_of_mem_pairsAt (h : p ∈ pairsAt nodes i) :
    ∃ n, nodes[i]? = some n ∧ n.content = .mapping (pairsAt nodes i) := by
  unfold pairsAt at h ⊢
  cases hn : nodes[i]? with
  | none =>
      rw [hn] at h
      cases h
  | some n =>
      refine ⟨n, rfl, ?_⟩
      rw [hn, Option.bind_some, Node.pairs?] at h
      rw [Option.bind_some, Node.pairs?]
      split at h
      · next pairs hcontent => simp [hcontent]
      · cases h

theorem lt_size_of_mem_pairsAt (h : p ∈ pairsAt nodes i) : i < nodes.size := by
  obtain ⟨n, hn, -⟩ := content_of_mem_pairsAt h
  exact (Array.getElem?_eq_some_iff.mp hn).1

theorem mem_writtenAt :
    p ∈ writtenAt nodes i ↔ p ∈ pairsAt nodes i ∧ isMergeAt nodes p.1 = false := by
  simp [writtenAt]

theorem MergeFree.filter_eq (h : MergeFree nodes pairs) :
    pairs.filter (fun p => !isMergeAt nodes p.1) = pairs :=
  List.filter_eq_self.mpr fun p hp => by simp [h p hp]

theorem mergeFree_take_zero : MergeFree nodes (pairs.take 0) := List.forall_mem_nil _

theorem Brought.isMergeAt_eq (h : Brought nodes i p) : isMergeAt nodes p.1 = false :=
  let ⟨_, _, hp⟩ := h
  (mem_writtenAt.mp hp).2

theorem Brought.of_merges (hm : Merges nodes i j) (h : Brought nodes j p) : Brought nodes i p :=
  let ⟨m, hjm, hp⟩ := h
  ⟨m, hjm.head hm, hp⟩

theorem Brought.of_written (hm : Merges nodes i j) (hp : p ∈ writtenAt nodes j) :
    Brought nodes i p :=
  ⟨j, .single hm, hp⟩

theorem meaning_value : Tag.meaning? Tag.value = none := by decide

theorem meaning_str : Tag.meaning? Tag.str = some (.scalar .str) := by decide

/-- Of a scalar that stands for a value nothing else is made. -/
theorem Writes.eq_of_gives {k : Nat} {s : Scalar} {item : RawItem} (h : Writes nodes k s)
    (hitem : Gives nodes k item) : item = .value (.scalar s) := by
  obtain ⟨n, text, style, kind, hn, hcontent, hmeaning, hs⟩ := h
  cases hitem with
  | scalar hn' htag hs' hown =>
      rw [hn] at hn'
      cases hn'
      have htext := hown text (by rw [textAt, hn, Option.bind_some, Node.text?, hcontent])
      rcases htag with htag | ⟨htag, -⟩
      · rw [hmeaning] at htag
        cases htag
        have hsame := hs.symm.trans (htext ▸ hs')
        cases hsame
        rfl
      · rw [htag, meaning_value] at hmeaning
        cases hmeaning
  | container hn' htag =>
      rw [hn] at hn'
      cases hn'
      rw [hmeaning] at htag
      cases htag

/-- What merges nothing has nothing brought in. -/
theorem not_brought (h : MergeFree nodes (pairsAt nodes i)) : ¬ Brought nodes i p := by
  rintro ⟨j, hij, -⟩
  obtain ⟨m, ⟨q, hq, hmerge, -⟩, -⟩ := TransGen.head'_iff.mp hij
  rw [h q hq] at hmerge
  cases hmerge

end Reading

/-! ### Nodes that are alike up to what they merge -/

/-- The nodes have the same parts, and the same of them are merge keys. -/
structure Alike (nodes nodes' : Array Node) : Prop where
  size : nodes'.size = nodes.size
  isMerge : ∀ k, isMergeAt nodes' k = isMergeAt nodes k
  texts : ∀ k, textAt nodes' k = textAt nodes k
  items : ∀ i, itemsAt nodes' i = itemsAt nodes i
  pairs : ∀ i, pairsAt nodes' i = pairsAt nodes i
  mapping : ∀ i, IsMapping nodes' i ↔ IsMapping nodes i
  gives : ∀ k item, Gives nodes' k item → Gives nodes k item

namespace Alike

variable {nodes nodes' nodes'' : Array Node}

theorem refl (nodes : Array Node) : Alike nodes nodes :=
  ⟨rfl, fun _ => rfl, fun _ => rfl, fun _ => rfl, fun _ => rfl, fun _ => .rfl, fun _ _ h => h⟩

theorem trans (h : Alike nodes nodes') (h' : Alike nodes' nodes'') : Alike nodes nodes'' where
  size := h'.size.trans h.size
  isMerge k := (h'.isMerge k).trans (h.isMerge k)
  texts k := (h'.texts k).trans (h.texts k)
  items i := (h'.items i).trans (h.items i)
  pairs i := (h'.pairs i).trans (h.pairs i)
  mapping i := (h'.mapping i).trans (h.mapping i)
  gives k item hg := h.gives k item (h'.gives k item hg)

/-- A node that may have become text keeps its parts, and is a merge key neither way. -/
theorem modify {k : Nat} {f : Node → Node}
    (hf : ∀ n, f n = n ∨ n.tag = Tag.value ∧ f n = { n with tag := Tag.str }) :
    Alike nodes (nodes.modify k f) := by
  have hbind : ∀ {β : Type} (read : Node → Option β) (_ : ∀ n, read (f n) = read n) (i : Nat),
      (nodes.modify k f)[i]?.bind read = nodes[i]?.bind read := by
    intro β read hread i
    rw [Array.getElem?_modify]
    split
    · cases nodes[i]? with
      | none => rfl
      | some n => exact hread n
    · rfl
  have hmerge (n : Node) : (f n).isMerge = n.isMerge := by
    rcases hf n with heq | ⟨htag, heq⟩
    · rw [heq]
    · rw [heq, Node.isMerge, Node.isMerge, htag]
      exact (by decide : (Tag.str == Tag.merge) = (Tag.value == Tag.merge))
  have hcontent (n : Node) : (f n).content = n.content := by
    rcases hf n with heq | ⟨-, heq⟩ <;> rw [heq]
  have htexts (i : Nat) : textAt (nodes.modify k f) i = textAt nodes i :=
    hbind _ (fun n => by rw [Node.text?, Node.text?, hcontent]) i
  refine ⟨Array.size_modify, fun i => ?_, htexts, fun i => ?_, fun i => ?_, fun i => ?_, ?_⟩
  · rw [isMergeAt, Option.map_eq_bind,
      hbind (some ∘ Node.isMerge) fun n => congrArg some (hmerge n), ← Option.map_eq_bind, isMergeAt]
  · rw [itemsAt, hbind _ (fun n => by rw [Node.items?, Node.items?, hcontent]), itemsAt]
  · rw [pairsAt, hbind _ (fun n => by rw [Node.pairs?, Node.pairs?, hcontent]), pairsAt]
  · rw [IsMapping, hbind _ (fun n => by rw [Node.pairs?, Node.pairs?, hcontent]), IsMapping]
  · intro i item hg
    have hread {n' : Node} (hn' : (nodes.modify k f)[i]? = some n') :
        ∃ n, nodes[i]? = some n ∧
          (n' = n ∨ n.tag = Tag.value ∧ n' = { n with tag := Tag.str }) := by
      rw [Array.getElem?_modify] at hn'
      split at hn'
      · obtain ⟨n, hn, rfl⟩ := Option.map_eq_some_iff.mp hn'
        exact ⟨n, hn, hf n⟩
      · exact ⟨n', hn', .inl rfl⟩
    cases hg with
    | scalar hn' htag hs hown =>
        rw [htexts] at hown
        obtain ⟨n, hn, rfl | ⟨hvalue, rfl⟩⟩ := hread hn'
        · exact .scalar hn htag hs hown
        · rcases htag with htag | ⟨htag, -⟩
          · cases meaning_str.symm.trans htag
            exact .scalar hn (.inr ⟨hvalue, rfl⟩) hs hown
          · exact absurd htag (by decide : Tag.str ≠ Tag.value)
    | container hn' htag =>
        obtain ⟨n, hn, rfl | ⟨-, rfl⟩⟩ := hread hn'
        · exact .container hn htag _
        · cases meaning_str.symm.trans htag

end Alike

/-! ### Setting the pairs of a mapping -/

def withPairs (nodes : Array Node) (i : Nat) (pairs : List (Nat × Nat)) : Array Node :=
  nodes.modify i fun n => { n with content := .mapping pairs }

section WithPairs

variable {nodes : Array Node} {i j k : Nat} {pairs : List (Nat × Nat)}

@[simp]
theorem size_withPairs : (withPairs nodes i pairs).size = nodes.size := Array.size_modify

@[simp]
theorem isMergeAt_withPairs : isMergeAt (withPairs nodes i pairs) k = isMergeAt nodes k := by
  unfold isMergeAt withPairs
  rw [Array.getElem?_modify]
  split
  · cases nodes[k]? <;> rfl
  · rfl

theorem getElem?_withPairs_of_ne (h : j ≠ i) : (withPairs nodes i pairs)[j]? = nodes[j]? := by
  rw [withPairs, Array.getElem?_modify, if_neg h.symm]

theorem pairs?_withPairs (h : IsMapping nodes i) :
    (withPairs nodes i pairs)[i]?.bind Node.pairs? = some pairs := by
  unfold IsMapping at h
  rw [withPairs, Array.getElem?_modify, if_pos rfl]
  cases hn : nodes[i]? with
  | none =>
      rw [hn] at h
      cases h
  | some n => rfl

theorem pairsAt_withPairs (h : IsMapping nodes i) :
    pairsAt (withPairs nodes i pairs) j = if j = i then pairs else pairsAt nodes j := by
  split
  · next hji =>
      subst hji
      rw [pairsAt, pairs?_withPairs h, Option.getD_some]
  · next hji => rw [pairsAt, getElem?_withPairs_of_ne hji, pairsAt]

theorem isMapping_withPairs (h : IsMapping nodes i) :
    IsMapping (withPairs nodes i pairs) j ↔ IsMapping nodes j := by
  by_cases hji : j = i
  · subst hji
    exact iff_of_true (by rw [IsMapping, pairs?_withPairs h, Option.isSome_some]) h
  · rw [IsMapping, getElem?_withPairs_of_ne hji, IsMapping]

theorem itemsAt_withPairs (h : IsMapping nodes i) :
    itemsAt (withPairs nodes i pairs) j = itemsAt nodes j := by
  by_cases hji : j = i
  · subst hji
    unfold IsMapping Node.pairs? at h
    unfold itemsAt withPairs
    rw [Array.getElem?_modify, if_pos rfl]
    cases hn : nodes[j]? with
    | none => rfl
    | some n =>
        rw [hn] at h
        cases hc : n.content <;> simp [Node.items?, hc] at h ⊢
  · rw [itemsAt, getElem?_withPairs_of_ne hji, itemsAt]

theorem textAt_eq_none (h : IsMapping nodes i) : textAt nodes i = none := by
  unfold IsMapping Node.pairs? at h
  unfold textAt
  cases hn : nodes[i]? with
  | none => rfl
  | some n =>
      rw [hn] at h
      cases hc : n.content <;> simp [Node.text?, hc] at h ⊢

theorem textAt_withPairs (h : IsMapping nodes i) :
    textAt (withPairs nodes i pairs) j = textAt nodes j := by
  by_cases hji : j = i
  · subst hji
    rw [textAt_eq_none h, textAt_eq_none ((isMapping_withPairs h).mpr h)]
  · rw [textAt, getElem?_withPairs_of_ne hji, textAt]

theorem gives_withPairs {item : RawItem} (h : IsMapping nodes i)
    (hg : Gives (withPairs nodes i pairs) k item) : Gives nodes k item := by
  have hread {n' : Node} (hn' : (withPairs nodes i pairs)[k]? = some n') :
      ∃ n, nodes[k]? = some n ∧ n.tag = n'.tag ∧ n.start = n'.start := by
    rw [withPairs, Array.getElem?_modify] at hn'
    split at hn'
    · obtain ⟨n, hn, rfl⟩ := Option.map_eq_some_iff.mp hn'
      exact ⟨n, hn, rfl, rfl⟩
    · exact ⟨n', hn', rfl, rfl⟩
  cases hg with
  | scalar hn' htag hs hown =>
      obtain ⟨n, hn, htags, hstarts⟩ := hread hn'
      rw [textAt_withPairs h] at hown
      exact .scalar hn (htags ▸ htag) (hstarts ▸ hs) hown
  | container hn' htag =>
      obtain ⟨n, hn, htags, -⟩ := hread hn'
      exact .container hn (htags ▸ htag) _

end WithPairs

/-! ### Flattened nodes -/

/-- The nodes are those of a document, of which some are flattened. -/
structure Flat (nodes₀ nodes : Array Node) : Prop where
  size : nodes.size = nodes₀.size
  isMerge : ∀ k, isMergeAt nodes k = isMergeAt nodes₀ k
  texts : ∀ k, textAt nodes k = textAt nodes₀ k
  items : ∀ i, itemsAt nodes i = itemsAt nodes₀ i
  pairs : ∀ i, ∃ front back, pairsAt nodes i = front ++ back ∧ back.Sublist (pairsAt nodes₀ i) ∧
    back.filter (fun p => !isMergeAt nodes₀ p.1) = writtenAt nodes₀ i ∧
    ∀ p ∈ front, Brought nodes₀ i p
  gives : ∀ k item, Gives nodes k item → Gives nodes₀ k item

namespace Flat

variable {nodes₀ nodes nodes' : Array Node} {i j : Nat} {p : Nat × Nat}

theorem refl (nodes : Array Node) : Flat nodes nodes :=
  ⟨rfl, fun _ => rfl, fun _ => rfl, fun _ => rfl,
    fun _ => ⟨[], _, rfl, .refl _, rfl, nofun⟩, fun _ _ h => h⟩

theorem alike (h : Flat nodes₀ nodes) (ha : Alike nodes nodes') : Flat nodes₀ nodes' where
  size := ha.size.trans h.size
  isMerge k := (ha.isMerge k).trans (h.isMerge k)
  texts k := (ha.texts k).trans (h.texts k)
  items i := (ha.items i).trans (h.items i)
  pairs i := by
    rw [ha.pairs]
    exact h.pairs i
  gives k item hg := h.gives k item (ha.gives k item hg)

theorem withPairs {pairs : List (Nat × Nat)} (h : Flat nodes₀ nodes) (hi : IsMapping nodes i)
    (hpairs : ∃ front back, pairs = front ++ back ∧ back.Sublist (pairsAt nodes₀ i) ∧
      back.filter (fun p => !isMergeAt nodes₀ p.1) = writtenAt nodes₀ i ∧
      ∀ p ∈ front, Brought nodes₀ i p) :
    Flat nodes₀ (withPairs nodes i pairs) where
  size := size_withPairs.trans h.size
  isMerge k := isMergeAt_withPairs.trans (h.isMerge k)
  texts k := (textAt_withPairs hi).trans (h.texts k)
  items j := (itemsAt_withPairs hi).trans (h.items j)
  pairs j := by
    rw [pairsAt_withPairs hi]
    split
    · next hji =>
        subst hji
        exact hpairs
    · exact h.pairs j
  gives k item hg := h.gives k item (gives_withPairs hi hg)

/-- A merge key may be taken out. -/
theorem eraseMerge {before after : List (Nat × Nat)} {k value : Nat} (h : Flat nodes₀ nodes)
    (hi : IsMapping nodes i) (hpairs : pairsAt nodes i = before ++ (k, value) :: after)
    (hmerge : isMergeAt nodes₀ k = true) :
    Flat nodes₀ (Yaml.withPairs nodes i (before ++ after)) := by
  obtain ⟨front, back, heq, hsub, hwritten, hfront⟩ := h.pairs i
  have hnot : (k, value) ∉ front := fun hp => by
    rw [(hfront _ hp).isMergeAt_eq] at hmerge
    cases hmerge
  obtain ⟨between, rfl, rfl⟩ : ∃ between, before = front ++ between ∧
      back = between ++ (k, value) :: after := by
    rcases List.append_eq_append_iff.mp (heq.symm.trans hpairs) with
      ⟨between, hfst, hsnd⟩ | ⟨between, hfst, hsnd⟩
    · exact ⟨between, hfst, hsnd⟩
    · cases between with
      | nil => exact ⟨[], by simpa using hfst.symm, by simpa using hsnd.symm⟩
      | cons q between =>
          cases hsnd
          exact absurd (by simp [hfst]) hnot
  have herase : (between ++ after).Sublist (between ++ (k, value) :: after) :=
    .append (.refl _) (List.sublist_cons_self _ _)
  refine h.withPairs hi ⟨front, between ++ after, by simp, herase.trans hsub, ?_, hfront⟩
  rw [← hwritten]
  simp [hmerge]

/-- A pair of a node is one of the document's, or brought in. -/
theorem mem_or_brought (h : Flat nodes₀ nodes) (hp : p ∈ pairsAt nodes i) :
    p ∈ pairsAt nodes₀ i ∨ Brought nodes₀ i p := by
  obtain ⟨front, back, heq, hsub, -, hfront⟩ := h.pairs i
  rw [heq, List.mem_append] at hp
  exact hp.elim (fun h => .inr (hfront p h)) fun h => .inl (hsub.subset h)

/-- The merge keys of a node are the document's. -/
theorem mem_of_isMerge (h : Flat nodes₀ nodes) (hp : p ∈ pairsAt nodes i)
    (hm : isMergeAt nodes₀ p.1 = true) : p ∈ pairsAt nodes₀ i := by
  refine (h.mem_or_brought hp).resolve_right fun hb => ?_
  rw [hb.isMergeAt_eq] at hm
  cases hm

/-- The parts of a mapping whose merge keys are all taken out. -/
theorem pairs_of_mergeFree (h : Flat nodes₀ nodes) (hfree : MergeFree nodes₀ (pairsAt nodes i)) :
    ∃ front, pairsAt nodes i = front ++ writtenAt nodes₀ i ∧ ∀ p ∈ front, Brought nodes₀ i p := by
  obtain ⟨front, back, heq, -, hwritten, hfront⟩ := h.pairs i
  have hback : MergeFree nodes₀ back := fun p hp => hfree p (by simp [heq, hp])
  rw [hback.filter_eq] at hwritten
  exact ⟨front, by rw [heq, hwritten], hfront⟩

/-- A mapping that writes no merge key keeps its pairs. -/
theorem pairs_eq (h : Flat nodes₀ nodes) (hfree : MergeFree nodes₀ (pairsAt nodes₀ i)) :
    pairsAt nodes i = pairsAt nodes₀ i := by
  obtain ⟨front, back, heq, hsub, hwritten, hfront⟩ := h.pairs i
  have hnil : front = [] := List.eq_nil_iff_forall_not_mem.mpr fun p hp =>
    not_brought hfree (hfront p hp)
  have hback : MergeFree nodes₀ back := fun p hp => hfree p (hsub.subset hp)
  rw [hback.filter_eq, writtenAt, hfree.filter_eq] at hwritten
  rw [heq, hnil, hwritten, List.nil_append]

/-- What stands in a flattened mapping is brought in where the mapping is merged. -/
theorem brought_of_merges (h : Flat nodes₀ nodes) (hfree : MergeFree nodes₀ (pairsAt nodes j))
    (hm : Merges nodes₀ i j) (hp : p ∈ pairsAt nodes j) : Brought nodes₀ i p := by
  rcases h.mem_or_brought hp with hown | hb
  · exact .of_written hm (mem_writtenAt.mpr ⟨hown, hfree p hp⟩)
  · exact hb.of_merges hm

end Flat

end AppSpec.Yaml
