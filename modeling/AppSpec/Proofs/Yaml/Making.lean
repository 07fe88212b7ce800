import AppSpec.Proofs.Yaml.Merge

/-!
What making values leaves behind. Values are made once and kept; a container is queued when it is
made and keeps its place. Of the pairs of a mapping whose keys are one, the first is kept.
-/

namespace AppSpec.Yaml

open Relation

namespace Builder

open Build

variable {made made' made'' : Array (Option RawItem)} {i k : Nat} {item : RawItem} {key : Key}

/-- What is made of a node; null of a node that there is not. -/
def Made (made : Array (Option RawItem)) (i : Nat) (item : RawItem) : Prop :=
  made[i]? = some (some item) ∨ made.size ≤ i ∧ item = .value .null

theorem Made.unique {item' : RawItem} (h : Made made i item) (h' : Made made i item') :
    item = item' := by
  rcases h with h | ⟨hout, rfl⟩ <;> rcases h' with h' | ⟨hout', rfl⟩
  · rw [h] at h'
    cases h'
    rfl
  · rw [Array.getElem?_eq_none hout'] at h
    cases h
  · rw [Array.getElem?_eq_none hout] at h'
    cases h'
  · rfl

/-- The key that is made of a node; only what is no number may come from no node. -/
structure KeyOf (made : Array (Option RawItem)) (k : Nat) (key : Key) : Prop where
  isMade : Made made k (.value (.scalar key.scalar))
  origin : key.origin = some k ∨
    key.origin = none ∧ ∃ x : Float, key.scalar = .float x ∧ x.isNaN = true

/-- Pairs are sifted, behind entries that are there already: of pairs whose keys are one, the first
gives an entry and the others are dropped. -/
inductive Sifted (made : Array (Option RawItem)) : List (Nat × Nat) → List (Key × RawItem) →
    List (Key × RawItem) → List (Nat × Nat) → Prop where
  | nil {done} : Sifted made [] done done []
  | drop {k value rest done entries dropped key} (isKey : KeyOf made k key)
      (again : ∃ e ∈ done, e.1.same key = true) (more : Sifted made rest done entries dropped) :
      Sifted made ((k, value) :: rest) done entries ((k, value) :: dropped)
  | keep {k value rest done entries dropped key item} (isKey : KeyOf made k key)
      (new : ∀ e ∈ done, e.1.same key = false) (isItem : Made made value item)
      (more : Sifted made rest (done ++ [(key, item)]) entries dropped) :
      Sifted made ((k, value) :: rest) done entries dropped

namespace Sifted

/-- What is sifted later stands behind, under keys that are new. -/
theorem exists_rest {pairs dropped : List (Nat × Nat)} {done entries : List (Key × RawItem)}
    (h : Sifted made pairs done entries dropped) :
    ∃ rest, entries = done ++ rest ∧ ∀ e ∈ rest, (∀ o ∈ done, o.1.same e.1 = false) ∧
      ∃ p ∈ pairs, KeyOf made p.1 e.1 ∧ Made made p.2 e.2 := by
  induction h with
  | nil => exact ⟨[], (List.append_nil _).symm, nofun⟩
  | drop isKey again more ih =>
      obtain ⟨rest, heq, hrest⟩ := ih
      refine ⟨rest, heq, fun e he => ?_⟩
      obtain ⟨hnew, p, hp, hfrom⟩ := hrest e he
      exact ⟨hnew, p, List.mem_cons_of_mem _ hp, hfrom⟩
  | @keep k value pairs done entries dropped key item isKey new isItem more ih =>
      obtain ⟨rest, rfl, hrest⟩ := ih
      refine ⟨(key, item) :: rest, List.append_assoc .., fun e he => ?_⟩
      rcases List.mem_cons.mp he with rfl | he
      · exact ⟨new, _, List.mem_cons_self, isKey, isItem⟩
      · obtain ⟨hnew, p, hp, hfrom⟩ := hrest e he
        exact ⟨fun o ho => hnew o (List.mem_append_left _ ho), p, List.mem_cons_of_mem _ hp, hfrom⟩

theorem split {pairs more dropped : List (Nat × Nat)} {done entries : List (Key × RawItem)}
    (h : Sifted made (pairs ++ more) done entries dropped) :
    ∃ between d d', Sifted made pairs done between d ∧ Sifted made more between entries d' := by
  induction pairs generalizing done dropped with
  | nil => exact ⟨done, [], dropped, .nil, h⟩
  | cons p rest ih =>
      cases h with
      | drop isKey again h =>
          obtain ⟨between, d, d', hfirst, hsecond⟩ := ih h
          exact ⟨between, _, d', .drop isKey again hfirst, hsecond⟩
      | keep isKey new isItem h =>
          obtain ⟨between, d, d', hfirst, hsecond⟩ := ih h
          exact ⟨between, d, d', .keep isKey new isItem hfirst, hsecond⟩

/-- Each entry comes from a pair, and the keys of the pairs before it are those of entries before
it. -/
theorem pair_of_entry {pairs dropped : List (Nat × Nat)} {done front back : List (Key × RawItem)}
    {e : Key × RawItem} (h : Sifted made pairs done (done ++ (front ++ e :: back)) dropped) :
    ∃ before k value after, pairs = before ++ (k, value) :: after ∧ KeyOf made k e.1 ∧
      Made made value e.2 ∧ ∀ p ∈ before, ∃ key, KeyOf made p.1 key ∧
        ∃ o ∈ done ++ front, o.1.same key = true := by
  generalize hentries : done ++ (front ++ e :: back) = entries at h
  induction h generalizing front with
  | nil => simp at hentries
  | @drop k value rest done entries dropped key isKey again more ih =>
      obtain ⟨before, k', value', after, rfl, hkey, hvalue, hbefore⟩ := ih hentries
      refine ⟨(k, value) :: before, k', value', after, rfl, hkey, hvalue, ?_⟩
      obtain ⟨o, ho, hsame⟩ := again
      exact List.forall_mem_cons.mpr
        ⟨⟨key, isKey, o, List.mem_append_left _ ho, hsame⟩, hbefore⟩
  | @keep k value rest done entries dropped key item isKey new isItem more ih =>
      obtain ⟨more', heq, -⟩ := more.exists_rest
      rw [heq, List.append_assoc, List.append_cancel_left_eq] at hentries
      cases front with
      | nil =>
          cases hentries
          exact ⟨[], k, value, rest, rfl, isKey, isItem, nofun⟩
      | cons first front =>
          obtain ⟨rfl, rfl⟩ := List.cons.inj hentries
          obtain ⟨before, k', value', after, rfl, hkey, hvalue, hbefore⟩ := ih heq.symm
          refine ⟨(k, value) :: before, k', value', after, rfl, hkey, hvalue, ?_⟩
          have hmem : (key, item) ∈ done ++ (key, item) :: front :=
            List.mem_append_right _ List.mem_cons_self
          refine List.forall_mem_cons.mpr ⟨⟨key, isKey, _, hmem, key.same_self⟩, fun p hp => ?_⟩
          rw [List.append_cons]
          exact hbefore p hp

end Sifted

/-- What was made is kept. -/
structure Remembers (made made' : Array (Option RawItem)) : Prop where
  size : made'.size = made.size
  item : ∀ (i : Nat) (item : RawItem), made[i]? = some (some item) → made'[i]? = some (some item)

namespace Remembers

theorem refl (made : Array (Option RawItem)) : Remembers made made := ⟨rfl, fun _ _ h => h⟩

theorem trans (h : Remembers made made') (h' : Remembers made' made'') :
    Remembers made made'' :=
  ⟨h'.size.trans h.size, fun i item hm => h'.item i item (h.item i item hm)⟩

theorem isMade (h : Remembers made made') (hm : Made made i item) : Made made' i item :=
  hm.imp (h.item i item) fun ⟨hout, hnull⟩ => ⟨h.size ▸ hout, hnull⟩

theorem keyOf (h : Remembers made made') (hk : KeyOf made k key) : KeyOf made' k key :=
  ⟨h.isMade hk.isMade, hk.origin⟩

theorem sifted (h : Remembers made made') {pairs dropped : List (Nat × Nat)}
    {done entries : List (Key × RawItem)} (hs : Sifted made pairs done entries dropped) :
    Sifted made' pairs done entries dropped := by
  induction hs with
  | nil => exact .nil
  | drop isKey again _ ih => exact .drop (h.keyOf isKey) again ih
  | keep isKey new isItem _ ih => exact .keep (h.keyOf isKey) new (h.isMade isItem) ih

end Remembers

/-- The containers with their kinds and nodes, in the order in which they were made. Those from some
place on are still to be filled. -/
structure Stock (owners : List (Tag.CollectionKind × Nat)) (next : Nat) (b : Builder) : Prop where
  next_le : next ≤ owners.length
  count : b.containers.size = owners.length
  owned : ∀ i c : Nat, b.made[i]? = some (some (.node c)) ↔ ∃ kind, owners[c]? = some (kind, i)
  pending : b.pending = (owners.zipIdx.drop next).map fun o => (o.1.1, o.1.2, o.2)

/-- What making changes: it keeps what there is, leaves the nodes, and queues its containers. -/
structure Grows (b b' : Builder) : Prop where
  made : Remembers b.made b'.made
  containers : ∀ (c : Nat) (held : RawNode), b.containers[c]? = some held →
    b'.containers[c]? = some held
  nodes : b'.nodes = b.nodes
  gives : ∀ (k : Nat) (item : RawItem), b'.made[k]? = some (some item) →
    b.made[k]? = some (some item) ∨ Gives b.nodes k item
  stock : ∀ owners next, Stock owners next b → ∃ more, Stock (owners ++ more) next b'

variable {b b' b'' : Builder}

namespace Grows

theorem refl (b : Builder) : Grows b b :=
  ⟨.refl _, fun _ _ h => h, rfl, fun _ _ h => .inl h,
    fun owners _ h => ⟨[], by rwa [List.append_nil]⟩⟩

theorem trans (h : Grows b b') (h' : Grows b' b'') : Grows b b'' where
  made := h.made.trans h'.made
  containers c held hc := h'.containers c held (h.containers c held hc)
  nodes := h'.nodes.trans h.nodes
  gives k item hm := (h'.gives k item hm).elim (h.gives k item) fun hg => .inr (h.nodes ▸ hg)
  stock owners next hs := by
    obtain ⟨more, hs⟩ := h.stock owners next hs
    obtain ⟨further, hs⟩ := h'.stock _ next hs
    exact ⟨more ++ further, by rwa [← List.append_assoc]⟩

theorem sized (h : Grows b b') (hsize : b.made.size = b.nodes.size) :
    b'.made.size = b'.nodes.size := by
  rw [h.made.size, h.nodes, hsize]

end Grows

/-! ### Making one value -/

theorem getElem?_kept {made : Array (Option RawItem)} (hnew : ∀ item, made[i]? ≠ some (some item))
    {j : Nat} {other item : RawItem} (h : made[j]? = some (some other)) :
    (made.setIfInBounds i (some item))[j]? = some (some other) := by
  have hne : i ≠ j := by
    rintro rfl
    exact hnew other h
  rw [Array.getElem?_setIfInBounds_ne hne, h]

theorem kept_or_of_getElem? {made : Array (Option RawItem)} {j : Nat} {other item : RawItem}
    (h : (made.setIfInBounds i (some item))[j]? = some (some other)) :
    made[j]? = some (some other) ∨ i = j ∧ i < made.size ∧ other = item := by
  rw [Array.getElem?_setIfInBounds] at h
  split at h
  · next hij =>
      split at h
      · next hlt =>
          cases h
          exact .inr ⟨hij, hlt, rfl⟩
      · cases h
  · exact .inl h

/-- The value of a scalar may be kept for a node of which nothing is made. -/
theorem grows_keep {s : Scalar} (hnew : ∀ item, b.made[i]? ≠ some (some item))
    (hs : i < b.made.size → Gives b.nodes i (.value (.scalar s))) :
    Grows b { b with made := b.made.setIfInBounds i (some (.value (.scalar s))) } where
  made := ⟨Array.size_setIfInBounds, fun _ _ => getElem?_kept hnew⟩
  containers _ _ h := h
  nodes := rfl
  gives k item h := (kept_or_of_getElem? h).imp_right fun ⟨hik, hi, hitem⟩ => by
    subst hik
    exact hitem ▸ hs hi
  stock owners next hs := by
    refine ⟨[], ?_⟩
    rw [List.append_nil]
    refine { hs with owned := fun j c => ?_ }
    rw [← hs.owned, Array.getElem?_setIfInBounds]
    split
    · next hij =>
        subst hij
        refine iff_of_false (fun h => ?_) (hnew _)
        split at h <;> cases h
    · rfl

theorem owners_concat {owners : List (Tag.CollectionKind × Nat)} {kind : Tag.CollectionKind}
    {j c : Nat} :
    (∃ kind', (owners ++ [(kind, i)])[c]? = some (kind', j)) ↔
      (∃ kind', owners[c]? = some (kind', j)) ∨ c = owners.length ∧ i = j := by
  rcases Nat.lt_trichotomy c owners.length with hlt | rfl | hgt
  · rw [List.getElem?_append_left hlt]
    exact (or_iff_left fun ⟨h, _⟩ => Nat.ne_of_lt hlt h).symm
  · simp
  · rw [List.getElem?_eq_none (by rwa [List.length_append]), List.getElem?_eq_none (Nat.le_of_lt hgt)]
    simp [Nat.ne_of_gt hgt]

/-- A container is owned by its node, and waits to be filled. -/
theorem grows_container {kind : Tag.CollectionKind}
    (hnew : ∀ item, b.made[i]? ≠ some (some item)) (hi : i < b.made.size)
    (hkind : Gives b.nodes i (.node b.containers.size)) :
    Grows b { b with
      containers := b.containers.push (emptyContainer kind)
      pending := b.pending ++ [(kind, i, b.containers.size)]
      made := b.made.setIfInBounds i (some (.node b.containers.size)) } where
  made := ⟨Array.size_setIfInBounds, fun _ _ => getElem?_kept hnew⟩
  containers c held h := by
    rw [Array.getElem?_push, if_neg, h]
    rintro rfl
    rw [Array.getElem?_eq_none (Nat.le_refl _)] at h
    cases h
  nodes := rfl
  gives k item h := (kept_or_of_getElem? h).imp_right fun ⟨hik, _, hitem⟩ => by
    subst hik
    exact hitem ▸ hkind
  stock owners next hs := by
    refine ⟨[(kind, i)], ⟨?_, ?_, fun j c => ?_, ?_⟩⟩
    · rw [List.length_append]
      exact Nat.le_add_right_of_le hs.next_le
    · rw [Array.size_push, hs.count, List.length_append, List.length_singleton]
    · rw [owners_concat, ← hs.owned, hs.count, Array.getElem?_setIfInBounds]
      split
      · next hij =>
          subst hij
          have hnone : b.made[i]? ≠ some (some (.node c)) := hnew _
          simp [hnone, eq_comm]
      · next hij => simp [hij]
    · rw [List.zipIdx_append, List.drop_append_of_le_length, List.map_append, ← hs.pending, hs.count]
      · simp
      · simpa using hs.next_le

theorem scalar_eq_ok {kind : Tag.ScalarKind} {n : Node}
    (h : (scalar kind i n).run b = .ok (item, b')) :
    b' = b ∧ ∃ text s, scalarText b.nodes (b.nodes.size + 1) i = .ok text ∧
      ScalarValue.ofText text n.start kind = .ok s ∧ item = .value (.scalar s) := by
  obtain ⟨_, _, hb, h⟩ := run_bind_eq_ok.mp h
  cases hb
  obtain ⟨text, _, hlift, h⟩ := run_bind_eq_ok.mp h
  obtain ⟨htext, rfl⟩ := run_lift_eq_ok.mp hlift
  dsimp only at h
  split at h
  · cases h
  · obtain ⟨s, _, hlift, h⟩ := run_bind_eq_ok.mp h
    obtain ⟨hs, rfl⟩ := run_lift_eq_ok.mp hlift
    obtain ⟨rfl, rfl⟩ := run_pure_eq_ok.mp h
    exact ⟨rfl, text, s, htext, hs, rfl⟩

/-- Of a node that there is not null is made. -/
theorem meaning_noNode : Tag.meaning? noNode.tag = some (.scalar .null) := by decide

theorem gives_scalar {kind : Tag.ScalarKind} {text : String} {s : Scalar} (hi : i < b.nodes.size)
    (htag : Tag.meaning? (b.nodes[i]?.getD noNode).tag = some (.scalar kind))
    (htext : scalarText b.nodes (b.nodes.size + 1) i = .ok text)
    (hs : ScalarValue.ofText text (b.nodes[i]?.getD noNode).start kind = .ok s) :
    Gives b.nodes i (.value (.scalar s)) := by
  have hn := Array.getElem?_eq_getElem hi
  rw [hn, Option.getD_some] at htag hs
  refine .scalar hn (.inl htag) hs fun own hown => ?_
  rw [textAt, hn, Option.bind_some, Node.text?] at hown
  split at hown
  · next hcontent =>
      cases hown
      simpa only [scalarText, hn, Option.getD_some, hcontent, Except.ok.injEq] using htext
  · cases hown

theorem made_kept (hsize : b.made.size = b.nodes.size)
    (hnull : b.nodes.size ≤ i → item = .value .null) :
    Made (b.made.setIfInBounds i (some item)) i item := by
  rcases Nat.lt_or_ge i b.made.size with hi | hout
  · exact .inl (by rw [Array.getElem?_setIfInBounds_self_of_lt hi])
  · exact .inr ⟨by rwa [Array.size_setIfInBounds], hnull (hsize ▸ hout)⟩

theorem make_eq_ok (hsize : b.made.size = b.nodes.size) (h : (make i).run b = .ok (item, b')) :
    Grows b b' ∧ Made b'.made i item := by
  obtain ⟨_, _, hb, h⟩ := run_bind_eq_ok.mp h
  cases hb
  split at h
  · next kept hkept =>
      obtain ⟨rfl, rfl⟩ := run_pure_eq_ok.mp h
      exact ⟨.refl b, .inl hkept⟩
  · next hnew =>
      obtain ⟨_, _, hn, h⟩ := run_bind_eq_ok.mp h
      cases hn
      dsimp only at h
      split at h
      · next kind htag =>
          obtain ⟨_, b₁, hscalar, h⟩ := run_bind_eq_ok.mp h
          obtain ⟨rfl, text, s, htext, hs, rfl⟩ := scalar_eq_ok hscalar
          cases h
          refine ⟨grows_keep hnew fun hi => ?_, made_kept hsize fun hout => ?_⟩
          · exact gives_scalar (hsize ▸ hi) htag htext hs
          rw [Array.getElem?_eq_none hout, Option.getD_none, meaning_noNode] at htag
          cases htag
          cases hs
          rfl
      · next kind htag =>
          cases h
          have hi : i < b.nodes.size := by
            by_contra hout
            have hnone := Array.getElem?_eq_none (Nat.not_lt.mp hout)
            rw [hnone, Option.getD_none, meaning_noNode] at htag
            cases htag
          have hn := Array.getElem?_eq_getElem hi
          rw [hn, Option.getD_some] at htag
          exact ⟨grows_container hnew (hsize ▸ hi) (.container hn htag _),
            .inl (by simp [hsize, hi])⟩
      · cases h

theorem makeAll_eq_ok {nodes : List Nat} {items : List RawItem}
    (hsize : b.made.size = b.nodes.size) (h : (makeAll nodes).run b = .ok (items, b')) :
    Grows b b' ∧ List.Forall₂ (Made b'.made) nodes items := by
  induction nodes generalizing b items with
  | nil =>
      obtain ⟨rfl, rfl⟩ := run_pure_eq_ok.mp h
      exact ⟨.refl b, .nil⟩
  | cons i rest ih =>
      obtain ⟨item, b₁, hone, h⟩ := run_bind_eq_ok.mp h
      obtain ⟨hgrows, hmade⟩ := make_eq_ok hsize hone
      obtain ⟨others, b₂, hothers, h⟩ := run_bind_eq_ok.mp h
      obtain ⟨rfl, rfl⟩ := run_pure_eq_ok.mp h
      obtain ⟨hmore, hall⟩ := ih (hgrows.sized hsize) hothers
      exact ⟨hgrows.trans hmore, .cons (hmore.made.isMade hmade) hall⟩

/-! ### Making the entries of a mapping -/

theorem origin_eq_ok {s : Scalar} {from_ : Option Nat}
    (h : (origin k s).run b = .ok (from_, b')) :
    b' = b ∧ (from_ = some k ∨ from_ = none ∧ ∃ x : Float, s = .float x ∧ x.isNaN = true) := by
  obtain ⟨_, _, hb, h⟩ := run_bind_eq_ok.mp h
  cases hb
  split at h
  · next x text htext _ =>
      obtain ⟨rfl, rfl⟩ := run_pure_eq_ok.mp h
      refine ⟨rfl, ?_⟩
      split
      · next hnan =>
          rw [Bool.and_eq_true] at hnan
          exact .inr ⟨rfl, x, rfl, hnan.1⟩
      · exact .inl rfl
  · obtain ⟨rfl, rfl⟩ := run_pure_eq_ok.mp h
    exact ⟨rfl, .inl rfl⟩

theorem key_eq_ok {since : Mark} (hsize : b.made.size = b.nodes.size)
    (h : (Builder.key since k).run b = .ok (key, b')) : Grows b b' ∧ KeyOf b'.made k key := by
  obtain ⟨item, b₁, hmake, h⟩ := run_bind_eq_ok.mp h
  obtain ⟨hgrows, hmade⟩ := make_eq_ok hsize hmake
  split at h
  · next s =>
      obtain ⟨from_, b₂, horigin, hrest⟩ := run_bind_eq_ok.mp h
      obtain ⟨rfl, hfrom⟩ := origin_eq_ok horigin
      obtain ⟨rfl, rfl⟩ := run_pure_eq_ok.mp hrest
      exact ⟨hgrows, hmade, hfrom⟩
  · obtain ⟨_, _, hn, h⟩ := run_bind_eq_ok.mp h
    exact absurd h not_run_refuseIn

theorem entries_eq_ok {since : Mark} {pairs : List (Nat × Nat)} {done es : List (Key × RawItem)}
    (hsize : b.made.size = b.nodes.size) (h : (entries since pairs done).run b = .ok (es, b')) :
    Grows b b' ∧ ∃ dropped, Sifted b'.made pairs done es dropped := by
  induction pairs generalizing done b with
  | nil =>
      obtain ⟨rfl, rfl⟩ := run_pure_eq_ok.mp h
      exact ⟨.refl b, [], .nil⟩
  | cons p rest ih =>
      obtain ⟨k, value⟩ := p
      obtain ⟨key, b₁, hkey, h⟩ := run_bind_eq_ok.mp h
      obtain ⟨hgrows, hisKey⟩ := key_eq_ok hsize hkey
      have hsize₁ := hgrows.sized hsize
      split at h
      · next hagain =>
          obtain ⟨hmore, dropped, hsifted⟩ := ih hsize₁ h
          rw [List.any_eq_true] at hagain
          exact ⟨hgrows.trans hmore, _, .drop (hmore.made.keyOf hisKey) hagain hsifted⟩
      · next hnew =>
          obtain ⟨item, b₂, hmake, h⟩ := run_bind_eq_ok.mp h
          obtain ⟨hitem, hmade⟩ := make_eq_ok hsize₁ hmake
          obtain ⟨hmore, dropped, hsifted⟩ := ih (hitem.sized hsize₁) h
          rw [List.any_eq_true] at hnew
          have hnew : ∀ e ∈ done, e.1.same key = false := fun e he =>
            Bool.eq_false_iff.mpr fun hsame => hnew ⟨e, he, hsame⟩
          exact ⟨hgrows.trans (hitem.trans hmore), dropped,
            .keep ((hitem.trans hmore).made.keyOf hisKey) hnew (hmore.made.isMade hmade) hsifted⟩

theorem pairItem_eq_ok {activity : Activity} {since : Mark} (hsize : b.made.size = b.nodes.size)
    (h : (pairItem activity since i).run b = .ok (item, b')) :
    Grows b b' ∧ ∃ parts, item = .tuple parts := by
  obtain ⟨_, _, hn, h⟩ := run_bind_eq_ok.mp h
  cases hn
  split at h
  · obtain ⟨name, b₁, hname, h⟩ := run_bind_eq_ok.mp h
    obtain ⟨hgrows, -⟩ := make_eq_ok hsize hname
    obtain ⟨value, b₂, hvalue, h⟩ := run_bind_eq_ok.mp h
    obtain ⟨hmore, -⟩ := make_eq_ok (hgrows.sized hsize) hvalue
    obtain ⟨rfl, rfl⟩ := run_pure_eq_ok.mp h
    exact ⟨hgrows.trans hmore, _, rfl⟩
  · exact absurd h not_run_refuseIn
  · exact absurd h not_run_refuseIn

theorem pairItems_eq_ok {activity : Activity} {since : Mark} {nodes : List Nat}
    {items : List RawItem} (hsize : b.made.size = b.nodes.size)
    (h : (pairItems activity since nodes).run b = .ok (items, b')) :
    Grows b b' ∧ ∀ item ∈ items, ∃ parts, item = .tuple parts := by
  induction nodes generalizing b items with
  | nil =>
      obtain ⟨rfl, rfl⟩ := run_pure_eq_ok.mp h
      exact ⟨.refl b, List.forall_mem_nil _⟩
  | cons i rest ih =>
      obtain ⟨item, b₁, hone, h⟩ := run_bind_eq_ok.mp h
      obtain ⟨hgrows, hitem⟩ := pairItem_eq_ok hsize hone
      obtain ⟨others, b₂, hothers, h⟩ := run_bind_eq_ok.mp h
      obtain ⟨rfl, rfl⟩ := run_pure_eq_ok.mp h
      obtain ⟨hmore, hall⟩ := ih (hgrows.sized hsize) hothers
      exact ⟨hgrows.trans hmore, List.forall_mem_cons.mpr ⟨hitem, hall⟩⟩

theorem pairList_eq_ok {activity : Activity} {held : RawNode} (hsize : b.made.size = b.nodes.size)
    (h : (pairList activity i).run b = .ok (held, b')) :
    Grows b b' ∧ ∃ items, held = .list items ∧ ∀ item ∈ items, ∃ parts, item = .tuple parts := by
  obtain ⟨_, _, hn, h⟩ := run_bind_eq_ok.mp h
  cases hn
  split at h
  · obtain ⟨items, b₁, hitems, h⟩ := run_bind_eq_ok.mp h
    obtain ⟨rfl, rfl⟩ := run_pure_eq_ok.mp h
    obtain ⟨hgrows, hall⟩ := pairItems_eq_ok hsize hitems
    exact ⟨hgrows, items, rfl, hall⟩
  · exact absurd h not_run_refuseIn

end Builder

end AppSpec.Yaml
