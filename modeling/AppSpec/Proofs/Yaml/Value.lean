import AppSpec.Proofs.Yaml.Grammar
import AppSpec.Proofs.Yaml.Making

/-!
Making the values of nodes fails only at a scalar whose text is none of its kind, or at a mapping
that is tagged as a scalar.
-/

namespace AppSpec.Yaml

/-- A tag that a scalar may have, as a key at least. -/
def Tag.OfScalar (tag : String) : Prop :=
  tag = Tag.value ∨ ∃ kind, Tag.meaning? tag = some (.scalar kind)

/-- What making the values of nodes may fail at. -/
inductive NodeHurdle (nodes : Array Node) : Failure → Prop
  | scalar {n : Node} {kind : Tag.ScalarKind} {text : String} {style : Style} {f : Failure}
      (hn : n ∈ nodes) (hcontent : n.content = .scalar text style)
      (hkind : Tag.meaning? n.tag = some (.scalar kind))
      (h : ScalarValue.ofText text n.start kind = .error (.failure f)) : NodeHurdle nodes f
  | mapping {n : Node} {pairs : List (Nat × Nat)} {f : Failure} (hn : n ∈ nodes)
      (hcontent : n.content = .mapping pairs) (htag : Tag.OfScalar n.tag) : NodeHurdle nodes f

/-- A node that is what it looks like: a text or a mapping, or a sequence. -/
def Node.isPlain (n : Node) : Bool :=
  match n.content with
  | .scalar _ _ => n.tag == Tag.str
  | .mapping _ => n.tag == Tag.map
  | .sequence _ => true

theorem not_nodeHurdle {nodes : Array Node} (h : ∀ n ∈ nodes, n.isPlain = true) (f : Failure) :
    ¬ NodeHurdle nodes f := by
  rintro (⟨hn, hcontent, hkind, htext⟩ | ⟨hn, hcontent, htag⟩)
  · have hplain := h _ hn
    rw [Node.isPlain, hcontent] at hplain
    rw [eq_of_beq hplain, meaning_str] at hkind
    cases hkind
    cases htext
  · have hplain := h _ hn
    rw [Node.isPlain, hcontent] at hplain
    rw [eq_of_beq hplain] at htag
    rcases htag with htag | ⟨kind, hkind⟩
    · exact absurd htag (by decide)
    · have hmap : Tag.meaning? Tag.map = some (.collection .map) := by decide
      cases hmap.symm.trans hkind

/-- A node at which nothing else fails than what may. -/
structure Node.Legible (P : Failure → Prop) (n : Node) : Prop where
  scalar : ∀ {kind : Tag.ScalarKind} {text : String} {style : Style} {f : Failure},
    n.content = .scalar text style → Tag.meaning? n.tag = some (.scalar kind) →
      ScalarValue.ofText text n.start kind = .error (.failure f) → P f
  mapping : ∀ {pairs : List (Nat × Nat)} {f : Failure}, n.content = .mapping pairs →
    Tag.OfScalar n.tag → P f

theorem legible_of_mem {nodes : Array Node} {n : Node} (hn : n ∈ nodes) :
    n.Legible (NodeHurdle nodes) :=
  ⟨fun hcontent hkind h => .scalar hn hcontent hkind h, fun hcontent htag => .mapping hn hcontent htag⟩

variable {P : Failure → Prop} {n : Node}

theorem Node.Legible.withPairs (h : n.Legible P) {old pairs : List (Nat × Nat)}
    (hn : n.content = .mapping old) : Node.Legible P { n with content := .mapping pairs } :=
  ⟨nofun, fun _ htag => h.mapping hn htag⟩

/-- A text is the text of a key that is retagged. -/
theorem Node.Legible.retag (h : n.Legible P) (hn : n.tag = Tag.value) :
    Node.Legible P { n with tag := Tag.str } := by
  refine ⟨fun _ hkind htext => ?_, fun hcontent _ => h.mapping hcontent (.inl hn)⟩
  obtain rfl := Tag.Meaning.scalar.inj (Option.some.inj (meaning_str.symm.trans hkind))
  cases htext

namespace Builder

open Build

theorem legible_noNode : noNode.Legible P := by
  refine ⟨fun hcontent hkind htext => ?_, nofun⟩
  obtain rfl := Tag.Meaning.scalar.inj (Option.some.inj (meaning_noNode.symm.trans hkind))
  cases htext

/-- The nodes are legible, and it is these that are mappings. -/
structure Sound (P : Failure → Prop) (M : Nat → Prop) (b : Builder) : Prop where
  legible : ∀ n ∈ b.nodes, n.Legible P
  mapping : ∀ i, M i ↔ ∃ n pairs, b.nodes[i]? = some n ∧ n.content = .mapping pairs

variable {α β : Type} {M : Nat → Prop}

/-- From sound nodes on, making ends in sound nodes, or in a failure that may be. -/
abbrev Safe (P : Failure → Prop) (M : Nat → Prop) (x : Build α) : Prop := Yaml.Safe P (Sound P M) x

theorem safe_update {f : Builder → Builder} (h : ∀ b, (f b).nodes = b.nodes) :
    Safe P M (modify f) :=
  safe_modify fun b hb => ⟨h b ▸ hb.legible, h b ▸ hb.mapping⟩

theorem safe_refuse {problem : Problem} {mark : Mark} :
    Safe P M (refuse problem mark : Build α) := safe_stopAt

theorem safe_refuseIn {activity : Activity} {since mark : Mark} {problem : Problem} :
    Safe P M (refuseIn activity since problem mark : Build α) := safe_stopIn

theorem Sound.legibleAt {b : Builder} (h : Sound P M b) (i : Nat) :
    (b.nodes[i]?.getD noNode).Legible P := by
  cases hi : b.nodes[i]? with
  | none => exact legible_noNode
  | some n => exact h.legible n (Array.mem_of_getElem? hi)

theorem Sound.mappingAt {b : Builder} (h : Sound P M b) {i : Nat} {pairs : List (Nat × Nat)}
    (hi : (b.nodes[i]?.getD noNode).content = .mapping pairs) : M i := by
  cases hn : b.nodes[i]? with
  | none =>
      rw [hn] at hi
      cases hi
  | some n =>
      rw [hn] at hi
      exact (h.mapping i).mpr ⟨n, pairs, hn, hi⟩

/-- What is done with a node may use that it is legible, and whether it is a mapping. -/
theorem safe_node {i : Nat} {f : Node → Build α}
    (hf : ∀ n, n.Legible P → (∀ {pairs}, n.content = .mapping pairs → M i) → Safe P M (f n)) :
    Safe P M (node i >>= f) :=
  ⟨fun b hb => (hf _ (hb.legibleAt i) hb.mappingAt).ends b hb⟩

theorem safe_pairs (i : Nat) : Safe P M (pairs i) := safe_node fun _ _ _ => safe_pure _

theorem sound_modify {b : Builder} (h : Sound P M b) {i : Nat} {f : Node → Node}
    (hlegible : ∀ n, b.nodes[i]? = some n → (f n).Legible P)
    (hmapping : ∀ n, b.nodes[i]? = some n →
      ((∃ pairs, (f n).content = .mapping pairs) ↔ ∃ pairs, n.content = .mapping pairs)) :
    Sound P M { b with nodes := b.nodes.modify i f } := by
  constructor
  · intro n hn
    obtain ⟨j, hj⟩ := Array.mem_iff_getElem?.mp hn
    rw [Array.getElem?_modify] at hj
    split at hj
    · next hij =>
        subst hij
        obtain ⟨n', hn', rfl⟩ := Option.map_eq_some_iff.mp hj
        exact hlegible n' hn'
    · exact h.legible n (Array.mem_of_getElem? hj)
  · intro j
    rw [h.mapping, Array.getElem?_modify]
    split
    · next hij =>
        subst hij
        cases hn : b.nodes[i]? with
        | none => rfl
        | some n => simpa using (hmapping n hn).symm
    · rfl

theorem safe_setPairs {i : Nat} (hi : M i) (pairs : List (Nat × Nat)) :
    Safe P M (setPairs i pairs) := by
  refine ⟨.update fun b hb => sound_modify hb (fun n hn => ?_) fun n hn => ?_⟩
  · obtain ⟨n', old, hn', hold⟩ := (hb.mapping i).mp hi
    cases hn.symm.trans hn'
    exact (hb.legible n (Array.mem_of_getElem? hn)).withPairs hold
  · obtain ⟨n', old, hn', hold⟩ := (hb.mapping i).mp hi
    cases hn.symm.trans hn'
    exact ⟨fun _ => ⟨old, hold⟩, fun _ => ⟨pairs, rfl⟩⟩

theorem safe_retag (key : Nat) : Safe P M (retag key) := by
  refine ⟨.update fun b hb => sound_modify hb (fun n hn => ?_) fun n hn => ?_⟩
  · have hlegible := hb.legible n (Array.mem_of_getElem? hn)
    split
    · next htag => exact hlegible.retag (eq_of_beq htag)
    · exact hlegible
  · split
    · rfl
    · rfl

/-! ### Merging -/

theorem safe_nextMerge? (place : Nat) (pairs : List (Nat × Nat)) :
    Safe P M (nextMerge? place pairs) := by
  induction pairs generalizing place with
  | nil => exact safe_pure none
  | cons pair rest ih =>
      obtain ⟨key, value⟩ := pair
      rw [nextMerge?]
      refine safe_node fun n _ _ => ?_
      split
      · exact safe_pure _
      · exact (safe_retag key).bind fun _ => ih _

section Flatten

variable {flatten : Nat → Build Unit} (hflatten : ∀ j, M j → Safe P M (flatten j))

include hflatten

theorem safe_mergeItems {since : Mark} (items : List Nat) (merged : List (Nat × Nat)) :
    Safe P M (mergeItems flatten since items merged) := by
  induction items generalizing merged with
  | nil => exact safe_pure merged
  | cons item rest ih =>
      rw [mergeItems]
      refine safe_node fun n _ hmapping => ?_
      split
      · next hcontent =>
          exact (hflatten item (hmapping hcontent)).bind fun _ => (safe_pairs item).bind fun _ => ih _
      · exact safe_refuseIn

theorem safe_mergedPairs {since : Mark} (value : Nat) :
    Safe P M (mergedPairs flatten since value) := by
  rw [mergedPairs]
  refine safe_node fun n _ hmapping => ?_
  split
  · next hcontent => exact (hflatten value (hmapping hcontent)).bind fun _ => safe_pairs value
  · exact safe_mergeItems hflatten _ []
  · exact safe_refuseIn

end Flatten

theorem safe_flattenFrom (steps : Nat) {i : Nat} (hi : M i) (place : Nat)
    (merged : List (Nat × Nat)) : Safe P M (flattenFrom steps i place merged) := by
  induction steps generalizing i place merged with
  | zero => exact safe_pure _
  | succ steps ih =>
      rw [flattenFrom]
      refine (safe_pairs i).bind fun own => (safe_nextMerge? ..).bind fun found => ?_
      split
      · exact safe_setPairs hi _
      · exact (safe_setPairs hi _).bind fun _ => safe_node fun n _ _ =>
          (safe_mergedPairs (fun j hj => ih hj 0 []) _).bind fun more => ih hi _ _

theorem safe_orderedPairs {i : Nat} (hi : M i) : Safe P M (orderedPairs i) := by
  have hflatten : Safe P M (flatten i) := safe_get.bind fun _ => safe_flattenFrom _ hi 0 []
  have hcount : Safe P M (ownCount i) := safe_get.bind fun _ => safe_pure _
  exact hcount.bind fun _ => hflatten.bind fun _ => (safe_pairs i).bind fun _ => safe_pure _

/-! ### Making -/

theorem scalar_eq_error {kind : Tag.ScalarKind} {i : Nat} {b : Builder} {stop : Stop}
    (h : (scalar kind i n).run b = .error stop) :
    scalarText b.nodes (b.nodes.size + 1) i = .error stop ∨
      ∃ text, scalarText b.nodes (b.nodes.size + 1) i = .ok text ∧
        (n.text? = none ∨ ScalarValue.ofText text n.start kind = .error stop) := by
  rcases run_bind_eq_error.mp h with hget | ⟨_, _, hget, h⟩
  · cases hget
  · cases hget
    rcases run_bind_eq_error.mp h with hlift | ⟨text, _, hlift, h⟩
    · exact .inl (run_lift_eq_error.mp hlift)
    · obtain ⟨htext, rfl⟩ := run_lift_eq_ok.mp hlift
      refine .inr ⟨text, htext, ?_⟩
      dsimp only at h
      split at h
      · next hkind =>
          exact .inl (Option.isNone_iff_eq_none.mp (Bool.and_eq_true_iff.mp hkind).2)
      · rcases run_bind_eq_error.mp h with hlift | ⟨_, _, _, h⟩
        · exact .inr (run_lift_eq_error.mp hlift)
        · cases h

theorem run_get_bind {f : Builder → Build α} {b : Builder} :
    ((get : Build Builder) >>= f).run b = (f b).run b := rfl

theorem run_node_bind {i : Nat} {f : Node → Build α} {b : Builder} :
    (node i >>= f).run b = (f (b.nodes[i]?.getD noNode)).run b := rfl

/-- Only of a mapping, a scalar is made with a text that is not its own. -/
theorem ends_scalar {b : Builder} (hb : Sound P M b) {i : Nat} {kind : Tag.ScalarKind}
    (hkind : Tag.meaning? (b.nodes[i]?.getD noNode).tag = some (.scalar kind)) :
    Ends (Stop.FailsIn P) (fun r => Sound P M r.2)
      ((scalar kind i (b.nodes[i]?.getD noNode)).run b) := by
  have hlegible := hb.legibleAt i
  cases hrun : (scalar kind i (b.nodes[i]?.getD noNode)).run b with
  | ok r =>
      have hstate : r.2 = b := (scalar_eq_ok hrun).1
      exact (hstate.symm ▸ hb : Sound P M r.2)
  | error stop =>
      rintro f rfl
      have herror := scalar_eq_error hrun
      rw [scalarText] at herror
      cases hcontent : (b.nodes[i]?.getD noNode).content with
      | scalar text style =>
          rw [hcontent] at herror
          rcases herror with htext | ⟨_, htext, hnone | hvalue⟩
          · cases htext
          · rw [Node.text?, hcontent] at hnone
            cases hnone
          · cases htext
            exact hlegible.scalar hcontent hkind hvalue
      | sequence items =>
          rw [hcontent] at herror
          rcases herror with htext | ⟨_, htext, -⟩
          · cases htext
          · cases htext
      | mapping pairs => exact hlegible.mapping hcontent (.inr ⟨kind, hkind⟩)

theorem safe_container (kind : Tag.CollectionKind) (i : Nat) : Safe P M (container kind i) :=
  ⟨fun _ hb => ⟨trivial, hb.legible, hb.mapping⟩⟩

theorem ends_kept {x : Build RawItem} {b : Builder}
    (hx : Ends (Stop.FailsIn P) (fun r => Sound P M r.2) (x.run b)) (i : Nat) :
    Ends (Stop.FailsIn P) (fun r => True ∧ Sound P M r.2) ((do
      let item ← x
      modify fun b => { b with made := b.made.setIfInBounds i (some item) }
      return item : Build RawItem).run b) :=
  hx.bind fun _ h => ⟨trivial, h.legible, h.mapping⟩

theorem safe_make (i : Nat) : Safe P M (make i) := by
  refine ⟨fun b hb => ?_⟩
  rw [make, run_get_bind]
  split
  · exact (safe_pure (I := Sound P M) _).ends b hb
  · rw [run_node_bind]
    dsimp only
    split
    · next kind hkind => exact ends_kept (ends_scalar hb hkind) i
    · next kind _ => exact ends_kept (((safe_container kind i).ends b hb).result fun _ h => h.2) i
    · exact ends_kept ((safe_refuse.ends b hb).result fun _ h => h.2) i

theorem safe_makeAll (is : List Nat) : Safe P M (makeAll is) := by
  induction is with
  | nil => exact safe_pure _
  | cons i rest ih => exact (safe_make i).bind fun _ => ih.bind fun _ => safe_pure _

theorem safe_origin (i : Nat) (s : Scalar) : Safe P M (origin i s) := by
  refine safe_get.bind fun b => ?_
  split
  · exact safe_pure _
  · exact safe_pure _

theorem safe_key {since : Mark} (i : Nat) : Safe P M (key since i) := by
  refine (safe_make i).bind fun item => ?_
  split
  · exact (safe_origin i _).bind fun _ => safe_pure _
  · exact safe_node fun _ _ _ => safe_refuseIn

theorem safe_entries {since : Mark} (pairs : List (Nat × Nat)) (done : List (Key × RawItem)) :
    Safe P M (entries since pairs done) := by
  induction pairs generalizing done with
  | nil => exact safe_pure done
  | cons pair rest ih =>
      obtain ⟨k, value⟩ := pair
      rw [entries]
      refine (safe_key k).bind fun key => ?_
      split
      · exact ih done
      · exact (safe_make value).bind fun _ => ih _

theorem safe_mappingEntries (i : Nat) : Safe P M (mappingEntries i) := by
  refine safe_node fun n _ hmapping => ?_
  split
  · next hcontent =>
      exact (safe_orderedPairs (hmapping hcontent)).bind fun _ => (safe_entries ..).bind fun _ =>
        safe_pure _
  · exact safe_refuse

theorem safe_pairItem {activity : Activity} {since : Mark} (i : Nat) :
    Safe P M (pairItem activity since i) := by
  refine safe_node fun n _ _ => ?_
  split
  · exact (safe_make _).bind fun _ => (safe_make _).bind fun _ => safe_pure _
  · exact safe_refuseIn
  · exact safe_refuseIn

theorem safe_pairItems {activity : Activity} {since : Mark} (is : List Nat) :
    Safe P M (pairItems activity since is) := by
  induction is with
  | nil => exact safe_pure _
  | cons i rest ih => exact (safe_pairItem i).bind fun _ => ih.bind fun _ => safe_pure _

theorem safe_pairList (activity : Activity) (i : Nat) : Safe P M (pairList activity i) := by
  refine safe_node fun n _ _ => ?_
  split
  · exact (safe_pairItems _).bind fun _ => safe_pure _
  · exact safe_refuseIn

theorem safe_filling (i : Nat) (kind : Tag.CollectionKind) : Safe P M (filling i kind) := by
  cases kind with
  | seq =>
      refine safe_node fun n _ _ => ?_
      split
      · exact (safe_makeAll _).bind fun _ => safe_pure _
      · exact safe_refuse
  | map => exact (safe_mappingEntries i).bind fun _ => safe_pure _
  | set => exact (safe_mappingEntries i).bind fun _ => safe_pure _
  | omap => exact safe_pairList .orderedMap i
  | pairs => exact safe_pairList .pairs i

theorem safe_settle (steps : Nat) : Safe P M (settle steps) := by
  induction steps with
  | zero => exact safe_pure _
  | succ steps ih =>
      rw [settle]
      refine ⟨fun b hb => ?_⟩
      rw [run_get_bind]
      split
      · exact (safe_pure (I := Sound P M) _).ends b hb
      · next kind i index rest _ =>
          have hrest := (safe_filling (P := P) (M := M) i kind).bind fun c =>
            .bind (safe_update (f := fun b => { b with containers := b.containers.setIfInBounds index c })
              fun _ => rfl) fun _ => ih
          exact hrest.ends { b with pending := rest } ⟨hb.legible, hb.mapping⟩

theorem safe_document (root : Nat) : Safe P M (document root) :=
  (safe_make root).bind fun _ => safe_get.bind fun _ => (safe_settle _).bind fun _ =>
    safe_get.bind fun _ => safe_pure _

end Builder

/-- The values of nodes are made, unless a fault is told or there is a hurdle. -/
theorem NodeGraph.ends_value (g : NodeGraph) :
    Ends (Stop.FailsIn (NodeHurdle g.nodes)) (fun _ => True) g.value :=
  (Builder.safe_document g.root).ends
    { nodes := g.nodes, made := Array.replicate g.nodes.size none }
    ⟨fun _ => legible_of_mem, fun _ => Iff.rfl⟩ |>.map fun _ _ => trivial

end AppSpec.Yaml
