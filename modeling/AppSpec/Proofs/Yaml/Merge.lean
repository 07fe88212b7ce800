import AppSpec.Proofs.Outcome
import AppSpec.Proofs.Yaml.Flat
import Mathlib.Algebra.Order.BigOperators.Group.Finset

/-!
Flattening keeps nodes flat. It touches no mappings but the one that is flattened and those that it
merges, and leaves no merge key in those that it touches.
-/

namespace AppSpec.Yaml

open Relation

/-! ### Running -/

namespace Build

variable {α β : Type}

theorem run_bind_eq_ok {x : Build α} {f : α → Build β} {b b' : Builder} {r : β} :
    (x >>= f).run b = .ok (r, b') ↔
      ∃ a b₁, x.run b = .ok (a, b₁) ∧ (f a).run b₁ = .ok (r, b') := by
  rw [StateT.run_bind, bind_eq_ok]
  exact Prod.exists

theorem run_pure_eq_ok {a r : α} {b b' : Builder} :
    (pure a : Build α).run b = .ok (r, b') ↔ a = r ∧ b = b' := by
  constructor
  · intro h
    cases h
    exact ⟨rfl, rfl⟩
  · rintro ⟨rfl, rfl⟩
    rfl

theorem run_lift_eq_ok {x : Except Stop α} {r : α} {b b' : Builder} :
    (StateT.lift x : Build α).run b = .ok (r, b') ↔ x = .ok r ∧ b = b' := by
  rw [StateT.run_lift, bind_eq_ok]
  constructor
  · rintro ⟨a, hx, h⟩
    cases h
    exact ⟨hx, rfl⟩
  · rintro ⟨rfl, rfl⟩
    exact ⟨r, rfl, rfl⟩

theorem run_bind_eq_error {x : Build α} {f : α → Build β} {b : Builder} {stop : Stop} :
    (x >>= f).run b = .error stop ↔ x.run b = .error stop ∨
      ∃ a b₁, x.run b = .ok (a, b₁) ∧ (f a).run b₁ = .error stop := by
  rw [StateT.run_bind, bind_eq_error]
  exact or_congr_right Prod.exists

theorem run_lift_eq_error {x : Except Stop α} {b : Builder} {stop : Stop} :
    (StateT.lift x : Build α).run b = .error stop ↔ x = .error stop := by
  cases x with
  | ok a => exact ⟨nofun, nofun⟩
  | error e => exact ⟨fun h => by cases h; rfl, fun h => by cases h; rfl⟩

end Build

namespace Builder

open Build

variable {b b' : Builder} {i j : Nat} {pairs : List (Nat × Nat)}

theorem pairs?_node (nodes : Array Node) (i : Nat) :
    ((nodes[i]?.getD noNode).pairs?).getD [] = pairsAt nodes i := by
  rw [pairsAt]
  cases nodes[i]? <;> rfl

theorem run_pairs : (Builder.pairs i).run b = .ok (pairsAt b.nodes i, b) :=
  pairs?_node b.nodes i ▸ rfl

theorem run_setPairs :
    (setPairs i pairs).run b = .ok ((), { b with nodes := withPairs b.nodes i pairs }) := rfl

theorem isMerge_node : (b.nodes[i]?.getD noNode).isMerge = isMergeAt b.nodes i := by
  rw [isMergeAt]
  cases b.nodes[i]? with
  | none => decide
  | some n => rfl

theorem isMapping_of_node (h : (b.nodes[i]?.getD noNode).content = .mapping pairs) :
    IsMapping b.nodes i := by
  unfold IsMapping
  cases hn : b.nodes[i]? with
  | none =>
      rw [hn] at h
      cases h
  | some n =>
      rw [hn] at h
      simp [Node.pairs?, show n.content = _ from h]

theorem itemsAt_of_node {items : List Nat}
    (h : (b.nodes[i]?.getD noNode).content = .sequence items) : itemsAt b.nodes i = items := by
  unfold itemsAt
  cases hn : b.nodes[i]? with
  | none =>
      rw [hn] at h
      cases h
  | some n =>
      rw [hn] at h
      simp [Node.items?, show n.content = _ from h]

theorem not_run_refuseIn {α : Type} {activity : Activity} {since mark : Mark} {problem : Problem}
    {r : α} : (refuseIn activity since problem mark : Build α).run b ≠ .ok (r, b') := nofun

/-- Retagging a key changes no parts, and a key that becomes text was no merge key. -/
theorem alike_retag (key : Nat) (b : Builder) :
    ∃ nodes, (retag key).run b = .ok ((), { b with nodes }) ∧ Alike b.nodes nodes := by
  refine ⟨_, rfl, .modify fun n => ?_⟩
  split
  · next htag => exact .inr ⟨beq_iff_eq.mp htag, rfl⟩
  · exact .inl rfl

/-- What is found is the first merge key among some pairs, with its place. -/
def FirstMerge (nodes : Array Node) (place : Nat) (pairs : List (Nat × Nat)) :
    Option (Nat × Nat) → Prop
  | none => MergeFree nodes pairs
  | some (found, value) => ∃ before k after, pairs = before ++ (k, value) :: after ∧
      found = place + before.length ∧ MergeFree nodes before ∧ isMergeAt nodes k = true

theorem nextMerge?_eq_ok {place : Nat} {found : Option (Nat × Nat)}
    (h : (nextMerge? place pairs).run b = .ok (found, b')) :
    (∃ nodes, b' = { b with nodes } ∧ Alike b.nodes nodes) ∧ FirstMerge b.nodes place pairs found := by
  induction pairs generalizing place b with
  | nil =>
      obtain ⟨rfl, rfl⟩ := run_pure_eq_ok.mp h
      exact ⟨⟨_, rfl, .refl _⟩, nofun⟩
  | cons p rest ih =>
      obtain ⟨k, value⟩ := p
      obtain ⟨_, _, hn, h⟩ := run_bind_eq_ok.mp h
      cases hn
      rw [isMerge_node] at h
      split at h
      · next hmerge =>
          obtain ⟨rfl, rfl⟩ := run_pure_eq_ok.mp h
          exact ⟨⟨_, rfl, .refl _⟩, [], k, rest, rfl, rfl, nofun, hmerge⟩
      · next hown =>
          rw [Bool.not_eq_true] at hown
          obtain ⟨_, b₁, hr, hrest⟩ := run_bind_eq_ok.mp h
          obtain ⟨nodes, hr', halike⟩ := alike_retag k b
          rw [hr'] at hr
          cases hr
          obtain ⟨⟨nodes', rfl, halike'⟩, hfound⟩ := ih hrest
          refine ⟨⟨nodes', rfl, halike.trans halike'⟩, ?_⟩
          cases found with
          | none =>
              rintro q (_ | ⟨_, hq⟩)
              · exact hown
              · exact (halike.isMerge q.1).symm.trans (hfound q hq)
          | some found =>
              obtain ⟨found, value'⟩ := found
              obtain ⟨before, k', after, rfl, rfl, hbefore, hmerge⟩ := hfound
              refine ⟨(k, value) :: before, k', after, rfl, by rw [List.length_cons]; omega, ?_,
                (halike.isMerge k').symm.trans hmerge⟩
              rintro q (_ | ⟨_, hq⟩)
              · exact hown
              · exact (halike.isMerge q.1).symm.trans (hbefore q hq)

end Builder

/-! ### The measure of what is left to merge -/

theorem foldl_add_eq_sum_range {α : Type} (f : α → Nat) (as : List α) (start : Nat) :
    as.foldl (fun n a => n + f a) start =
      start + ∑ i ∈ Finset.range as.length, (as[i]?.map f).getD 0 := by
  induction as generalizing start with
  | nil => rfl
  | cons a as ih =>
      rw [List.foldl_cons, ih, List.length_cons, Finset.sum_range_succ']
      simp only [List.getElem?_cons_succ, List.getElem?_cons_zero, Option.map_some, Option.getD_some]
      omega

namespace Builder

variable {b b' : Builder} {i : Nat}

/-- How many merge keys stand in a mapping. -/
def mergeCountAt (nodes : Array Node) (i : Nat) : Nat :=
  (pairsAt nodes i).countP fun p => isMergeAt nodes p.1

theorem mergeCount_eq_sum (b : Builder) :
    b.mergeCount = ∑ i ∈ Finset.range b.nodes.size, mergeCountAt b.nodes i := by
  rw [mergeCount, foldl_add_eq_sum_range, Array.length_toList, Nat.zero_add]
  refine Finset.sum_congr rfl fun i _ => ?_
  rw [Array.getElem?_toList, mergeCountAt, pairsAt]
  cases b.nodes[i]? <;> rfl

theorem mergeCount_le (hsize : b'.nodes.size = b.nodes.size)
    (h : ∀ i, mergeCountAt b'.nodes i ≤ mergeCountAt b.nodes i) :
    b'.mergeCount ≤ b.mergeCount := by
  rw [mergeCount_eq_sum, mergeCount_eq_sum, hsize]
  exact Finset.sum_le_sum fun i _ => h i

theorem mergeCount_lt (hsize : b'.nodes.size = b.nodes.size) (hi : i < b.nodes.size)
    (h : ∀ i, mergeCountAt b'.nodes i ≤ mergeCountAt b.nodes i)
    (hlt : mergeCountAt b'.nodes i < mergeCountAt b.nodes i) : b'.mergeCount < b.mergeCount := by
  rw [mergeCount_eq_sum, mergeCount_eq_sum, hsize]
  exact Finset.sum_lt_sum (fun i _ => h i) ⟨i, Finset.mem_range.mpr hi, hlt⟩

end Builder

/-! ### Flattening -/

/-- One mapping is flattened: those that it merges, at once or through others, and no further ones
may be flattened with it. -/
structure Merged (nodes₀ : Array Node) (i : Nat) (b b' : Builder) : Prop where
  made : b'.made = b.made
  containers : b'.containers = b.containers
  pending : b'.pending = b.pending
  flat : Flat nodes₀ b'.nodes
  mapping : ∀ j, IsMapping b'.nodes j ↔ IsMapping b.nodes j
  changed : ∀ j, pairsAt b'.nodes j = pairsAt b.nodes j ∨
    MergeFree nodes₀ (pairsAt b'.nodes j) ∧ ReflTransGen (Merges nodes₀) i j

namespace Merged

variable {nodes₀ : Array Node} {i j : Nat} {b b' b'' : Builder}

theorem refl (h : Flat nodes₀ b.nodes) : Merged nodes₀ i b b :=
  ⟨rfl, rfl, rfl, h, fun _ => .rfl, fun _ => .inl rfl⟩

theorem trans (h : Merged nodes₀ i b b') (h' : Merged nodes₀ i b' b'') : Merged nodes₀ i b b'' where
  made := h'.made.trans h.made
  containers := h'.containers.trans h.containers
  pending := h'.pending.trans h.pending
  flat := h'.flat
  mapping j := (h'.mapping j).trans (h.mapping j)
  changed j := by
    rcases h'.changed j with hsame | hfree
    · rw [hsame]
      exact h.changed j
    · exact .inr hfree

theorem of_merges (hm : Merges nodes₀ i j) (h : Merged nodes₀ j b b') : Merged nodes₀ i b b' :=
  { h with changed := fun m => (h.changed m).imp_right fun ⟨hfree, hj⟩ => ⟨hfree, hj.head hm⟩ }

theorem of_alike {nodes : Array Node} (h : Flat nodes₀ b.nodes) (ha : Alike b.nodes nodes) :
    Merged nodes₀ i b { b with nodes } :=
  ⟨rfl, rfl, rfl, h.alike ha, ha.mapping, fun j => .inl (ha.pairs j)⟩

/-- What is brought in goes in front of a mapping that has no merge key left. -/
theorem of_append {merged : List (Nat × Nat)} (hflat : Flat nodes₀ b.nodes)
    (hi : IsMapping b.nodes i) (hmerged : ∀ p ∈ merged, Brought nodes₀ i p)
    (hown : MergeFree nodes₀ (pairsAt b.nodes i)) :
    let b' := { b with nodes := withPairs b.nodes i (merged ++ pairsAt b.nodes i) }
    Merged nodes₀ i b b' ∧ MergeFree nodes₀ (pairsAt b'.nodes i) := by
  intro b'
  have hset : pairsAt b'.nodes i = merged ++ pairsAt b.nodes i := by
    rw [pairsAt_withPairs hi, if_pos rfl]
  have hfree : MergeFree nodes₀ (pairsAt b'.nodes i) := by
    rw [hset]
    intro p hp
    rcases List.mem_append.mp hp with hp | hp
    · exact (hmerged p hp).isMergeAt_eq
    · exact hown p hp
  refine ⟨⟨rfl, rfl, rfl, hflat.withPairs hi ?_, fun j => isMapping_withPairs hi, fun j => ?_⟩, hfree⟩
  · obtain ⟨front, back, heq, hsub, hwritten, hfront⟩ := hflat.pairs i
    refine ⟨merged ++ front, back, by rw [heq, List.append_assoc], hsub, hwritten, fun p hp => ?_⟩
    exact (List.mem_append.mp hp).elim (hmerged p) (hfront p)
  · by_cases hj : j = i
    · subst hj
      exact .inr ⟨hfree, .refl⟩
    · exact .inl (by rw [pairsAt_withPairs hi, if_neg hj])

/-- What the pairs of a mapping are in between does not show when it is flattened in the end. -/
theorem of_withPairs {pairs : List (Nat × Nat)} (hi : IsMapping b.nodes i)
    (h : Merged nodes₀ i { b with nodes := withPairs b.nodes i pairs } b')
    (hfree : MergeFree nodes₀ (pairsAt b'.nodes i)) : Merged nodes₀ i b b' where
  made := h.made
  containers := h.containers
  pending := h.pending
  flat := h.flat
  mapping j := (h.mapping j).trans (isMapping_withPairs hi)
  changed j := by
    by_cases hj : j = i
    · subst hj
      exact .inr ⟨hfree, .refl⟩
    · refine (h.changed j).imp_left fun hsame => ?_
      rw [hsame, pairsAt_withPairs hi, if_neg hj]

theorem mergeCount_le (h : Merged nodes₀ i b b') (hflat : Flat nodes₀ b.nodes) :
    b'.mergeCount ≤ b.mergeCount := by
  refine Builder.mergeCount_le (h.flat.size.trans hflat.size.symm) fun j => ?_
  simp only [Builder.mergeCountAt, h.flat.isMerge, hflat.isMerge]
  rcases h.changed j with hsame | ⟨hfree, -⟩
  · rw [hsame]
  · rw [List.countP_eq_zero.mpr fun p hp => by simp [hfree p hp]]
    exact Nat.zero_le _

end Merged

namespace Builder

open Build

variable {nodes₀ : Array Node} {i j : Nat} {b b' : Builder} {p : Nat × Nat}
  {merged more : List (Nat × Nat)}

/-- A way to flatten mappings of which at most so many merge keys are left does it. -/
def Flattens (nodes₀ : Array Node) (bound : Nat) (f : Nat → Build Unit) : Prop :=
  ∀ j b b', IsMapping b.nodes j → Flat nodes₀ b.nodes → b.mergeCount < bound →
    (f j).run b = .ok ((), b') →
    Merged nodes₀ j b b' ∧ MergeFree nodes₀ (pairsAt b'.nodes j)

variable {bound : Nat} {f : Nat → Build Unit}

theorem mergeItems_eq_ok {since : Mark} {items : List Nat} (hf : Flattens nodes₀ bound f)
    (hflat : Flat nodes₀ b.nodes) (hcount : b.mergeCount < bound)
    (hitems : ∀ j ∈ items, Merges nodes₀ i j) (hmerged : ∀ p ∈ merged, Brought nodes₀ i p)
    (h : (mergeItems f since items merged).run b = .ok (more, b')) :
    Merged nodes₀ i b b' ∧ ∀ p ∈ more, Brought nodes₀ i p := by
  induction items generalizing merged b with
  | nil =>
      obtain ⟨rfl, rfl⟩ := run_pure_eq_ok.mp h
      exact ⟨.refl hflat, hmerged⟩
  | cons j rest ih =>
      obtain ⟨_, _, hn, h⟩ := run_bind_eq_ok.mp h
      cases hn
      split at h
      · next ps hcontent =>
          obtain ⟨_, b₁, hj, h⟩ := run_bind_eq_ok.mp h
          obtain ⟨_, _, hp, hrest⟩ := run_bind_eq_ok.mp h
          rw [run_pairs] at hp
          cases hp
          obtain ⟨hone, hfree⟩ := hf j b b₁ (isMapping_of_node hcontent) hflat hcount hj
          have hmerges := hitems j List.mem_cons_self
          have hmore : ∀ p ∈ pairsAt b₁.nodes j ++ merged, Brought nodes₀ i p := by
            intro p hp
            rcases List.mem_append.mp hp with hp | hp
            · exact hone.flat.brought_of_merges hfree hmerges hp
            · exact hmerged p hp
          obtain ⟨hothers, hbrought⟩ := ih hone.flat
            (Nat.lt_of_le_of_lt (hone.mergeCount_le hflat) hcount)
            (fun j' hj' => hitems j' (List.mem_cons_of_mem _ hj')) hmore hrest
          exact ⟨(hone.of_merges hmerges).trans hothers, hbrought⟩
      · exact absurd h not_run_refuseIn

theorem mergedPairs_eq_ok {since : Mark} {k value : Nat} (hf : Flattens nodes₀ bound f)
    (hflat : Flat nodes₀ b.nodes) (hcount : b.mergeCount < bound)
    (hwritten : (k, value) ∈ pairsAt nodes₀ i) (hmerge : isMergeAt nodes₀ k = true)
    (h : (mergedPairs f since value).run b = .ok (more, b')) :
    Merged nodes₀ i b b' ∧ ∀ p ∈ more, Brought nodes₀ i p := by
  obtain ⟨_, _, hn, h⟩ := run_bind_eq_ok.mp h
  cases hn
  split at h
  · next ps hcontent =>
      obtain ⟨_, _, hvalue, hp⟩ := run_bind_eq_ok.mp h
      rw [run_pairs] at hp
      cases hp
      obtain ⟨hone, hfree⟩ := hf value b b' (isMapping_of_node hcontent) hflat hcount hvalue
      have hmerges : Merges nodes₀ i value := ⟨_, hwritten, hmerge, .inl rfl⟩
      exact ⟨hone.of_merges hmerges, fun p => hone.flat.brought_of_merges hfree hmerges⟩
  · next items hcontent =>
      refine mergeItems_eq_ok hf hflat hcount (fun j hj => ?_) (List.forall_mem_nil _) h
      refine ⟨_, hwritten, hmerge, .inr ?_⟩
      rwa [← hflat.items, itemsAt_of_node hcontent]
  · exact absurd h not_run_refuseIn

end Builder

namespace Builder

open Build

variable {nodes₀ : Array Node} {i : Nat} {b b' : Builder} {merged : List (Nat × Nat)}

/-- Taking out a merge key leaves one less. -/
theorem mergeCount_eraseMerge {before after : List (Nat × Nat)} {k value : Nat}
    (hi : IsMapping b.nodes i) (hpairs : pairsAt b.nodes i = before ++ (k, value) :: after)
    (hmerge : isMergeAt b.nodes k = true) :
    mergeCount { b with nodes := withPairs b.nodes i (before ++ after) } < b.mergeCount := by
  have hlt : mergeCountAt (withPairs b.nodes i (before ++ after)) i < mergeCountAt b.nodes i := by
    simp only [mergeCountAt, isMergeAt_withPairs, pairsAt_withPairs hi, hpairs, if_true,
      List.countP_append, List.countP_cons, hmerge]
    omega
  refine mergeCount_lt size_withPairs ?_ (fun j => ?_) hlt
  · by_contra hout
    rw [IsMapping, Array.getElem?_eq_none (Nat.not_lt.mp hout)] at hi
    cases hi
  · by_cases hj : j = i
    · rw [hj]
      exact Nat.le_of_lt hlt
    · simp only [mergeCountAt, isMergeAt_withPairs, pairsAt_withPairs hi, if_neg hj, Nat.le_refl]

/-- A list around an element that is found behind some place. -/
theorem eq_append_of_drop {own before after : List (Nat × Nat)} {p : Nat × Nat} {place : Nat}
    (h : own.drop place = before ++ p :: after) :
    own = (own.take place ++ before) ++ p :: after ∧
      (own.take place ++ before).length = place + before.length := by
  have hlength := congrArg List.length h
  simp only [List.length_drop, List.length_append, List.length_cons] at hlength
  refine ⟨by rw [List.append_assoc, ← h, List.take_append_drop], ?_⟩
  rw [List.length_append, List.length_take]
  omega

/-- Keys of which none is a merge key, next to those in front of them. -/
theorem mergeFree_take_append {own before : List (Nat × Nat)} {place : Nat}
    (hflat : Flat nodes₀ b.nodes) (hbefore : MergeFree nodes₀ (own.take place))
    (hfree : ∀ p ∈ before, isMergeAt b.nodes p.1 = false) :
    MergeFree nodes₀ (own.take place ++ before) := by
  intro p hp
  rcases List.mem_append.mp hp with hp | hp
  · exact hbefore p hp
  · exact (hflat.isMerge p.1).symm.trans (hfree p hp)

/-- One round of the loop: it ends where no merge key is left, or takes one out and goes on. -/
theorem flattenFrom_round {steps place : Nat}
    (h : (flattenFrom (steps + 1) i place merged).run b = .ok ((), b')) :
    ∃ found b₁, (nextMerge? place ((pairsAt b.nodes i).drop place)).run b = .ok (found, b₁) ∧
      (found = none ∧
        b' = { b₁ with nodes := withPairs b₁.nodes i (merged ++ pairsAt b.nodes i) } ∨
      ∃ next value since more b₂, found = some (next, value) ∧
        (mergedPairs (fun j => flattenFrom steps j 0 []) since value).run
          { b₁ with nodes := withPairs b₁.nodes i ((pairsAt b.nodes i).eraseIdx next) } =
            .ok (more, b₂) ∧
        (flattenFrom steps i next (merged ++ more)).run b₂ = .ok ((), b')) := by
  obtain ⟨_, _, hown, h⟩ := run_bind_eq_ok.mp h
  rw [run_pairs] at hown
  cases hown
  obtain ⟨found, b₁, hnext, h⟩ := run_bind_eq_ok.mp h
  refine ⟨found, b₁, hnext, ?_⟩
  cases found with
  | none =>
      rw [run_setPairs] at h
      cases h
      exact .inl ⟨rfl, rfl⟩
  | some found =>
      obtain ⟨next, value⟩ := found
      obtain ⟨_, _, hset, h⟩ := run_bind_eq_ok.mp h
      rw [run_setPairs] at hset
      cases hset
      obtain ⟨_, _, hn, h⟩ := run_bind_eq_ok.mp h
      cases hn
      obtain ⟨more, b₂, hmore, hrest⟩ := run_bind_eq_ok.mp h
      exact .inr ⟨next, value, _, more, b₂, rfl, hmore, hrest⟩

/-- The invariant of the loop: keys before the place are the mapping's own, and each round takes
out a merge key, so that the steps last. -/
theorem flattenFrom_eq_ok {steps place : Nat} (hi : IsMapping b.nodes i)
    (hflat : Flat nodes₀ b.nodes) (hcount : b.mergeCount < steps)
    (hbefore : MergeFree nodes₀ ((pairsAt b.nodes i).take place))
    (hmerged : ∀ p ∈ merged, Brought nodes₀ i p)
    (h : (flattenFrom steps i place merged).run b = .ok ((), b')) :
    Merged nodes₀ i b b' ∧ MergeFree nodes₀ (pairsAt b'.nodes i) := by
  induction steps generalizing i place merged b b' with
  | zero => exact absurd hcount (Nat.not_lt_zero _)
  | succ steps ih =>
      obtain ⟨found, b₁, hnext, hround⟩ := flattenFrom_round h
      obtain ⟨⟨nodes, hb₁, halike⟩, hfound⟩ := nextMerge?_eq_ok hnext
      have hlook : Merged nodes₀ i b b₁ := hb₁ ▸ .of_alike hflat halike
      replace halike : Alike b.nodes b₁.nodes := hb₁ ▸ halike
      clear hb₁
      have hi₁ := (halike.mapping i).mpr hi
      rw [← halike.pairs] at hround hbefore hfound
      rcases hround with ⟨rfl, rfl⟩ | ⟨next, value, since, more, b₂, rfl, hmore, hrest⟩
      · have hown := mergeFree_take_append hflat hbefore hfound
        rw [List.take_append_drop] at hown
        obtain ⟨happend, hfree⟩ := Merged.of_append hlook.flat hi₁ hmerged hown
        exact ⟨hlook.trans happend, hfree⟩
      · obtain ⟨before, k, after, hdrop, rfl, hfree, hmerge⟩ := hfound
        obtain ⟨hpairs, hplace⟩ := eq_append_of_drop hdrop
        have hearlier := mergeFree_take_append hflat hbefore hfree
        generalize (pairsAt b₁.nodes i).take place ++ before = earlier at hpairs hplace hearlier
        rw [← hplace] at hrest hmore
        rw [hpairs, List.eraseIdx_append_of_length_le (Nat.le_refl _), Nat.sub_self,
          List.eraseIdx_cons_zero] at hmore
        -- one merge key is gone, so the steps that are left are enough for the rest
        have hmerge₀ : isMergeAt nodes₀ k = true := (hflat.isMerge k).symm.trans hmerge
        have hflat₁ := hlook.flat.eraseMerge hi₁ hpairs hmerge₀
        have hcount₁ := mergeCount_eraseMerge hi₁ hpairs
          ((halike.isMerge k).trans hmerge)
        have hcount₂ := hlook.mergeCount_le hflat
        have hwritten : (k, value) ∈ pairsAt nodes₀ i := hlook.flat.mem_of_isMerge
          (hpairs ▸ List.mem_append_right _ List.mem_cons_self) hmerge₀
        have hsteps : Flattens nodes₀ steps fun j => flattenFrom steps j 0 [] :=
          fun j b b' hj hflat hcount h =>
            ih hj hflat hcount mergeFree_take_zero (List.forall_mem_nil _) h
        obtain ⟨hone, hbrought⟩ := mergedPairs_eq_ok hsteps hflat₁ (by omega) hwritten hmerge₀ hmore
        have hset : pairsAt (withPairs b₁.nodes i (earlier ++ after)) i = earlier ++ after := by
          rw [pairsAt_withPairs hi₁, if_pos rfl]
        have hbefore₂ : MergeFree nodes₀ ((pairsAt b₂.nodes i).take earlier.length) := by
          rcases hone.changed i with hsame | ⟨hfree, -⟩
          · rw [hsame, hset, List.take_left]
            exact hearlier
          · exact fun p hp => hfree p (List.mem_of_mem_take hp)
        obtain ⟨hloop, hall⟩ := ih ((hone.mapping i).mpr ((isMapping_withPairs hi₁).mpr hi₁))
          hone.flat (Nat.lt_of_le_of_lt (hone.mergeCount_le hflat₁) (by omega)) hbefore₂
          (fun p hp => (List.mem_append.mp hp).elim (hmerged p) (hbrought p)) hrest
        exact ⟨hlook.trans (.of_withPairs hi₁ (hone.trans hloop) hall), hall⟩

theorem flatten_eq_ok (hi : IsMapping b.nodes i) (hflat : Flat nodes₀ b.nodes)
    (h : (flatten i).run b = .ok ((), b')) :
    Merged nodes₀ i b b' ∧ MergeFree nodes₀ (pairsAt b'.nodes i) := by
  obtain ⟨_, _, hb, h⟩ := run_bind_eq_ok.mp h
  cases hb
  exact flattenFrom_eq_ok hi hflat (Nat.lt_succ_self _) mergeFree_take_zero
    (List.forall_mem_nil _) h

theorem run_ownCount :
    (ownCount i).run b =
      .ok (((pairsAt b.nodes i).filter fun p => !isMergeAt b.nodes p.1).length, b) := by
  rw [← List.countP_eq_length_filter]
  rfl

/-- A mapping that no other has flattened takes over its own pairs as they are written, and behind
them only what is brought in. -/
theorem orderedPairs_eq_ok {pairs : List (Nat × Nat)} (hi : IsMapping b.nodes i)
    (hflat : Flat nodes₀ b.nodes) (h : (orderedPairs i).run b = .ok (pairs, b')) :
    Merged nodes₀ i b b' ∧
      (pairsAt b.nodes i = pairsAt nodes₀ i → ∃ brought, pairs = writtenAt nodes₀ i ++ brought ∧
        ∀ p ∈ brought, Brought nodes₀ i p) := by
  obtain ⟨_, _, hcount, h⟩ := run_bind_eq_ok.mp h
  rw [run_ownCount] at hcount
  cases hcount
  obtain ⟨_, b₁, hflatten, h⟩ := run_bind_eq_ok.mp h
  obtain ⟨hmerged, hfree⟩ := flatten_eq_ok hi hflat hflatten
  obtain ⟨_, _, hall, h⟩ := run_bind_eq_ok.mp h
  rw [run_pairs] at hall
  cases hall
  obtain ⟨rfl, rfl⟩ := run_pure_eq_ok.mp h
  refine ⟨hmerged, fun hsame => ?_⟩
  obtain ⟨front, heq, hfront⟩ := hmerged.flat.pairs_of_mergeFree hfree
  have hown : (pairsAt b.nodes i).filter (fun p => !isMergeAt b.nodes p.1) = writtenAt nodes₀ i := by
    simp only [hsame, hflat.isMerge, writtenAt]
  have hsplit : (pairsAt b₁.nodes i).length - (writtenAt nodes₀ i).length = front.length := by
    rw [heq, List.length_append, Nat.add_sub_cancel]
  refine ⟨front.reverse, ?_, fun p hp => hfront p (List.mem_reverse.mp hp)⟩
  rw [hown, hsplit, heq, List.drop_left, List.take_left]

end Builder

end AppSpec.Yaml
