import Mathlib

/-!
Stable sorting. Two lists that agree class by class, where a class holds what compares as equal, are
sorted into the same list. Lists agree class by class when parts of them are shuffled in which no
two different elements compare as equal.
-/

namespace AppSpec

open Std (OrientedCmp ReflCmp TransCmp)

variable {α β : Type}

theorem eq_of_perm_of_alike {xs ys : List α} (h : xs.Perm ys)
    (halike : ∀ a ∈ xs, ∀ b ∈ xs, a = b) : xs = ys := by
  cases xs with
  | nil => exact h.nil_eq
  | cons a xs =>
      have hxs : a :: xs = List.replicate (xs.length + 1) a :=
        List.eq_replicate_iff.mpr ⟨rfl, fun b hb => halike b hb a List.mem_cons_self⟩
      rw [hxs] at h ⊢
      exact (List.perm_replicate.mp h.symm).symm

def SameClasses (cmp : α → α → Ordering) (xs ys : List α) : Prop :=
  ∀ c, xs.filter (fun a => cmp a c == .eq) = ys.filter fun a => cmp a c == .eq

namespace SameClasses

variable {cmp : α → α → Ordering} {xs ys xs' ys' : List α}

theorem refl (xs : List α) : SameClasses cmp xs xs := fun _ => rfl

theorem symm (h : SameClasses cmp xs ys) : SameClasses cmp ys xs := fun c => (h c).symm

theorem append (h : SameClasses cmp xs ys) (h' : SameClasses cmp xs' ys') :
    SameClasses cmp (xs ++ xs') (ys ++ ys') := by
  intro c
  rw [List.filter_append, List.filter_append, h c, h' c]

theorem map {f : α → α} (hf : ∀ a c, cmp (f a) c = cmp a c) (h : SameClasses cmp xs ys) :
    SameClasses cmp (xs.map f) (ys.map f) := by
  intro c
  have hfilter (zs : List α) : (zs.map f).filter (fun a => cmp a c == .eq) =
      (zs.filter fun a => cmp a c == .eq).map f := by
    rw [List.filter_map]
    congr 1
    exact List.filter_congr fun a _ => by simp [hf]
  rw [hfilter, hfilter, h c]

theorem tail {x : α} (h : SameClasses cmp (x :: xs) (x :: ys)) : SameClasses cmp xs ys := by
  intro c
  have hc := h c
  rw [List.filter_cons, List.filter_cons] at hc
  split at hc
  · exact (List.cons.inj hc).2
  · exact hc

variable [TransCmp cmp]

theorem of_perm (h : xs.Perm ys) (hdet : ∀ a ∈ xs, ∀ b ∈ xs, cmp a b = .eq → a = b) :
    SameClasses cmp xs ys := by
  intro c
  refine eq_of_perm_of_alike (h.filter _) fun a ha b hb => ?_
  obtain ⟨hmem, hac⟩ := List.mem_filter.mp ha
  obtain ⟨hmem', hbc⟩ := List.mem_filter.mp hb
  have hcb : cmp c b = .eq := OrientedCmp.eq_comm.mp (by simpa using hbc)
  exact hdet a hmem b hmem' (TransCmp.eq_trans (by simpa using hac) hcb)

/-- Blocks may stand in any order where elements that compare as equal are in the same block. -/
theorem flatMap_perm {f : β → List α} {bs bs' : List β} (h : bs.Perm bs')
    (hf : ∀ b ∈ bs, ∀ b' ∈ bs, ∀ x ∈ f b, ∀ y ∈ f b', cmp x y = .eq → b = b') :
    SameClasses cmp (bs.flatMap f) (bs'.flatMap f) := by
  intro c
  let p := fun x => cmp x c == .eq
  have hmeets (bs : List β) : (bs.flatMap f).filter p =
      (bs.filter fun b => (f b).any p).flatMap fun b => (f b).filter p := by
    rw [List.filter_flatMap]
    induction bs with
    | nil => rfl
    | cons b bs ih =>
        rw [List.flatMap_cons, List.filter_cons, ih]
        split
        · rw [List.flatMap_cons]
        · next hnone =>
            rw [List.filter_eq_nil_iff.mpr fun x hx hpx => hnone (List.any_eq_true.mpr ⟨x, hx, hpx⟩),
              List.nil_append]
  show (bs.flatMap f).filter p = (bs'.flatMap f).filter p
  rw [hmeets, hmeets]
  congr 1
  refine eq_of_perm_of_alike (h.filter _) fun b hb b' hb' => ?_
  obtain ⟨hmem, hany⟩ := List.mem_filter.mp hb
  obtain ⟨hmem', hany'⟩ := List.mem_filter.mp hb'
  obtain ⟨x, hx, hxc⟩ := List.any_eq_true.mp hany
  obtain ⟨y, hy, hyc⟩ := List.any_eq_true.mp hany'
  have hcy : cmp c y = .eq := OrientedCmp.eq_comm.mp (beq_iff_eq.mp hyc)
  exact hf b hmem b' hmem' x hx y hy (TransCmp.eq_trans (beq_iff_eq.mp hxc) hcy)

theorem mem_filter_self {a : α} (h : a ∈ xs) : a ∈ xs.filter fun b => cmp b a == .eq :=
  List.mem_filter.mpr ⟨h, by simp [ReflCmp.compare_self]⟩

theorem mem_of_mem (h : SameClasses cmp xs ys) {a : α} (ha : a ∈ xs) : a ∈ ys := by
  have hclass : a ∈ xs.filter fun b => cmp b a == .eq := mem_filter_self ha
  rw [h a] at hclass
  exact List.mem_of_mem_filter hclass

theorem isLE_head {x y : α} (hsorted : (y :: ys).Pairwise fun a b => (cmp a b).isLE)
    (h : x ∈ y :: ys) : (cmp y x).isLE := by
  rcases List.mem_cons.mp h with rfl | h
  · have hself : cmp x x = .eq := ReflCmp.compare_self
    rw [hself]
    rfl
  · exact (List.pairwise_cons.mp hsorted).1 x h

theorem eq_of_pairwise (h : SameClasses cmp xs ys) (hx : xs.Pairwise fun a b => (cmp a b).isLE)
    (hy : ys.Pairwise fun a b => (cmp a b).isLE) : xs = ys := by
  induction xs generalizing ys with
  | nil =>
      cases ys with
      | nil => rfl
      | cons y ys => cases h.symm.mem_of_mem List.mem_cons_self
  | cons x xs ih =>
      cases ys with
      | nil => cases h.mem_of_mem List.mem_cons_self
      | cons y ys =>
          have hyx : cmp y x = .eq := OrientedCmp.isLE_antisymm
            (isLE_head hy (h.mem_of_mem List.mem_cons_self))
            (isLE_head hx (h.symm.mem_of_mem List.mem_cons_self))
          have hclass := h x
          rw [List.filter_cons_of_pos (by simp [ReflCmp.compare_self]),
            List.filter_cons_of_pos (by simp [hyx])] at hclass
          obtain rfl := (List.cons.inj hclass).1
          rw [ih h.tail (List.pairwise_cons.mp hx).2 (List.pairwise_cons.mp hy).2]

theorem isLE_total (a b : α) : ((cmp a b).isLE || (cmp b a).isLE) = true := by
  have hswap : cmp b a = (cmp a b).swap := OrientedCmp.eq_swap
  rw [hswap]
  cases cmp a b <;> rfl

theorem mergeSort_self (xs : List α) :
    SameClasses cmp (xs.mergeSort fun a b => (cmp a b).isLE) xs := by
  intro c
  have hsorted : (xs.filter fun a => cmp a c == .eq).Pairwise fun a b => (cmp a b).isLE := by
    refine List.pairwise_of_forall_mem_list fun a ha b hb => ?_
    have hac : cmp a c = .eq := by simpa using (List.mem_filter.mp ha).2
    have hbc : cmp b c = .eq := by simpa using (List.mem_filter.mp hb).2
    rw [TransCmp.eq_trans hac (OrientedCmp.eq_comm.mp hbc)]
    rfl
  have hsub := (List.sublist_mergeSort (fun _ _ _ => TransCmp.isLE_trans) isLE_total hsorted
    List.filter_sublist).filter fun a => cmp a c == .eq
  rw [List.filter_filter] at hsub
  simp only [Bool.and_self] at hsub
  exact (hsub.eq_of_length ((List.mergeSort_perm xs _).filter _).length_eq.symm).symm

theorem mergeSort_eq (h : SameClasses cmp xs ys) :
    (xs.mergeSort fun a b => (cmp a b).isLE) = ys.mergeSort fun a b => (cmp a b).isLE := by
  have hclasses : SameClasses cmp (xs.mergeSort fun a b => (cmp a b).isLE)
      (ys.mergeSort fun a b => (cmp a b).isLE) := fun c =>
    (mergeSort_self xs c).trans ((h c).trans (mergeSort_self ys c).symm)
  exact hclasses.eq_of_pairwise
    (List.pairwise_mergeSort (fun _ _ _ => TransCmp.isLE_trans) isLE_total xs)
    (List.pairwise_mergeSort (fun _ _ _ => TransCmp.isLE_trans) isLE_total ys)

end SameClasses

/-- Parts of a list are shuffled, all of whose elements have the property. -/
inductive Shuffled (P : α → Prop) : List α → List α → Prop
  | same (xs : List α) : Shuffled P xs xs
  | perm {xs ys : List α} (h : xs.Perm ys) (hP : ∀ a ∈ xs, P a) : Shuffled P xs ys
  | append {xs ys xs' ys' : List α} (h : Shuffled P xs ys) (h' : Shuffled P xs' ys') :
      Shuffled P (xs ++ xs') (ys ++ ys')
  | trans {xs ys zs : List α} (h : Shuffled P xs ys) (h' : Shuffled P ys zs) : Shuffled P xs zs

namespace Shuffled

variable {P : α → Prop} {xs ys : List α}

theorem sameClasses {cmp : β → β → Ordering} [TransCmp cmp] {f : α → Option β}
    (hdet : ∀ {a b x y}, P a → P b → f a = some x → f b = some y → cmp x y = .eq → x = y)
    (h : Shuffled P xs ys) : SameClasses cmp (xs.filterMap f) (ys.filterMap f) := by
  induction h with
  | same xs => exact .refl _
  | perm h hP =>
      refine .of_perm (h.filterMap f) fun x hx y hy => ?_
      obtain ⟨a, ha, hfa⟩ := List.mem_filterMap.mp hx
      obtain ⟨b, hb, hfb⟩ := List.mem_filterMap.mp hy
      exact hdet (hP a ha) (hP b hb) hfa hfb
  | append _ _ ih ih' =>
      rw [List.filterMap_append, List.filterMap_append]
      exact ih.append ih'
  | trans _ _ ih ih' => exact fun c => (ih c).trans (ih' c)

theorem flatMap {R : β → β → Prop} {f : β → List α} {bs bs' : List β} (h : List.Forall₂ R bs bs')
    (hf : ∀ {b b'}, R b b' → Shuffled P (f b) (f b')) : Shuffled P (bs.flatMap f) (bs'.flatMap f) := by
  induction h with
  | nil => exact .same []
  | cons hb _ ih => exact .append (hf hb) ih

end Shuffled

end AppSpec
