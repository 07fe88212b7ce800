import AppSpec.Proofs.Named

/-!
The same things under the same names, whatever the order in which the names came up.
-/

namespace AppSpec.Named

variable {α : Type} {xs ys zs : Named α}

theorem nodup_keys_setAll (h : (keys xs).Nodup) (more : Named α) :
    (keys (setAll xs more)).Nodup := by
  induction more generalizing xs with
  | nil => exact h
  | cons entry more ih => exact ih (nodup_keys_set h entry.1 entry.2)

theorem get?_eq_none {name : String} (h : name ∉ keys xs) : get? xs name = none := by
  rw [← has_iff_mem_keys, has, Bool.not_eq_true, Option.isSome_eq_false_iff] at h
  exact Option.isNone_iff_eq_none.mp h

theorem get?_setAll {more : Named α} (h : (keys more).Nodup) (xs : Named α) (name : String) :
    get? (setAll xs more) name = (get? more name).or (get? xs name) := by
  induction more generalizing xs with
  | nil => rfl
  | cons entry more ih =>
      obtain ⟨key, value⟩ := entry
      obtain ⟨hkey, h⟩ := List.nodup_cons.mp h
      rw [setAll, List.foldl_cons, ← setAll, ih h, get?_set, get?]
      by_cases heq : key = name
      · rw [if_pos heq, if_pos heq, get?_eq_none (heq ▸ hkey)]
        rfl
      · rw [if_neg heq, if_neg heq]

structure Alike (xs ys : Named α) : Prop where
  nodup : (keys xs).Nodup
  nodup' : (keys ys).Nodup
  get : ∀ name, get? xs name = get? ys name

namespace Alike

theorem refl (h : (keys xs).Nodup) : Alike xs xs := ⟨h, h, fun _ => rfl⟩

theorem of_perm (hn : (keys xs).Nodup) (h : xs.Perm ys) : Alike xs ys := by
  have hn' : (keys ys).Nodup := (h.map Prod.fst).nodup_iff.mp hn
  refine ⟨hn, hn', fun name => Option.ext fun value => ⟨fun hx => ?_, fun hy => ?_⟩⟩
  · exact get?_of_mem hn' (h.mem_iff.mp (mem_of_get? hx))
  · exact get?_of_mem hn (h.mem_iff.mpr (mem_of_get? hy))

theorem symm (h : Alike xs ys) : Alike ys xs := ⟨h.nodup', h.nodup, fun name => (h.get name).symm⟩

theorem trans (h : Alike xs ys) (h' : Alike ys zs) : Alike xs zs :=
  ⟨h.nodup, h'.nodup', fun name => (h.get name).trans (h'.get name)⟩

theorem has (h : Alike xs ys) (name : String) : Named.has xs name = Named.has ys name := by
  rw [Named.has, Named.has, h.get]

theorem mem_of_mem (h : Alike xs ys) {entry : String × α} (hentry : entry ∈ xs) : entry ∈ ys :=
  mem_of_get? ((h.get entry.1).symm.trans (get?_of_mem h.nodup hentry))

theorem toPerm (h : Alike xs ys) : xs.Perm ys :=
  (List.perm_ext_iff_of_nodup h.nodup.of_map h.nodup'.of_map).mpr fun _ =>
    ⟨h.mem_of_mem, h.symm.mem_of_mem⟩

theorem keys_perm (h : Alike xs ys) : (keys xs).Perm (keys ys) := h.toPerm.map _

theorem setAll (h : Alike xs ys) {more more' : Named α} (hmore : Alike more more') :
    Alike (Named.setAll xs more) (Named.setAll ys more') := by
  refine ⟨nodup_keys_setAll h.nodup more, nodup_keys_setAll h.nodup' more', fun name => ?_⟩
  rw [get?_setAll hmore.nodup, get?_setAll hmore.nodup', h.get, hmore.get]

theorem setAll_comm (h : Alike xs ys) {more other : Named α} (hmore : (keys more).Nodup)
    (hother : (keys other).Nodup) (hapart : ∀ name ∈ keys more, name ∉ keys other) :
    Alike (Named.setAll (Named.setAll xs more) other) (Named.setAll (Named.setAll ys other) more) := by
  refine ⟨nodup_keys_setAll (nodup_keys_setAll h.nodup more) other,
    nodup_keys_setAll (nodup_keys_setAll h.nodup' other) more, fun name => ?_⟩
  rw [get?_setAll hother, get?_setAll hmore, get?_setAll hmore, get?_setAll hother, h.get]
  by_cases hname : name ∈ keys more
  · rw [get?_eq_none (hapart name hname), Option.none_or, Option.none_or]
  · rw [get?_eq_none hname, Option.none_or, Option.none_or]

end Alike

/-- The same things in another order where each stands under the name that it has itself. -/
inductive Reordered (nameOf : α → String) : Named α → Named α → Prop
  | same (xs : Named α) : Reordered nameOf xs xs
  | alike {xs ys : Named α} (h : Alike xs ys) (hname : ∀ e ∈ xs, nameOf e.2 = e.1) :
      Reordered nameOf xs ys

namespace Reordered

variable {nameOf : α → String}

theorem toPerm (h : Reordered nameOf xs ys) : xs.Perm ys := by
  cases h with
  | same => exact .refl _
  | alike h _ => exact h.toPerm

theorem values_perm (h : Reordered nameOf xs ys) : (values xs).Perm (values ys) := h.toPerm.map _

/-- Nothing is reordered, or the things are told apart by their names. -/
theorem values_cases (h : Reordered nameOf xs ys) :
    values xs = values ys ∨ ((values xs).map nameOf).Nodup := by
  cases h with
  | same => exact .inl rfl
  | alike h hname =>
      refine .inr ?_
      have hkeys : (values xs).map nameOf = keys xs := by
        rw [values, keys, List.map_map]
        exact List.map_congr_left hname
      rw [hkeys]
      exact h.nodup

end Reordered

end AppSpec.Named
