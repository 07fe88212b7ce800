import AppSpec.Named
import Mathlib

/-!
Names and what stands under them: what setting and appending do to look-ups and to the names.
-/

namespace AppSpec.Named

variable {α β : Type}

@[simp]
theorem get?_append (xs ys : Named α) (name : String) :
    get? (xs ++ ys) name = (get? xs name).or (get? ys name) := by
  induction xs with
  | nil => simp [get?]
  | cons entry rest ih =>
      obtain ⟨key, value⟩ := entry
      by_cases h : key = name
      · simp [get?, h]
      · simp [get?, h, ih]

theorem get?_append_old {xs : Named α} {name : String} (h : has xs name = true) (ys : Named α) :
    get? (xs ++ ys) name = get? xs name := by
  obtain ⟨value, hvalue⟩ := Option.isSome_iff_exists.mp h
  rw [get?_append, hvalue, Option.some_or]

theorem get?_append_new {xs : Named α} {name : String} (h : has xs name = false) (value : α) :
    get? (xs ++ [(name, value)]) name = some value := by
  have hnone : get? xs name = none := by simpa [has] using h
  simp [get?_append, hnone, get?]

@[simp]
theorem has_append (xs ys : Named α) (name : String) :
    has (xs ++ ys) name = (has xs name || has ys name) := by
  simp [has, get?_append, Option.isSome_or]

@[simp]
theorem has_singleton (key name : String) (value : α) :
    has [(key, value)] name = decide (key = name) := by
  by_cases h : key = name <;> simp [has, get?, h]

@[simp]
theorem has_set (entries : Named α) (key name : String) (value : α) :
    has (set entries key value) name = (decide (key = name) || has entries name) := by
  by_cases h : key = name <;> simp [has, get?_set, h]

theorem mem_of_get? {entries : Named α} {name : String} {value : α}
    (h : get? entries name = some value) : (name, value) ∈ entries := by
  induction entries with
  | nil => simp [get?] at h
  | cons entry rest ih =>
      obtain ⟨key, other⟩ := entry
      by_cases hkey : key = name
      · simp only [get?, hkey, if_true, Option.some.injEq] at h
        simp [hkey, h]
      · simp only [get?, hkey, if_false] at h
        exact List.mem_cons_of_mem _ (ih h)

theorem get?_of_mem {entries : Named α} (hn : (keys entries).Nodup) {name : String} {value : α}
    (h : (name, value) ∈ entries) : get? entries name = some value := by
  induction entries with
  | nil => simp at h
  | cons entry rest ih =>
      obtain ⟨key, other⟩ := entry
      obtain ⟨hnot, hrest⟩ := List.nodup_cons.mp hn
      rcases List.mem_cons.mp h with heq | hmem
      · obtain ⟨rfl, rfl⟩ := Prod.mk.injEq .. ▸ heq
        simp [get?]
      · have hmem' : name ∈ keys rest := List.mem_map_of_mem (f := Prod.fst) hmem
        have hne : key ≠ name := fun heq => hnot (heq ▸ hmem')
        simp [get?, hne, ih hrest hmem]

theorem keys_set_of_has {entries : Named α} {key : String} (value : α)
    (h : has entries key = true) : keys (set entries key value) = keys entries := by
  induction entries with
  | nil => simp [has, get?] at h
  | cons entry rest ih =>
      obtain ⟨name, old⟩ := entry
      by_cases hkey : name = key
      · simp [set, keys, hkey]
      · have hrest : has rest key = true := by simpa [has, get?, hkey] using h
        simpa [set, keys, hkey] using ih hrest

theorem set_of_not_has {entries : Named α} {key : String} (value : α)
    (h : has entries key = false) : set entries key value = entries ++ [(key, value)] := by
  induction entries with
  | nil => rfl
  | cons entry rest ih =>
      obtain ⟨name, old⟩ := entry
      by_cases hkey : name = key
      · simp [has, get?, hkey] at h
      · have hrest : has rest key = false := by simpa [has, get?, hkey] using h
        simp [set, hkey, ih hrest]

@[simp]
theorem mem_keys_set (entries : Named α) (key name : String) (value : α) :
    name ∈ keys (set entries key value) ↔ name = key ∨ name ∈ keys entries := by
  rw [← has_iff_mem_keys, ← has_iff_mem_keys, has_set, Bool.or_eq_true, decide_eq_true_eq,
    eq_comm]

theorem nodup_keys_set {entries : Named α} (h : (keys entries).Nodup) (key : String) (value : α) :
    (keys (set entries key value)).Nodup := by
  cases hk : has entries key with
  | true => rwa [keys_set_of_has value hk]
  | false =>
      have hnot : key ∉ keys entries := by
        rw [← has_iff_mem_keys, hk]
        simp
      rw [set_of_not_has value hk, keys, List.map_append, List.nodup_append]
      refine ⟨h, List.nodup_singleton _, ?_⟩
      intro a ha b hb hab
      obtain rfl : b = key := by simpa using hb
      exact hnot (hab ▸ ha)

theorem mem_set {entries : Named α} {key : String} {value : α} {entry : String × α}
    (h : entry ∈ set entries key value) : entry = (key, value) ∨ entry ∈ entries := by
  induction entries with
  | nil => simpa [set] using h
  | cons first rest ih =>
      obtain ⟨name, old⟩ := first
      by_cases hkey : name = key
      · subst hkey
        rcases List.mem_cons.mp (by simpa [set] using h) with heq | hmem
        · exact .inl heq
        · exact .inr (List.mem_cons_of_mem _ hmem)
      · rcases List.mem_cons.mp (by simpa [set, hkey] using h) with heq | hmem
        · exact .inr (heq ▸ List.mem_cons_self)
        · exact (ih hmem).imp_right (List.mem_cons_of_mem _)

theorem mem_setAll {entries more : Named α} {entry : String × α}
    (h : entry ∈ setAll entries more) : entry ∈ entries ∨ entry ∈ more := by
  induction more generalizing entries with
  | nil => exact .inl h
  | cons first more ih =>
      rcases ih h with h | h
      · rcases mem_set h with rfl | h
        · exact .inr List.mem_cons_self
        · exact .inl h
      · exact .inr (List.mem_cons_of_mem _ h)

theorem mem_setAll_nil {more : Named α} {entry : String × α} (h : entry ∈ setAll [] more) :
    entry ∈ more :=
  (mem_setAll h).resolve_left List.not_mem_nil

theorem setAll_of_fresh {entries more : Named α} (hn : (keys more).Nodup)
    (hfresh : ∀ name ∈ keys more, has entries name = false) :
    setAll entries more = entries ++ more := by
  induction more generalizing entries with
  | nil => simp [setAll]
  | cons entry more ih =>
      obtain ⟨key, value⟩ := entry
      obtain ⟨hkey, hn⟩ := List.nodup_cons.mp hn
      have hnew : has entries key = false := hfresh key List.mem_cons_self
      have hlater : ∀ name ∈ keys more, has (set entries key value) name = false := by
        intro name hname
        have hne : key ≠ name := by
          rintro rfl
          exact hkey hname
        simp [hfresh name (List.mem_cons_of_mem _ hname), hne]
      rw [setAll, List.foldl_cons, ← setAll, ih hn hlater, set_of_not_has value hnew,
        List.append_assoc]
      rfl

theorem setAll_nil {more : Named α} (hn : (keys more).Nodup) : setAll [] more = more :=
  setAll_of_fresh hn fun _ _ => rfl

theorem get?_setAll_last (xs more : Named α) (name : String) :
    get? (setAll xs more) name = (get? more.reverse name).or (get? xs name) := by
  induction more generalizing xs with
  | nil => rfl
  | cons entry more ih =>
      obtain ⟨key, value⟩ := entry
      rw [setAll, List.foldl_cons, ← setAll, ih, get?_set, List.reverse_cons, get?_append,
        Option.or_assoc]
      by_cases h : key = name <;> simp [get?, h]

@[simp]
theorem get?_map (xs : Named α) (f : α → β) (name : String) :
    get? (xs.map fun e => (e.1, f e.2)) name = (get? xs name).map f := by
  induction xs with
  | nil => rfl
  | cons entry xs ih =>
      obtain ⟨key, value⟩ := entry
      rw [List.map_cons, get?, get?, ih]
      split <;> rfl

theorem set_eq_map {xs : Named α} (hn : (keys xs).Nodup) {name : String} (h : has xs name = true)
    (value : α) : set xs name value = xs.map fun e => if e.1 = name then (e.1, value) else e := by
  induction xs with
  | nil => cases h
  | cons entry xs ih =>
      obtain ⟨key, old⟩ := entry
      obtain ⟨hnew, hn⟩ := List.nodup_cons.mp hn
      rw [set, List.map_cons]
      by_cases hkey : key = name
      · have hsame : (xs.map fun e => if e.1 = name then (e.1, value) else e) = xs.map id := by
          refine List.map_congr_left fun e he => if_neg fun heq => ?_
          have hmem : e.1 ∈ keys xs := List.mem_map_of_mem he
          exact hnew (hkey ▸ heq ▸ hmem)
        rw [if_pos hkey, if_pos hkey, hsame, List.map_id]
      · have hrest : has xs name = true := by rwa [has, get?, if_neg hkey] at h
        rw [if_neg hkey, if_neg hkey, ih hn hrest]

end AppSpec.Named
