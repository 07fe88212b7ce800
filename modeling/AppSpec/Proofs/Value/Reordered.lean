import AppSpec.Layer.Collection
import AppSpec.Proofs.Named.Order

/-!
Values whose mappings have their entries in another order. Which mappings those are is said from the
outside in: for each key of a mapping, how the values under it differ.
-/

namespace AppSpec

namespace Value

/-- A mapping whose keys are texts. -/
def mapping (entries : Named Value) : Value := .dict (entries.map fun e => (.str e.1, e.2))

inductive Reordered (below : String → Value → Value → Prop) : Value → Value → Prop
  | same (v : Value) : Reordered below v v
  | mapping {entries between entries' : Named Value} (hnodup : (Named.keys entries).Nodup)
      (hbelow : List.Forall₂ (fun e e' => e.1 = e'.1 ∧ below e.1 e.2 e'.2) entries between)
      (hperm : between.Perm entries') : Reordered below (mapping entries) (mapping entries')

/-- Nothing but the order of the entries differs. -/
abbrev Permuted : Value → Value → Prop := Reordered fun _ => Eq

/-- The values under the keys that are listed differ as told there, all others are the same. -/
def under (inner : Named (Value → Value → Prop)) (key : String) : Value → Value → Prop :=
  (inner.get? key).getD Eq

end Value

namespace Entries

theorem text?_mapping (entries : Named Value) (name : String) :
    text? (entries.map fun e => (.str e.1, e.2)) name = entries.get? name := by
  induction entries with
  | nil => rfl
  | cons e entries ih =>
      obtain ⟨key, v⟩ := e
      rw [text?, get?, List.map_cons, List.find?_cons, Scalar.same_str, Named.get?]
      by_cases h : key = name
      · rw [beq_iff_eq.mpr h, if_pos h]
        rfl
      · rw [beq_eq_false_iff_ne.mpr h, if_neg h]
        exact ih

theorem without_nil (entries : Entries) : without entries [] = entries := by
  refine List.filter_eq_self.mpr fun e _ => ?_
  obtain ⟨key, v⟩ := e
  cases key <;> rfl

end Entries

namespace Value

variable {below : String → Value → Value → Prop} {v v' : Value} {entries entries' : Entries}

theorem keys_eq {xs ys : Named Value}
    (h : List.Forall₂ (fun e e' => e.1 = e'.1 ∧ below e.1 e.2 e'.2) xs ys) :
    Named.keys xs = Named.keys ys := by
  induction h with
  | nil => rfl
  | cons hentry _ ih => rw [Named.keys, Named.keys, List.map_cons, List.map_cons, hentry.1]; exact congrArg _ ih

theorem rel_get? {xs ys : Named Value}
    (h : List.Forall₂ (fun e e' => e.1 = e'.1 ∧ below e.1 e.2 e'.2) xs ys) (name : String) :
    Option.Rel (below name) (xs.get? name) (ys.get? name) := by
  induction h with
  | nil => exact .none
  | @cons e e' xs ys hentry _ ih =>
      obtain ⟨key, v⟩ := e
      obtain ⟨key', v'⟩ := e'
      obtain ⟨rfl, hbelow⟩ := hentry
      rw [Named.get?, Named.get?]
      split
      · next heq => exact .some (heq ▸ hbelow)
      · exact ih

namespace Reordered

/-- What stands under a name, in two mappings one of which may be the other one reordered. -/
theorem rel_text? (h : Reordered below (.dict entries) (.dict entries'))
    (hrefl : ∀ key v, below key v v) (name : String) :
    Option.Rel (below name) (Entries.text? entries name) (Entries.text? entries' name) := by
  generalize hv : Value.dict entries = v at h
  generalize hv' : Value.dict entries' = v' at h
  cases h with
  | same =>
      cases hv.trans hv'.symm
      cases Entries.text? entries name with
      | none => exact .none
      | some v => exact .some (hrefl name v)
  | @mapping xs between ys hnodup hbelow hperm =>
      cases hv
      cases hv'
      have hbetween : (Named.keys between).Nodup := keys_eq hbelow ▸ hnodup
      rw [Entries.text?_mapping, Entries.text?_mapping, ← (Named.Alike.of_perm hbetween hperm).get]
      exact rel_get? hbelow name

theorem field (h : Reordered below (.dict entries) (.dict entries'))
    (hrefl : ∀ key v, below key v v) (name : String) :
    below name (Entries.field entries name) (Entries.field entries' name) := by
  have hrel := h.rel_text? hrefl name
  rw [Entries.field, Entries.field]
  generalize Entries.text? entries name = found at hrel
  generalize Entries.text? entries' name = found' at hrel
  cases hrel with
  | none => exact hrefl name .null
  | some hbelow => exact hbelow

theorem cases (h : Reordered below v v') :
    v = v' ∨ ∃ entries entries' : Entries, v = .dict entries ∧ v' = .dict entries' ∧
      Reordered below (.dict entries) (.dict entries') := by
  cases h with
  | same => exact .inl rfl
  | mapping hnodup hbelow hperm => exact .inr ⟨_, _, rfl, rfl, .mapping hnodup hbelow hperm⟩

theorem keys_perm (h : Reordered below (.dict entries) (.dict entries')) :
    (entries.map (·.1)).Perm (entries'.map (·.1)) := by
  generalize hv : Value.dict entries = v at h
  generalize hv' : Value.dict entries' = v' at h
  cases h with
  | same =>
      cases hv.trans hv'.symm
      exact .refl _
  | @mapping xs between ys hnodup hbelow hperm =>
      cases hv
      cases hv'
      have hkeys (entries : Named Value) :
          (entries.map fun e => (Scalar.str e.1, e.2)).map (·.1) = entries.keys.map .str := by
        rw [Named.keys, List.map_map, List.map_map]
        rfl
      rw [hkeys, hkeys, keys_eq hbelow]
      exact (hperm.map Prod.fst).map _

theorem hasLongKey (h : Reordered below v v')
    (hbelow : ∀ key v v', below key v v' → v.hasLongKey = v'.hasLongKey) :
    v.hasLongKey = v'.hasLongKey := by
  have hany (entries : Named Value) :
      (Value.mapping entries).hasLongKey = entries.any fun e => e.2.hasLongKey := by
    rw [Value.mapping, Value.hasLongKey]
    induction entries with
    | nil => rfl
    | cons e entries ih =>
        rw [List.map_cons, anyLongKeyEntry, ih]
        rfl
  cases h with
  | same => rfl
  | @mapping xs between ys hnodup hentries hperm =>
      rw [hany, hany, ← hperm.any_eq]
      clear hperm hnodup
      induction hentries with
      | nil => rfl
      | cons hentry _ ih => rw [List.any_cons, List.any_cons, hbelow _ _ _ hentry.2, ih]

end Reordered

namespace Permuted

theorem cases (h : Permuted v v') :
    v = v' ∨ ∃ xs ys : Named Value, v = mapping xs ∧ v' = mapping ys ∧
      (Named.keys xs).Nodup ∧ xs.Perm ys := by
  cases h with
  | same => exact .inl rfl
  | @mapping xs between ys hnodup hbelow hperm =>
      have heq : xs = between := by
        clear hperm hnodup
        induction hbelow with
        | nil => rfl
        | cons hentry _ ih => rw [Prod.ext hentry.1 hentry.2, ih]
      exact .inr ⟨xs, ys, rfl, rfl, hnodup, heq ▸ hperm⟩

theorem hasLongKey (h : Permuted v v') : v.hasLongKey = v'.hasLongKey :=
  Reordered.hasLongKey h fun _ _ _ heq => heq ▸ rfl

end Permuted

theorem without_mapping (entries : Named Value) (names : List String) :
    Entries.without (entries.map fun e => (.str e.1, e.2)) names =
      (entries.filter fun e => !names.contains e.1).map fun e => (.str e.1, e.2) := by
  rw [Entries.without, List.filter_map]
  rfl

/-- Left without the entries that may differ, only the order of the entries differs. -/
theorem Reordered.without (h : Reordered below (.dict entries) (.dict entries'))
    (names : List String) (hbelow : ∀ key v v', key ∉ names → (Entries.text? entries key).isSome →
      below key v v' → v = v') :
    Permuted (.dict (Entries.without entries names)) (.dict (Entries.without entries' names)) := by
  generalize hv : Value.dict entries = v at h
  generalize hv' : Value.dict entries' = v' at h
  cases h with
  | same =>
      cases hv.trans hv'.symm
      exact .same _
  | @mapping xs between ys hnodup hentries hperm =>
      cases hv
      cases hv'
      rw [without_mapping, without_mapping]
      refine .mapping (hnodup.sublist (List.filter_sublist.map _)) ?_ (hperm.filter _)
      have hpresent : ∀ e ∈ xs, (Entries.text? (xs.map fun e => (.str e.1, e.2)) e.1).isSome := by
        intro e he
        rw [Entries.text?_mapping]
        exact (Named.has_iff_mem_keys xs e.1).mpr (List.mem_map_of_mem he)
      generalize hall : Entries.text? (xs.map fun e => (.str e.1, e.2)) = found at hbelow hpresent
      clear hall hperm hnodup
      induction hentries with
      | nil => exact .nil
      | @cons e e' xs between hentry _ ih =>
          obtain ⟨hfirst, hpresent⟩ := List.forall_mem_cons.mp hpresent
          have ih := ih hpresent
          rw [List.filter_cons, List.filter_cons, ← hentry.1]
          split
          · next hkeep =>
              have hkey : e.1 ∉ names := by simpa using hkeep
              exact .cons ⟨hentry.1, hbelow _ _ _ hkey hfirst hentry.2⟩ ih
          · exact ih

theorem under_refl {inner : Named (Value → Value → Prop)} (h : ∀ e ∈ inner, ∀ v, e.2 v v)
    (key : String) (v : Value) : under inner key v v := by
  rw [under]
  cases hfound : inner.get? key with
  | none => rfl
  | some r => exact h _ (Named.mem_of_get? hfound) v

theorem under_cases {inner : Named (Value → Value → Prop)} {key : String}
    (h : under inner key v v') : v = v' ∨ ∃ e ∈ inner, e.2 v v' := by
  rw [under] at h
  cases hfound : inner.get? key with
  | none => exact .inl (hfound ▸ h : (none.getD Eq : Value → Value → Prop) v v')
  | some r => exact .inr ⟨(key, r), Named.mem_of_get? hfound, by rwa [hfound] at h⟩

theorem under_of_not_mem {inner : Named (Value → Value → Prop)} {key : String}
    (h : key ∉ Named.keys inner) (hunder : under inner key v v') : v = v' := by
  rw [under, Named.get?_eq_none h] at hunder
  exact hunder

end Value

theorem unwrapped_reordered {v v' : Value} (path key : String)
    (h : Value.Reordered (Value.under [(key, Value.Permuted)]) v v') :
    Value.Permuted (unwrapped v path key).1 (unwrapped v' path key).1 ∧
      (unwrapped v path key).2 = (unwrapped v' path key).2 := by
  rcases h.cases with rfl | ⟨entries, entries', rfl, rfl, h⟩
  · exact ⟨.same _, rfl⟩
  have hrefl : ∀ k v, Value.under [(key, Value.Permuted)] k v v :=
    Value.under_refl (by simpa using Value.Reordered.same)
  have hrel := h.rel_text? hrefl key
  rw [unwrapped, unwrapped]
  generalize hinner : Entries.text? entries key = inner at hrel
  generalize hinner' : Entries.text? entries' key = inner' at hrel
  cases hrel with
  | some hpermuted =>
      rw [Value.under, Named.get?, if_pos rfl] at hpermuted
      exact ⟨hpermuted, rfl⟩
  | none =>
      refine ⟨?_, rfl⟩
      have hwithout := h.without [] fun other v v' _ hpresent hunder => by
        refine Value.under_of_not_mem (fun hmem => ?_) hunder
        obtain rfl : other = key := by simpa [Named.keys] using hmem
        rw [hinner] at hpresent
        cases hpresent
      rwa [Entries.without_nil, Entries.without_nil] at hwithout

end AppSpec
