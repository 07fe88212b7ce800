import AppSpec.Members
import AppSpec.Proofs.TypeExpr.Tracks

/-!
Values whose numbers are short: no integer, and no run of digits inside a text, has more digits than
are read or written.
-/

namespace AppSpec

inductive Scalar.Short : Scalar → Prop
  | null : Short .null
  | bool (b : Bool) : Short (.bool b)
  | int {n : Int} (h : Text.integerTooLong n = false) : Short (.int n)
  | float (x : Float) : Short (.float x)
  | str {s : String} (h : ¬ Text.HasLongNumber s.toList) : Short (.str s)
  | date (d : Date) : Short (.date d)
  | timestamp (t : Timestamp) : Short (.timestamp t)
  | bytes (bs : List UInt8) : Short (.bytes bs)

inductive Value.Short : Value → Prop
  | scalar {s : Scalar} (h : s.Short) : Short (.scalar s)
  | list {items : List Value} (h : ∀ v ∈ items, Short v) : Short (.list items)
  | tuple {items : List Value} (h : ∀ v ∈ items, Short v) : Short (.tuple items)
  | set {items : List Scalar} (h : ∀ s ∈ items, s.Short) : Short (.set items)
  | dict {entries : Entries} (hkeys : ∀ e ∈ entries, e.1.Short) (hvalues : ∀ e ∈ entries, Short e.2) :
      Short (.dict entries)

theorem Scalar.Short.hasLongInteger {s : Scalar} (h : s.Short) : s.hasLongInteger = false := by
  cases h with
  | int h => exact h
  | _ => rfl

namespace Value

mutual

theorem hasLongInteger_eq_false : ∀ {v : Value}, v.Short → v.hasLongInteger = false
  | .scalar _, .scalar h => h.hasLongInteger
  | .list _, .list h => anyLongInteger_eq_false h
  | .tuple _, .tuple h => anyLongInteger_eq_false h
  | .set items, .set h => by
      have hnone : ∀ s ∈ items, s.hasLongInteger = false := fun s hs => (h s hs).hasLongInteger
      simpa [hasLongInteger] using hnone
  | .dict _, .dict hkeys hvalues => anyLongIntegerEntry_eq_false hkeys hvalues

theorem anyLongInteger_eq_false : ∀ {items : List Value}, (∀ v ∈ items, v.Short) →
    anyLongInteger items = false
  | [], _ => rfl
  | item :: items, h => by
      rw [anyLongInteger, hasLongInteger_eq_false (h item List.mem_cons_self),
        anyLongInteger_eq_false fun v hv => h v (List.mem_cons_of_mem _ hv)]
      rfl

theorem anyLongIntegerEntry_eq_false : ∀ {entries : Entries}, (∀ e ∈ entries, e.1.Short) →
    (∀ e ∈ entries, e.2.Short) → anyLongIntegerEntry entries = false
  | [], _, _ => rfl
  | (key, value) :: entries, hkeys, hvalues => by
      rw [anyLongIntegerEntry, (hkeys _ List.mem_cons_self).hasLongInteger,
        hasLongInteger_eq_false (hvalues _ List.mem_cons_self),
        anyLongIntegerEntry_eq_false (fun e he => hkeys e (List.mem_cons_of_mem _ he))
          fun e he => hvalues e (List.mem_cons_of_mem _ he)]
      rfl

end

theorem anyLongKey_of_mem {items : List Value} {v : Value} (h : v ∈ items)
    (hlong : v.hasLongKey = true) : anyLongKey items = true := by
  induction items with
  | nil => cases h
  | cons item items ih =>
      rw [anyLongKey, Bool.or_eq_true]
      rcases List.mem_cons.mp h with rfl | h
      · exact .inl hlong
      · exact .inr (ih h)

theorem anyLongKeyEntry_of_mem {entries : Entries} {e : Scalar × Value} (h : e ∈ entries)
    (hlong : e.1.hasLongInteger = true ∨ e.2.hasLongKey = true) : anyLongKeyEntry entries = true := by
  induction entries with
  | nil => cases h
  | cons entry entries ih =>
      rw [anyLongKeyEntry, Bool.or_eq_true, Bool.or_eq_true]
      rcases List.mem_cons.mp h with rfl | h
      · exact .inl hlong
      · exact .inr (ih h)

mutual

theorem hasLongKey_eq_false : ∀ {v : Value}, v.Short → v.hasLongKey = false
  | .scalar _, _ => rfl
  | .list _, .list h => anyLongKey_eq_false h
  | .tuple _, _ => rfl
  | .set _, _ => rfl
  | .dict _, .dict hkeys hvalues => anyLongKeyEntry_eq_false hkeys hvalues

theorem anyLongKey_eq_false : ∀ {items : List Value}, (∀ v ∈ items, v.Short) →
    anyLongKey items = false
  | [], _ => rfl
  | item :: items, h => by
      rw [anyLongKey, hasLongKey_eq_false (h item List.mem_cons_self),
        anyLongKey_eq_false fun v hv => h v (List.mem_cons_of_mem _ hv)]
      rfl

theorem anyLongKeyEntry_eq_false : ∀ {entries : Entries}, (∀ e ∈ entries, e.1.Short) →
    (∀ e ∈ entries, e.2.Short) → anyLongKeyEntry entries = false
  | [], _, _ => rfl
  | (key, value) :: entries, hkeys, hvalues => by
      rw [anyLongKeyEntry, (hkeys _ List.mem_cons_self).hasLongInteger,
        hasLongKey_eq_false (hvalues _ List.mem_cons_self),
        anyLongKeyEntry_eq_false (fun e he => hkeys e (List.mem_cons_of_mem _ he))
          fun e he => hvalues e (List.mem_cons_of_mem _ he)]
      rfl

end

end Value

namespace Members

mutual

theorem hasLongKey_eq_false : ∀ {v : Value}, v.Short → hasLongKey v = false
  | .scalar _, _ => rfl
  | .list _, .list h => itemHasLongKey_eq_false h
  | .tuple _, _ => rfl
  | .set _, _ => rfl
  | .dict _, .dict hkeys hvalues => entryHasLongKey_eq_false hkeys hvalues

theorem entryHasLongKey_eq_false : ∀ {entries : Entries}, (∀ e ∈ entries, e.1.Short) →
    (∀ e ∈ entries, e.2.Short) → entryHasLongKey entries = false
  | [], _, _ => rfl
  | (key, value) :: entries, hkeys, hvalues => by
      rw [entryHasLongKey, (hkeys _ List.mem_cons_self).hasLongInteger,
        hasLongKey_eq_false (hvalues _ List.mem_cons_self),
        entryHasLongKey_eq_false (fun e he => hkeys e (List.mem_cons_of_mem _ he))
          fun e he => hvalues e (List.mem_cons_of_mem _ he)]
      rfl

theorem itemHasLongKey_eq_false : ∀ {items : List Value}, (∀ v ∈ items, v.Short) →
    itemHasLongKey items = false
  | [], _ => rfl
  | .dict entries :: items, h => by
      have hitem : (Value.dict entries).Short := h _ List.mem_cons_self
      cases hitem with
      | dict hkeys hvalues =>
          rw [itemHasLongKey, entryHasLongKey_eq_false hkeys hvalues,
            itemHasLongKey_eq_false fun v hv => h v (List.mem_cons_of_mem _ hv)]
          rfl
  | .scalar _ :: items, h => by
      rw [itemHasLongKey]
      · exact itemHasLongKey_eq_false fun v hv => h v (List.mem_cons_of_mem _ hv)
      · exact nofun
  | .list _ :: items, h => by
      rw [itemHasLongKey]
      · exact itemHasLongKey_eq_false fun v hv => h v (List.mem_cons_of_mem _ hv)
      · exact nofun
  | .tuple _ :: items, h => by
      rw [itemHasLongKey]
      · exact itemHasLongKey_eq_false fun v hv => h v (List.mem_cons_of_mem _ hv)
      · exact nofun
  | .set _ :: items, h => by
      rw [itemHasLongKey]
      · exact itemHasLongKey_eq_false fun v hv => h v (List.mem_cons_of_mem _ hv)
      · exact nofun

end

end Members

namespace Entries

structure Short (entries : Entries) : Prop where
  keys : ∀ e ∈ entries, e.1.Short
  values : ∀ e ∈ entries, e.2.Short

variable {entries : Entries}

theorem short_dict (h : (Value.dict entries).Short) : Short entries := by
  cases h with
  | dict hkeys hvalues => exact ⟨hkeys, hvalues⟩

theorem short_nil : Short [] := ⟨nofun, nofun⟩

theorem Short.dict (h : Short entries) : (Value.dict entries).Short := .dict h.keys h.values

theorem Short.filter (h : Short entries) (p : Scalar × Value → Bool) : Short (entries.filter p) :=
  ⟨fun e he => h.keys e (List.mem_of_mem_filter he), fun e he => h.values e (List.mem_of_mem_filter he)⟩

theorem Short.without (h : Short entries) (names : List String) : Short (without entries names) :=
  h.filter _

theorem mem_of_text? {name : String} {v : Value} (h : text? entries name = some v) :
    ∃ key, (key, v) ∈ entries := by
  obtain ⟨e, he, rfl⟩ := Option.map_eq_some_iff.mp h
  exact ⟨e.1, List.mem_of_find?_eq_some he⟩

theorem Short.text? (h : Short entries) {name : String} {v : Value}
    (hv : text? entries name = some v) : v.Short := by
  obtain ⟨key, hmem⟩ := mem_of_text? hv
  exact h.values _ hmem

theorem Short.field (h : Short entries) (name : String) : (field entries name).Short := by
  rw [Entries.field]
  cases hv : Entries.text? entries name with
  | none => exact .scalar .null
  | some v => exact h.text? hv

theorem Short.any_key (h : Short entries) : (entries.any fun e => e.1.hasLongInteger) = false := by
  have hnone : ∀ e ∈ entries, e.1.hasLongInteger = false := fun e he => (h.keys e he).hasLongInteger
  simpa using hnone

end Entries

end AppSpec
