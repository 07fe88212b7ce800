import AppSpec.Text.Similar
import Mathlib

/-!
The closest of some candidates is the greatest in an order that tells all of them apart, so neither
their order nor their repetitions count.
-/

namespace AppSpec.Text

namespace Ratio

def value (a : Ratio) : ℚ := a.common / a.total

theorem lt_iff {a b : Ratio} (ha : 0 < a.total) (hb : 0 < b.total) :
    a.lt b = true ↔ a.value < b.value := by
  rw [lt, decide_eq_true_eq, value, value, div_lt_div_iff₀ (by exact_mod_cast ha)
    (by exact_mod_cast hb)]
  exact_mod_cast Iff.rfl

end Ratio

variable {name : String}

def likeness (name candidate : String) : Ratio := similarity candidate.toList name.toList

theorem total_likeness (name candidate : String) : 0 < (likeness name candidate).total := by
  rw [likeness, similarity]
  split
  · exact Nat.one_pos
  · next h =>
      rw [Bool.and_eq_true, List.isEmpty_iff_length_eq_zero, List.isEmpty_iff_length_eq_zero] at h
      show 0 < candidate.toList.length + name.toList.length
      omega

/-- What candidates are compared by: their likeness first, then the candidates as texts. -/
def closeness (name candidate : String) : ℚ ×ₗ String :=
  toLex ((likeness name candidate).value, candidate)

theorem closeness_injective (name : String) : Function.Injective (closeness name) := fun _ _ h =>
  congrArg Prod.snd h

theorem closer_eq_argAux (best : Option String) (candidate : String) :
    closer (best.map fun c => (likeness name c, c)) (likeness name candidate, candidate) =
      (List.argAux (fun new old => closeness name old < closeness name new) best candidate).map
        fun c => (likeness name c, c) := by
  cases best with
  | none => rfl
  | some old =>
      have hlt (a b : String) :=
        Ratio.lt_iff (total_likeness name a) (total_likeness name b)
      simp only [Option.map_some, closer, List.argAux, closeness, Prod.Lex.toLex_lt_toLex]
      by_cases h : (likeness name old).value < (likeness name candidate).value
      · rw [if_pos ((hlt _ _).mpr h), if_pos (.inl h)]
        rfl
      · rw [if_neg fun hold => h ((hlt _ _).mp hold)]
        by_cases h' : (likeness name candidate).value < (likeness name old).value
        · rw [if_pos ((hlt _ _).mpr h'), if_neg (by rintro (h | ⟨heq, -⟩); exacts [by contradiction, h'.ne' heq])]
          rfl
        · have heq := le_antisymm (not_lt.mp h') (not_lt.mp h)
          rw [if_neg fun hnew => h' ((hlt _ _).mp hnew)]
          by_cases htext : old < candidate
          · rw [if_pos htext, if_pos (.inr ⟨heq, htext⟩)]
            rfl
          · rw [if_neg htext, if_neg (by rintro (h | ⟨-, h⟩) <;> contradiction)]
            rfl

theorem foldl_closer (best : Option String) (candidates : List String) :
    (candidates.map fun c => (likeness name c, c)).foldl closer
        (best.map fun c => (likeness name c, c)) =
      (candidates.foldl (List.argAux fun new old => closeness name old < closeness name new) best).map
        fun c => (likeness name c, c) := by
  induction candidates generalizing best with
  | nil => rfl
  | cons candidate candidates ih =>
      rw [List.map_cons, List.foldl_cons, List.foldl_cons, closer_eq_argAux, ih]

theorem closest?_eq_argmax (name : String) (candidates : List String) :
    closest? name candidates =
      (candidates.filter fun c => (likeness name c).isClose).argmax (closeness name) := by
  have hscored : ((candidates.map fun c => (likeness name c, c)).filter fun s => s.1.isClose) =
      (candidates.filter fun c => (likeness name c).isClose).map fun c => (likeness name c, c) := by
    rw [List.filter_map]
    rfl
  show (((candidates.map fun c => (likeness name c, c)).filter fun s => s.1.isClose).foldl closer
    none).map (·.2) = _
  rw [hscored, ← Option.map_none (fun c => (likeness name c, c)), foldl_closer, Option.map_map]
  exact Option.map_id'

theorem argmax_congr {xs ys : List String} (h : ∀ c, c ∈ xs ↔ c ∈ ys) :
    xs.argmax (closeness name) = ys.argmax (closeness name) := by
  cases hx : xs.argmax (closeness name) with
  | none =>
      obtain rfl := List.argmax_eq_none.mp hx
      have hy : ys = [] := List.eq_nil_iff_forall_not_mem.mpr fun c hc => nomatch (h c).mpr hc
      rw [hy]
      rfl
  | some a =>
      obtain ⟨ha, hmax, -⟩ := List.argmax_eq_some_iff.mp hx
      refine (List.argmax_eq_some_iff.mpr ⟨(h a).mp ha, fun b hb => hmax b ((h b).mpr hb), ?_⟩).symm
      intro b hb hle
      have heq := closeness_injective name (le_antisymm hle (hmax b ((h b).mpr hb)))
      rw [heq]

theorem closest?_congr {candidates candidates' : List String}
    (h : ∀ c, c ∈ candidates ↔ c ∈ candidates') (name : String) :
    closest? name candidates = closest? name candidates' := by
  rw [closest?_eq_argmax, closest?_eq_argmax]
  refine argmax_congr fun c => ?_
  rw [List.mem_filter, List.mem_filter, h]

end AppSpec.Text
