import AppSpec.Path
import Mathlib

/-!
The paths above a path, each one shorter than those before it; and the segments that a path is
written from, which it tells where no name among them has a cut.
-/

namespace AppSpec.Path

theorem length_lt_of_mem_ancestorsReversed {cs ds : List Char} (h : ds ∈ ancestorsReversed cs) :
    ds.length < cs.length := by
  induction cs with
  | nil => cases h
  | cons c cs ih =>
      rw [List.length_cons]
      rw [ancestorsReversed] at h
      split at h
      · rcases List.mem_cons.mp h with rfl | h
        · exact Nat.lt_succ_self _
        · exact (ih h).trans (Nat.lt_succ_self _)
      · exact (ih h).trans (Nat.lt_succ_self _)

theorem pairwise_ancestorsReversed (cs : List Char) :
    (ancestorsReversed cs).Pairwise fun a b => b.length < a.length := by
  induction cs with
  | nil => exact .nil
  | cons c cs ih =>
      rw [ancestorsReversed]
      split
      · exact .cons (fun _ => length_lt_of_mem_ancestorsReversed) ih
      · exact ih

theorem pairwise_parents (path : String) :
    (parents path).Pairwise fun a b => b.length < a.length := by
  have hlength (cs : List Char) : (String.ofList cs.reverse).length = cs.length := by
    rw [String.length_ofList, List.length_reverse]
  rw [parents]
  split
  · exact .nil
  · refine .cons (fun above habove => ?_) ?_
    · obtain ⟨cs, hcs, rfl⟩ := List.mem_map.mp habove
      have hlt := length_lt_of_mem_ancestorsReversed hcs
      rwa [List.length_reverse, String.length_toList, ← hlength] at hlt
    · refine List.pairwise_map.mpr ((pairwise_ancestorsReversed _).imp fun h => ?_)
      rwa [hlength, hlength]

/-- The first path above that has a property is the longest one. -/
theorem length_le_of_find? {path found : String} {p : String → Bool}
    (h : (parents path).find? p = some found) {other : String} (hother : other ∈ parents path)
    (hp : p other = true) : other.length ≤ found.length := by
  obtain ⟨-, before, after, hsplit, hbefore⟩ := List.find?_eq_some_iff_append.mp h
  have hpairs := pairwise_parents path
  rw [hsplit] at hother hpairs
  rcases List.mem_append.mp hother with hother | hother
  · have := hbefore other hother
    rw [hp] at this
    cases this
  · rcases List.mem_cons.mp hother with rfl | hother
    · exact le_rfl
    · exact (List.rel_of_pairwise_cons (List.pairwise_append.mp hpairs).2.1 hother).le

/-! ### Segments of a path -/

/-- An index of a list, or a name that a path does not cut. -/
def Plain : Segment → Prop
  | .name s => s ≠ "" ∧ ∀ c ∈ s.toList, isCut c = false
  | .index i => 0 ≤ i

/-- How a segment is written behind others. -/
def written : Segment → List Char
  | .name s => '.' :: s.toList
  | .index i => '[' :: ((toString i).toList ++ [']'])

theorem toList_join {base : String} (h : base ≠ "") (s : Segment) :
    (join base s).toList = base.toList ++ written s := by
  cases s with
  | name s => simp [join, written, h]
  | index i => simp [join, written]

theorem join_ne_empty {base : String} (h : base ≠ "") (s : Segment) : join base s ≠ "" := by
  intro hempty
  have hlist := congrArg String.toList hempty
  rw [toList_join h] at hlist
  cases s <;> simp [written] at hlist

theorem toList_joinAll {base : String} (h : base ≠ "") (parts : List Segment) :
    (joinAll base parts).toList = base.toList ++ parts.flatMap written := by
  induction parts generalizing base with
  | nil => simp [joinAll]
  | cons s parts ih =>
      have hjoin : joinAll base (s :: parts) = joinAll (join base s) parts := rfl
      rw [hjoin, ih (join_ne_empty h s), toList_join h, List.append_assoc, List.flatMap_cons]

theorem Plain.join_ne_empty {s : Segment} (h : Plain s) : join "" s ≠ "" := by
  cases s with
  | name s => exact h.1
  | index i => simp [join, ← String.toList_inj]

theorem isCut_of_isDigit {c : Char} (h : c.isDigit = true) : isCut c = false := by
  simp only [isCut, Bool.or_eq_false_iff, beq_eq_false_iff_ne]
  constructor <;> rintro rfl <;> cases h

theorem Plain.exists_written {s : Segment} (h : Plain s) :
    ∃ c cs, written s = c :: cs ∧ isCut c = true ∧ ∀ d ∈ cs, isCut d = false := by
  cases s with
  | name s => exact ⟨'.', s.toList, rfl, rfl, h.2⟩
  | index i =>
      obtain ⟨n, rfl⟩ := Int.eq_ofNat_of_zero_le h
      refine ⟨'[', _, rfl, rfl, fun d hd => ?_⟩
      rcases List.mem_append.mp hd with hd | hd
      · have hdigits : toString (Int.ofNat n) = String.ofList (Nat.toDigits 10 n) :=
          Nat.toString_eq_ofList_toDigits
        rw [Int.ofNat_eq_natCast] at hdigits
        rw [hdigits, String.toList_ofList] at hd
        exact isCut_of_isDigit (Nat.isDigit_of_mem_toDigits (by decide) (by decide) hd)
      · rw [List.mem_singleton.mp hd]
        rfl

theorem written_inj {s t : Segment} (hs : Plain s) (ht : Plain t) (h : written s = written t) :
    s = t := by
  cases s with
  | name s =>
      cases t with
      | name t => rw [String.toList_inj.mp (List.cons.inj h).2]
      | index i => exact absurd (List.cons.inj h).1 (by decide)
  | index i =>
      cases t with
      | name t => exact absurd (List.cons.inj h).1 (by decide)
      | index j =>
          have hdigits := String.toList_inj.mp (List.append_cancel_right (List.cons.inj h).2)
          obtain ⟨m, rfl⟩ := Int.eq_ofNat_of_zero_le hs
          obtain ⟨n, rfl⟩ := Int.eq_ofNat_of_zero_le ht
          have hsame : m = n := Nat.repr_injective hdigits
          rw [hsame]

theorem takeWhile_written {parts : List Segment} (h : ∀ s ∈ parts, Plain s) :
    (parts.flatMap written).takeWhile (fun c => !isCut c) = [] := by
  cases parts with
  | nil => rfl
  | cons s parts =>
      obtain ⟨c, cs, hs, hc, -⟩ := (h s List.mem_cons_self).exists_written
      rw [List.flatMap_cons, hs, List.cons_append, List.takeWhile_cons_of_neg (by simp [hc])]

theorem flatMap_written_inj {parts parts' : List Segment} (h : ∀ s ∈ parts, Plain s)
    (h' : ∀ s ∈ parts', Plain s) (heq : parts.flatMap written = parts'.flatMap written) :
    parts = parts' := by
  induction parts generalizing parts' with
  | nil =>
      cases parts' with
      | nil => rfl
      | cons t parts' =>
          obtain ⟨c, cs, ht, -⟩ := (h' t List.mem_cons_self).exists_written
          rw [List.flatMap_nil, List.flatMap_cons, ht] at heq
          cases heq
  | cons s parts ih =>
      obtain ⟨c, cs, hs, -, hcs⟩ := (h s List.mem_cons_self).exists_written
      cases parts' with
      | nil =>
          rw [List.flatMap_nil, List.flatMap_cons, hs] at heq
          cases heq
      | cons t parts' =>
          obtain ⟨d, ds, ht, -, hds⟩ := (h' t List.mem_cons_self).exists_written
          have hrest := fun s hs => h s (List.mem_cons_of_mem _ hs)
          have hrest' := fun s hs => h' s (List.mem_cons_of_mem _ hs)
          rw [List.flatMap_cons, List.flatMap_cons, hs, ht, List.cons_append,
            List.cons_append] at heq
          obtain ⟨hfirst, hbody⟩ := List.cons.inj heq
          -- both bodies go as far as the next cut
          have hbodies := congrArg (List.takeWhile fun c => !isCut c) hbody
          rw [List.takeWhile_append_of_pos (by simpa using hcs), takeWhile_written hrest,
            List.takeWhile_append_of_pos (by simpa using hds), takeWhile_written hrest',
            List.append_nil, List.append_nil] at hbodies
          rw [hbodies] at hbody
          have hsame : s = t := written_inj (h s List.mem_cons_self) (h' t List.mem_cons_self) (by
            rw [hs, ht, hfirst, hbodies])
          rw [hsame, ih hrest hrest' (List.append_cancel_left hbody)]

/-- A path that nothing stands before, as it is written behind another. -/
def behind : List Char → List Char
  | [] => []
  | c :: cs => if c == '[' then c :: cs else '.' :: c :: cs

theorem flatMap_written {parts : List Segment} (h : ∀ s ∈ parts, Plain s) :
    parts.flatMap written = behind (joinAll "" parts).toList := by
  cases parts with
  | nil => rfl
  | cons s parts =>
      have hplain := h s List.mem_cons_self
      have hjoin : joinAll "" (s :: parts) = joinAll (join "" s) parts := rfl
      rw [hjoin, toList_joinAll hplain.join_ne_empty, List.flatMap_cons]
      cases s with
      | name s =>
          obtain ⟨hne, hcuts⟩ := hplain
          obtain ⟨c, cs, hs⟩ := List.exists_cons_of_ne_nil (mt String.toList_eq_nil_iff.mp hne)
          have hfirst : (c == '[') = false := by
            have hcut := hcuts c (hs ▸ List.mem_cons_self)
            rw [isCut, Bool.or_eq_false_iff] at hcut
            exact hcut.2
          have hbare : (join "" (.name s)).toList = c :: cs := hs
          rw [hbare, List.cons_append, behind, hfirst, written, hs]
          rfl
      | index i =>
          have hbare : (join "" (.index i)).toList = written (.index i) := by simp [join, written]
          rw [hbare]
          rfl

/-- Plain segments are told by the path that they are written to. -/
theorem joinAll_inj {base : String} {parts parts' : List Segment} (h : ∀ s ∈ parts, Plain s)
    (h' : ∀ s ∈ parts', Plain s) (heq : joinAll base parts = joinAll base parts') :
    parts = parts' := by
  refine flatMap_written_inj h h' ?_
  by_cases hbase : base = ""
  · rw [flatMap_written h, flatMap_written h', ← hbase, heq]
  · have hlist := congrArg String.toList heq
    rw [toList_joinAll hbase, toList_joinAll hbase] at hlist
    exact List.append_cancel_left hlist

end AppSpec.Path
