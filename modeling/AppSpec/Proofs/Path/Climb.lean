import AppSpec.Proofs.Path

/-!
The paths above a path, reached from it by cutting off what follows its last cut, again and again.
The climb ends on every path, and comes to those prefixes that end before a cut, to each of them and
to nothing else. So a path that is joined from segments has every path on the way to it above it,
whatever the names among them are made of.
-/

namespace AppSpec.Path

/-! ### A step up -/

/-- Where a character stands last: one place before the start if it does not stand at all. -/
def lastIndex (c : Char) (cs : List Char) : Int := cs.length - 1 - cs.reverse.idxOf c

def lastCut (path : String) : Int := max (lastIndex '.' path.toList) (lastIndex '[' path.toList)

/-- A path without what follows its last cut, where that leaves anything. -/
def cutBack? (path : String) : Option String :=
  if lastCut path ≤ 0 then none else some (String.ofList (path.toList.take (lastCut path).toNat))

section LastIndex

variable {c : Char} {back : List Char} (front : List Char)

theorem lastIndex_append_cons (h : c ∉ back) : lastIndex c (front ++ c :: back) = front.length := by
  have hreverse : (front ++ c :: back).reverse = back.reverse ++ c :: front.reverse := by simp
  rw [lastIndex, hreverse, List.idxOf_append_of_notMem (by simpa using h), List.idxOf_cons_self,
    List.length_append, List.length_cons, List.length_reverse]
  omega

theorem lastIndex_append_lt (h : c ∉ back) : lastIndex c (front ++ back) < front.length := by
  rw [lastIndex, List.reverse_append, List.idxOf_append_of_notMem (by simpa using h),
    List.length_append, List.length_reverse]
  omega

end LastIndex

theorem isCut_iff {c : Char} : isCut c = true ↔ c = '.' ∨ c = '[' := by simp [isCut]

def Uncut (cs : List Char) : Prop := ∀ c ∈ cs, isCut c = false

namespace Uncut

variable {cs : List Char}

theorem notMem (h : Uncut cs) {c : Char} (hc : isCut c = true) : c ∉ cs :=
  fun hmem => Bool.false_ne_true ((h c hmem).symm.trans hc)

theorem reverse (h : Uncut cs) : Uncut cs.reverse := fun c hc => h c (List.mem_reverse.mp hc)

end Uncut

theorem uncut_or_exists_last (cs : List Char) :
    Uncut cs ∨ ∃ front c back, isCut c = true ∧ Uncut back ∧ cs = front ++ c :: back := by
  induction cs with
  | nil => exact .inl nofun
  | cons c cs ih =>
      rcases ih with huncut | ⟨front, d, back, hd, hback, rfl⟩
      · cases hc : isCut c with
        | false => exact .inl (List.forall_mem_cons.mpr ⟨hc, huncut⟩)
        | true => exact .inr ⟨[], c, cs, hc, huncut, rfl⟩
      · exact .inr ⟨c :: front, d, back, hd, hback, rfl⟩

variable {path next : String}

theorem lastCut_of_uncut (h : Uncut path.toList) : lastCut path < 0 :=
  max_lt (lastIndex_append_lt [] (h.notMem rfl)) (lastIndex_append_lt [] (h.notMem rfl))

theorem lastCut_of_split {front back : List Char} {c : Char} (hc : isCut c = true)
    (hback : Uncut back) (h : path.toList = front ++ c :: back) : lastCut path = front.length := by
  -- the other cut stands further to the front, if at all
  have hbefore {d : Char} (hd : isCut d = true) (hne : d ≠ c) :
      lastIndex d (front ++ c :: back) ≤ front.length :=
    (lastIndex_append_lt front (by simp [hne, hback.notMem hd])).le
  rw [lastCut, h]
  rcases isCut_iff.mp hc with rfl | rfl
  · rw [lastIndex_append_cons front (hback.notMem hc), max_eq_left (hbefore rfl (by decide))]
  · rw [lastIndex_append_cons front (hback.notMem hc), max_eq_right (hbefore rfl (by decide))]

theorem uncut_tail_of_cutBack?_eq_none (h : cutBack? path = none) : Uncut path.toList.tail := by
  rcases uncut_or_exists_last path.toList with huncut | ⟨front, c, back, hc, hback, hsplit⟩
  · exact fun c hc => huncut c (List.mem_of_mem_tail hc)
  · rw [cutBack?, lastCut_of_split hc hback hsplit] at h
    cases front with
    | nil => rwa [hsplit]
    | cons d front => simp at h

theorem split_of_cutBack?_eq_some (h : cutBack? path = some next) :
    next ≠ "" ∧ ∃ c back, isCut c = true ∧ Uncut back ∧ path.toList = next.toList ++ c :: back := by
  rcases uncut_or_exists_last path.toList with huncut | ⟨front, c, back, hc, hback, hsplit⟩
  · rw [cutBack?, if_pos (lastCut_of_uncut huncut).le] at h
    cases h
  · rw [cutBack?, lastCut_of_split hc hback hsplit, hsplit] at h
    cases front with
    | nil => simp at h
    | cons d front =>
        rw [if_neg (by simp), Int.toNat_natCast, List.take_left' rfl, Option.some.injEq] at h
        subst h
        rw [← String.toList_inj.ne, String.toList_ofList]
        exact ⟨List.cons_ne_nil d front, c, back, hc, hback, hsplit⟩

theorem length_lt_of_cutBack? (h : cutBack? path = some next) : next.length < path.length := by
  obtain ⟨-, c, back, -, -, hsplit⟩ := split_of_cutBack?_eq_some h
  have hlength := congrArg List.length hsplit
  rw [List.length_append, List.length_cons, String.length_toList, String.length_toList] at hlength
  omega

/-! ### The paths around a path -/

/-- A path ends just where the other is cut. -/
def Encloses (outer inner : String) : Prop :=
  outer ≠ "" ∧ ∃ c rest, (c = '.' ∨ c = '[') ∧ inner.toList = outer.toList ++ c :: rest

theorem not_encloses_of_cutBack?_eq_none (h : cutBack? path = none) (outer : String) :
    ¬Encloses outer path := by
  rintro ⟨hne, c, rest, hc, hsplit⟩
  obtain ⟨d, ds, hds⟩ := List.exists_cons_of_ne_nil (mt String.toList_eq_nil_iff.mp hne)
  have htail := uncut_tail_of_cutBack?_eq_none h
  rw [hsplit, hds, List.cons_append, List.tail_cons] at htail
  exact htail.notMem (isCut_iff.mpr hc) (List.mem_append_right _ List.mem_cons_self)

/-- A step up passes over nothing: what is around a path is where the step leads, or around that. -/
theorem encloses_iff_of_cutBack? (h : cutBack? path = some next) (outer : String) :
    Encloses outer path ↔ outer = next ∨ Encloses outer next := by
  obtain ⟨hnext, c, back, hc, hback, hsplit⟩ := split_of_cutBack?_eq_some h
  constructor
  · rintro ⟨hne, d, rest, hd, hrest⟩
    rcases List.append_eq_append_iff.mp (hsplit.symm.trans hrest) with
      ⟨between, houter, hcuts⟩ | ⟨between, hbetween, hcuts⟩
    · -- a path that ends behind the step's cut would end before one of the characters cut off
      cases between with
      | nil => exact .inl (String.toList_inj.mp (houter.trans (List.append_nil _)))
      | cons e between =>
          obtain ⟨-, rfl⟩ := List.cons.inj hcuts
          exact absurd (List.mem_append_right _ List.mem_cons_self)
            (hback.notMem (isCut_iff.mpr hd))
    · cases between with
      | nil => exact .inl (String.toList_inj.mp (hbetween.trans (List.append_nil _)).symm)
      | cons e between =>
          obtain ⟨rfl, -⟩ := List.cons.inj hcuts
          exact .inr ⟨hne, d, between, hd, hbetween⟩
  · rintro (rfl | ⟨hne, d, rest, hd, hrest⟩)
    · exact ⟨hnext, c, back, isCut_iff.mp hc, hsplit⟩
    · refine ⟨hne, d, rest ++ c :: back, hd, ?_⟩
      rw [hsplit, hrest, List.append_assoc, List.cons_append]

/-! ### The climb -/

/-- A climb from a path that has come to its end, and the paths that it came through. -/
inductive Climb : String → List String → Prop
  | empty : Climb "" []
  | last {path : String} (hpath : path ≠ "") (hlast : cutBack? path = none) : Climb path [path]
  | up {path next : String} {above : List String} (hpath : path ≠ "")
      (hnext : cutBack? path = some next) (more : Climb next above) : Climb path (path :: above)

theorem Climb.mem_iff {above : List String} (h : Climb path above) (hpath : path ≠ "")
    (p : String) : p ∈ above ↔ p = path ∨ Encloses p path := by
  induction h with
  | empty => exact absurd rfl hpath
  | last _ hlast => simp [not_encloses_of_cutBack?_eq_none hlast]
  | up _ hnext _ ih =>
      rw [List.mem_cons, ih (split_of_cutBack?_eq_some hnext).1, encloses_iff_of_cutBack? hnext]

theorem ancestorsReversed_append {back : List Char} (h : Uncut back) (cs : List Char) :
    ancestorsReversed (back ++ cs) = ancestorsReversed cs := by
  induction back with
  | nil => rfl
  | cons c back ih =>
      obtain ⟨hc, hback⟩ := List.forall_mem_cons.mp h
      rw [List.cons_append, ancestorsReversed, hc, Bool.false_and, if_neg Bool.false_ne_true,
        ih hback]

theorem parents_of_ne_empty (h : path ≠ "") : parents path =
    path :: (ancestorsReversed path.toList.reverse).map fun cs => String.ofList cs.reverse := by
  rw [parents, if_neg (by simpa using h)]

theorem parents_of_cutBack?_eq_none (hpath : path ≠ "") (h : cutBack? path = none) :
    parents path = [path] := by
  obtain ⟨c, cs, hcs⟩ := List.exists_cons_of_ne_nil (mt String.toList_eq_nil_iff.mp hpath)
  have htail := uncut_tail_of_cutBack?_eq_none h
  rw [hcs, List.tail_cons] at htail
  rw [parents_of_ne_empty hpath, hcs, List.reverse_cons, ancestorsReversed_append htail.reverse]
  simp [ancestorsReversed]

theorem parents_of_cutBack? (hpath : path ≠ "") (h : cutBack? path = some next) :
    parents path = path :: parents next := by
  obtain ⟨hnext, c, back, hc, hback, hsplit⟩ := split_of_cutBack?_eq_some h
  have hreverse : path.toList.reverse = back.reverse ++ c :: next.toList.reverse := by
    rw [hsplit, List.reverse_append, List.reverse_cons, List.append_assoc, List.singleton_append]
  rw [parents_of_ne_empty hpath, parents_of_ne_empty hnext, hreverse,
    ancestorsReversed_append hback.reverse, ancestorsReversed, hc, if_pos (by simpa using hnext)]
  simp

theorem climb_parents (path : String) : Climb path (parents path) := by
  induction hlength : path.length using Nat.strong_induction_on generalizing path with
  | _ n ih =>
      by_cases hpath : path = ""
      · rw [hpath]
        exact .empty
      · cases h : cutBack? path with
        | none =>
            rw [parents_of_cutBack?_eq_none hpath h]
            exact .last hpath h
        | some next =>
            rw [parents_of_cutBack? hpath h]
            exact .up hpath h (ih _ (hlength ▸ length_lt_of_cutBack? h) next rfl)

theorem Climb.eq_parents {above : List String} (h : Climb path above) : above = parents path := by
  induction h with
  | empty => rfl
  | last hpath hlast => exact (parents_of_cutBack?_eq_none hpath hlast).symm
  | up hpath hnext _ ih => rw [parents_of_cutBack? hpath hnext, ih]

/-! ### Joined paths -/

theorem encloses_joinAll {base : String} (h : base ≠ "") (s : Segment) (parts : List Segment) :
    Encloses base (joinAll base (s :: parts)) := by
  have hlist := toList_joinAll h (s :: parts)
  rw [List.flatMap_cons] at hlist
  cases s with
  | name s => exact ⟨h, '.', _, .inl rfl, hlist⟩
  | index i => exact ⟨h, '[', _, .inr rfl, hlist⟩

theorem joinAll_ne_empty {base : String} (h : base ≠ "") (parts : List Segment) :
    joinAll base parts ≠ "" :=
  List.foldlRecOn (motive := fun path => path ≠ "") parts join h fun _ h s _ => join_ne_empty h s

theorem mem_scanl_join {base : String} (h : base ≠ "") {parts : List Segment} {p : String}
    (hp : p ∈ parts.scanl join base) :
    p = joinAll base parts ∨ Encloses p (joinAll base parts) := by
  induction parts generalizing base with
  | nil => exact .inl (List.mem_singleton.mp hp)
  | cons s parts ih =>
      rw [List.scanl_cons, List.mem_cons] at hp
      rcases hp with rfl | hp
      · exact .inr (encloses_joinAll h s parts)
      · exact ih (join_ne_empty h s) hp

/-- The climb from a path ends, and comes through that path and all that are around it, longest
first and each one once. Whatever is joined to the path, the climb from there comes through every
path that was written on the way. -/
theorem parents_exact {path : String} (hpath : path ≠ "") :
    (∀ above, Climb path above ↔ above = parents path) ∧
      (parents path).Pairwise (fun p q => q.length < p.length) ∧
      (∀ p, p ∈ parents path ↔ p = path ∨ Encloses p path) ∧
      ∀ parts : List Segment, ∀ p ∈ parts.scanl join path, p ∈ parents (joinAll path parts) := by
  refine ⟨fun above => ⟨Climb.eq_parents, ?_⟩, pairwise_parents path,
    (climb_parents path).mem_iff hpath, fun parts p hp => ?_⟩
  · rintro rfl
    exact climb_parents path
  · exact ((climb_parents _).mem_iff (joinAll_ne_empty hpath parts) p).mpr (mem_scanl_join hpath hp)

theorem parents_exact_listItem :
    Climb "[0].pages" ["[0].pages", "[0]"] ∧
      ∀ p ∈ ["[0].pages", "[0].pages.a.[", "[0].pages.a.[.", "[0].pages.a.[.[7]"],
        p ∈ parents "[0].pages.a.[.[7]" := by
  have hpath : "[0].pages" ≠ "" := by decide
  obtain ⟨hclimb, -, -, hjoined⟩ := parents_exact hpath
  have hparents : ["[0].pages", "[0]"] = parents "[0].pages" := by decide +kernel
  exact ⟨(hclimb _).mpr hparents, hjoined [.name "a.[", .name "", .index 7]⟩

end AppSpec.Path
