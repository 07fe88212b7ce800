import AppSpec.Proofs.Named.Order
import AppSpec.Proofs.SymbolTable

/-!
Symbol tables in which the same is found. The order of the declarations does not count, and for
names that are declared by their use alone the place of the first use counts only where it is asked
for.
-/

namespace AppSpec.SymbolTable

variable {δ : Type} {t t' : SymbolTable δ} {E : String → Prop} {uses uses' : Named String}
  {ds ds' : List (Declaration δ)} {ns : Namespace}

theorem mem_names {name : String} : name ∈ t.names ns ↔ t.has ns name = true := by
  rw [names, List.mem_map, has, find?, List.find?_isSome]
  constructor
  · rintro ⟨d, hd, rfl⟩
    obtain ⟨hd, hspace⟩ := List.mem_filter.mp hd
    exact ⟨d, hd, by simpa using hspace⟩
  · rintro ⟨d, hd, h⟩
    obtain ⟨hspace, hname⟩ := Bool.and_eq_true_iff.mp h
    exact ⟨d, List.mem_filter.mpr ⟨hd, hspace⟩, by simpa using hname⟩

@[simp]
theorem find?_append (declarations ds : List (Declaration δ)) (frozen : Bool) (ns : Namespace)
    (name : String) :
    find? ⟨declarations ++ ds, frozen⟩ ns name =
      (find? ⟨declarations, frozen⟩ ns name).or (find? ⟨ds, frozen⟩ ns name) :=
  List.find?_append

theorem find?_eq_none_of_space (h : ∀ d ∈ ds, d.space ≠ ns) (frozen : Bool) (name : String) :
    find? ⟨ds, frozen⟩ ns name = none := by
  refine List.find?_eq_none.mpr fun d hd hfound => h d hd ?_
  simpa using (Bool.and_eq_true_iff.mp hfound).1

theorem clash?_congr {name : String} (hns : ns ≠ .error)
    (h : ∀ {other}, other ≠ .error → t.find? other name = t'.find? other name) :
    t.clash? ns name = t'.clash? ns name := by
  have hrival : ns.rival? ≠ some .error := by cases ns <;> nofun
  have hother : ns.rival?.bind (fun other => t.find? other name) =
      ns.rival?.bind fun other => t'.find? other name := by
    cases hr : ns.rival? with
    | none => rfl
    | some other => exact h fun heq => hrival (heq ▸ hr)
  rw [clash?, clash?, h hns, hother]

/-! ### Declarations by use, and others after them -/

def use (t : SymbolTable δ) (entry : String × String) : SymbolTable δ :=
  if t.has .error entry.1 then t
  else ⟨t.declarations ++ [⟨.error, entry.1, entry.2, none⟩], t.frozen⟩

def after (t : SymbolTable δ) (uses : Named String) (ds : List (Declaration δ)) : SymbolTable δ :=
  ⟨(uses.foldl use t).declarations ++ ds, t.frozen⟩

@[simp]
theorem frozen_use (t : SymbolTable δ) (entry : String × String) :
    (t.use entry).frozen = t.frozen := by
  rw [use]
  split <;> rfl

theorem frozen_foldl_use (uses : Named String) (t : SymbolTable δ) :
    (uses.foldl use t).frozen = t.frozen := by
  induction uses generalizing t with
  | nil => rfl
  | cons entry uses ih => rw [List.foldl_cons, ih, frozen_use]

theorem foldl_use_eq_after (t : SymbolTable δ) (uses : Named String) :
    uses.foldl use t = t.after uses [] := by
  rw [after, List.append_nil, ← frozen_foldl_use uses t]

theorem find?_use (h : ns ≠ .error) (t : SymbolTable δ) (entry : String × String) (name : String) :
    (t.use entry).find? ns name = t.find? ns name := by
  rw [use]
  split
  · rfl
  · have hnew : find? (⟨[⟨.error, entry.1, entry.2, none⟩], t.frozen⟩ : SymbolTable δ) ns name = none :=
      find?_eq_none_of_space (by simpa using h.symm) _ _
    rw [find?_append, hnew, Option.or_none]

theorem path?_use (t : SymbolTable δ) (entry : String × String) (name : String) :
    (t.use entry).path? .error name = (t.path? .error name).or (Named.get? [entry] name) := by
  obtain ⟨key, path⟩ := entry
  rw [use]
  split
  · next hhas =>
      rw [Named.get?, Named.get?]
      split
      · next heq =>
          rw [has, ← heq] at *
          obtain ⟨d, hd⟩ := Option.isSome_iff_exists.mp hhas
          rw [path?, hd]
          rfl
      · rw [Option.or_none]
  · rw [path?, find?_append, path?]
    by_cases heq : key = name
    · cases t.find? .error name <;> simp [find?, Named.get?, heq]
    · cases t.find? .error name <;> simp [find?, Named.get?, heq]

theorem nodup_use (h : (t.names .error).Nodup) (entry : String × String) :
    ((t.use entry).names .error).Nodup := by
  rw [use]
  split
  · exact h
  · next hhas =>
      rw [names, List.filter_append, List.map_append]
      refine List.Nodup.append h (by simp) ?_
      rintro name hname hnew
      obtain rfl : name = entry.1 := by simpa using hnew
      exact hhas (mem_names.mp hname)

theorem find?_foldl_use (h : ns ≠ .error) (uses : Named String) (t : SymbolTable δ) (name : String) :
    (uses.foldl use t).find? ns name = t.find? ns name := by
  induction uses generalizing t with
  | nil => rfl
  | cons entry uses ih => rw [List.foldl_cons, ih, find?_use h]

theorem path?_foldl_use (uses : Named String) (t : SymbolTable δ) (name : String) :
    (uses.foldl use t).path? .error name = (t.path? .error name).or (Named.get? uses name) := by
  induction uses generalizing t with
  | nil => rw [Named.get?, Option.or_none]; rfl
  | cons entry uses ih =>
      rw [List.foldl_cons, ih, path?_use, Option.or_assoc, ← Named.get?_append]
      rfl

theorem nodup_foldl_use (h : (t.names .error).Nodup) (uses : Named String) :
    ((uses.foldl use t).names .error).Nodup := by
  induction uses generalizing t with
  | nil => exact h
  | cons entry uses ih => exact ih (nodup_use h entry)

section After

variable (hds : ∀ d ∈ ds, d.space ≠ .error)

theorem find?_after (h : ns ≠ .error) (name : String) :
    (t.after uses ds).find? ns name = (t.find? ns name).or (find? ⟨ds, t.frozen⟩ ns name) := by
  rw [after, find?_append]
  exact congrArg (Option.or · _) (find?_foldl_use h uses t name)

theorem clash?_after {name : String} (hns : ns ≠ .error) (h : ∀ d ∈ ds, d.name ≠ name) :
    (t.after uses ds).clash? ns name = t.clash? ns name := by
  refine clash?_congr hns fun {other} hother => ?_
  have hnone : find? ⟨ds, t.frozen⟩ other name = none :=
    List.find?_eq_none.mpr fun d hd hfound => h d hd (by simpa using (Bool.and_eq_true_iff.mp hfound).2)
  rw [find?_after hother, hnone, Option.or_none]

include hds

theorem path?_after (name : String) :
    (t.after uses ds).path? .error name = (t.path? .error name).or (Named.get? uses name) := by
  rw [after, path?, find?_append, find?_eq_none_of_space hds, Option.or_none]
  exact path?_foldl_use uses t name

theorem nodup_after (h : (t.names .error).Nodup) : ((t.after uses ds).names .error).Nodup := by
  have hnone : ds.filter (fun d => d.space == .error) = [] :=
    List.filter_eq_nil_iff.mpr fun d hd => by simpa using hds d hd
  rw [after, names, List.filter_append, hnone, List.append_nil]
  exact nodup_foldl_use h uses

end After

/-! ### Tables in which the same is found -/

structure Alike (E : String → Prop) (t t' : SymbolTable δ) : Prop where
  unfrozen : t.frozen = false
  unfrozen' : t'.frozen = false
  find : ∀ {ns}, ns ≠ .error → ∀ name, t.find? ns name = t'.find? ns name
  hasError : ∀ name, t.has .error name = t'.has .error name
  errorPath : ∀ name, E name → t.path? .error name = t'.path? .error name
  nodup : (t.names .error).Nodup
  nodup' : (t'.names .error).Nodup

theorem isSome_path? (t : SymbolTable δ) (ns : Namespace) (name : String) :
    (t.path? ns name).isSome = t.has ns name := Option.isSome_map

namespace Alike

theorem empty : Alike E (empty : SymbolTable δ) SymbolTable.empty :=
  ⟨rfl, rfl, fun _ _ => rfl, fun _ => rfl, fun _ _ => rfl, .nil, .nil⟩

theorem trans {t'' : SymbolTable δ} (h : Alike E t t') (h' : Alike E t' t'') : Alike E t t'' :=
  ⟨h.unfrozen, h'.unfrozen', fun hns name => (h.find hns name).trans (h'.find hns name),
    fun name => (h.hasError name).trans (h'.hasError name),
    fun name hE => (h.errorPath name hE).trans (h'.errorPath name hE), h.nodup, h'.nodup'⟩

theorem left (h : Alike E t t') : Alike E t t :=
  ⟨h.unfrozen, h.unfrozen, fun _ _ => rfl, fun _ => rfl, fun _ _ => rfl, h.nodup, h.nodup⟩

theorem right (h : Alike E t t') : Alike E t' t' :=
  ⟨h.unfrozen', h.unfrozen', fun _ _ => rfl, fun _ => rfl, fun _ _ => rfl, h.nodup', h.nodup'⟩

theorem has (h : Alike E t t') (ns : Namespace) (name : String) : t.has ns name = t'.has ns name := by
  by_cases hns : ns = .error
  · exact hns ▸ h.hasError name
  · rw [SymbolTable.has, SymbolTable.has, h.find hns]

theorem errors_perm (h : Alike E t t') : (t.names .error).Perm (t'.names .error) :=
  (List.perm_ext_iff_of_nodup h.nodup h.nodup').mpr fun name => by
    rw [mem_names, mem_names, h.hasError]

theorem clash? (h : Alike E t t') (hns : ns ≠ .error) (name : String) :
    t.clash? ns name = t'.clash? ns name := clash?_congr hns fun hother => h.find hother name

theorem after (h : Alike E t t') (uses : Named String) (hds : ∀ d ∈ ds, d.space ≠ .error) :
    Alike E (t.after uses ds) (t'.after uses ds) where
  unfrozen := h.unfrozen
  unfrozen' := h.unfrozen'
  find hns name := by rw [find?_after hns, find?_after hns, h.find hns, h.unfrozen, h.unfrozen']
  hasError name := by
    rw [← isSome_path?, ← isSome_path?, path?_after hds, path?_after hds, Option.isSome_or,
      Option.isSome_or, isSome_path?, isSome_path?, h.hasError]
  errorPath name hE := by rw [path?_after hds, path?_after hds, h.errorPath name hE]
  nodup := nodup_after hds h.nodup
  nodup' := nodup_after hds h.nodup'

/-- What is declared, and what is used where its place counts, does not come up on both sides. -/
theorem after_comm (h : Alike E t t) (hds : ∀ d ∈ ds, d.space ≠ .error)
    (hds' : ∀ d ∈ ds', d.space ≠ .error) (hapart : ∀ d ∈ ds, ∀ d' ∈ ds', d.name ≠ d'.name)
    (huses : ∀ name, E name → name ∈ Named.keys uses → name ∉ Named.keys uses') :
    Alike E ((t.after uses ds).after uses' ds') ((t.after uses' ds').after uses ds) where
  unfrozen := h.unfrozen
  unfrozen' := h.unfrozen
  find {ns} hns name := by
    rw [find?_after hns, find?_after hns, find?_after hns, find?_after hns, Option.or_assoc,
      Option.or_assoc]
    refine congrArg (Option.or _) ?_
    show Option.or (find? ⟨ds, t.frozen⟩ ns name) (find? ⟨ds', t.frozen⟩ ns name) =
      Option.or (find? ⟨ds', t.frozen⟩ ns name) (find? ⟨ds, t.frozen⟩ ns name)
    cases hfound : find? ⟨ds, t.frozen⟩ ns name with
    | none => rw [Option.none_or, Option.or_none]
    | some d =>
        cases hfound' : find? ⟨ds', t.frozen⟩ ns name with
        | none => rfl
        | some d' =>
            obtain ⟨hd, -, hname⟩ := find?_some hfound
            obtain ⟨hd', -, hname'⟩ := find?_some hfound'
            exact (hapart d hd d' hd' (hname.trans hname'.symm)).elim
  hasError name := by
    rw [← isSome_path?, ← isSome_path?, path?_after hds', path?_after hds, path?_after hds,
      path?_after hds', Option.isSome_or, Option.isSome_or, Option.isSome_or, Option.isSome_or,
      Bool.or_assoc, Bool.or_assoc, Bool.or_comm (Named.get? uses name).isSome]
  errorPath name hE := by
    rw [path?_after hds', path?_after hds, path?_after hds, path?_after hds', Option.or_assoc,
      Option.or_assoc]
    refine congrArg (Option.or _) ?_
    by_cases hname : name ∈ Named.keys uses
    · rw [Named.get?_eq_none (huses name hE hname), Option.or_none, Option.none_or]
    · rw [Named.get?_eq_none hname, Option.or_none, Option.none_or]
  nodup := nodup_after hds' (nodup_after hds h.nodup)
  nodup' := nodup_after hds (nodup_after hds' h.nodup)

end Alike

end AppSpec.SymbolTable
