import AppSpec.Proofs.DiagnosticOrder
import AppSpec.Proofs.Layer.Behaves
import AppSpec.Proofs.SymbolTable.Alike
import AppSpec.Proofs.Text.Closest
import AppSpec.Reference.Resolve

/-!
Resolving references in another order. What a reference comes to depends on the symbol table by what
is found there alone; the records and the diagnostics are sorted, and of references by kind those
that compare as equal come to the same.
-/

namespace AppSpec

theorem didYouMean_congr {candidates candidates' : List String}
    (h : ∀ c, c ∈ candidates ↔ c ∈ candidates') (name : String) :
    didYouMean name candidates = didYouMean name candidates' := by
  rw [didYouMean, didYouMean, Text.closest?_congr h]

namespace Resolve

open Symbols

variable {t t' : Symbols} {E : String → Prop} {r a b : DeferredReference}

/-! ### What is found -/

/-- The same is found in both tables, which may be frozen. -/
structure SameFound (t t' : Symbols) : Prop where
  find : ∀ {ns}, ns ≠ .error → ∀ name, t.find? ns name = t'.find? ns name
  has : ∀ ns name, t.has ns name = t'.has ns name

theorem SameFound.of_alike (h : t.Alike E t') : SameFound t.freeze t'.freeze :=
  ⟨fun hns => h.find hns, h.has⟩

namespace SameFound

theorem declaring? (h : SameFound t t') (name : String) (spaces : List Namespace) :
    Symbols.declaring? t name spaces = Symbols.declaring? t' name spaces := by
  rw [Symbols.declaring?, Symbols.declaring?]
  simp only [h.has]

theorem hint (h : SameFound t t') (name : String) (spaces : List Namespace) :
    Symbols.hint t name spaces = Symbols.hint t' name spaces := by
  refine didYouMean_congr (fun c => ?_) name
  simp only [SymbolTable.namesIn, List.mem_flatMap, SymbolTable.mem_names, h.has]

theorem lookup? (h : SameFound t t') {ns : Namespace} (hns : ns ≠ .error) (name : String) :
    t.lookup? ns name = t'.lookup? ns name := by
  rw [SymbolTable.lookup?, SymbolTable.lookup?, h.find hns]

theorem byName (h : SameFound t t') (r : DeferredReference) :
    Resolve.byName t r = Resolve.byName t' r := by
  rw [Resolve.byName, Resolve.byName, h.declaring?, h.hint]

theorem fieldOf (h : SameFound t t') (r : DeferredReference) :
    Resolve.fieldOf t r = Resolve.fieldOf t' r := by
  have hentity (name : String) : entity? t name = entity? t' name := by
    rw [entity?, entity?, h.lookup? (by nofun)]
  rw [Resolve.fieldOf, Resolve.fieldOf]
  simp only [hentity, h.hint]

theorem startOf_spaces (name : String) : ∀ ns ∈ (startOf name).1, ns ≠ .error := by
  have hboth : ∀ ns ∈ [Namespace.component, Namespace.integration], ns ≠ .error := by decide
  unfold startOf
  split
  · next first second rest _ =>
      split
      · next ns hns =>
          intro other hother
          cases List.mem_singleton.mp hother
          rintro rfl
          rw [layerSpace?] at hns
          split at hns
          · cases hns
          · split at hns <;> cases hns
      · exact hboth
  · exact hboth

theorem target (h : SameFound t t') (r : DeferredReference) :
    Resolve.target t r = Resolve.target t' r := by
  rw [Resolve.target, Resolve.target]
  have hspaces := startOf_spaces r.name
  generalize startOf r.name = start at hspaces
  obtain ⟨spaces, pieces⟩ := start
  dsimp only
  rw [← h.declaring?, ← h.hint]
  cases hfound : Symbols.declaring? t (pieces.headD "") spaces with
  | none => rfl
  | some ns =>
      have hns : ns ≠ .error := hspaces ns (List.mem_of_find?_eq_some hfound)
      have hmembers (name : String) : members t ns name = members t' ns name := by
        rw [members, members, h.lookup? hns]
      dsimp only
      rw [hmembers]

theorem one (h : SameFound t t') (r : DeferredReference) : Resolve.one t r = Resolve.one t' r := by
  rw [Resolve.one, Resolve.one, h.fieldOf, h.target, h.byName]

theorem record (h : SameFound t t') (r : DeferredReference) :
    Resolve.record t r = Resolve.record t' r := by
  rw [Resolve.record, Resolve.record, h.one]

end SameFound

/-! ### Records -/

theorem order_eq_compareLex : order =
    compareLex (compareOn (·.path)) (compareLex (compareOn (·.name))
      (compareOn fun r : ReferenceRecord => r.kind.label)) := rfl

instance : Std.TransCmp order := by
  rw [order_eq_compareLex]
  infer_instance

theorem eq_of_order_of_spaces
    (hspaces : a.path = b.path → a.name = b.name → a.kind = b.kind → a.spaces = b.spaces)
    (h : order (record t a) (record t b) = .eq) : a = b := by
  have horder : a.path = b.path ∧ a.name = b.name ∧ a.kind.label = b.kind.label := by
    simpa [order, record, Ordering.then_eq_eq] using h
  obtain ⟨hpath, hname, hlabel⟩ := horder
  have hkind := congrArg ReferenceKind.ofLabel? hlabel
  rw [ReferenceKind.ofLabel?_label, ReferenceKind.ofLabel?_label] at hkind
  have hkind := Option.some.inj hkind
  have hspaces := hspaces hpath hname hkind
  cases a
  cases b
  cases hpath
  cases hname
  cases hkind
  cases hspaces
  rfl

theorem eq_of_order (ha : a.ByKind) (hb : b.ByKind) (h : order (record t a) (record t b) = .eq) :
    a = b :=
  eq_of_order_of_spaces (fun _ _ hkind => ha.spaces.trans (hkind ▸ hb.spaces.symm)) h

/-! ### Diagnostics -/

theorem quoted_inj {a b c d : String} (ha : a.toList.all (· != '\'') = true)
    (hb : b.toList.all (· != '\'') = true) (h : a ++ " '" ++ c ++ "'" = b ++ " '" ++ d ++ "'") :
    a = b ∧ c = d := by
  have hlist := congrArg String.toList h
  have hquote : " '".toList = [' ', '\''] := rfl
  simp only [String.toList_append, hquote, List.append_assoc, List.cons_append, List.nil_append] at hlist
  have hwhile (x : String) (hx : x.toList.all (· != '\'') = true) (rest : List Char) :
      (x.toList ++ ' ' :: '\'' :: rest).takeWhile (· != '\'') = x.toList ++ [' '] := by
    rw [List.takeWhile_append_of_pos (fun c hc => List.all_eq_true.mp hx c hc)]
    rfl
  have hfront := congrArg (List.takeWhile (· != '\'')) hlist
  rw [hwhile a ha, hwhile b hb] at hfront
  obtain rfl := String.toList_inj.mp (List.append_cancel_right hfront)
  have hrest := List.append_cancel_left hlist
  simp only [List.cons.injEq, true_and] at hrest
  exact ⟨rfl, String.toList_inj.mp (List.append_cancel_right hrest)⟩

theorem noun_plain (k : ReferenceKind) : k.noun.toList.all (· != '\'') = true := by
  cases k <;> decide

theorem spaces_eq_of_noun {k k' : ReferenceKind} (hk : k ≠ .type) (hk' : k' ≠ .type)
    (h : k.noun = k'.noun) : k.spaces = k'.spaces := by
  cases k <;> cases k' <;> first | rfl | contradiction

theorem undefined_inj {k k' : ReferenceKind} {name name' : String}
    (h : (DanglingCause.undefined k name).message = (DanglingCause.undefined k' name').message) :
    k.noun = k'.noun ∧ name = name' := by
  have hplain (k : ReferenceKind) :
      ("reference to undefined " ++ k.noun).toList.all (· != '\'') = true := by
    rw [String.toList_append, List.all_append, noun_plain]
    rfl
  obtain ⟨hfront, hname⟩ := quoted_inj (hplain k) (hplain k') h
  exact ⟨(String.append_right_inj _).mp hfront, hname⟩

theorem message_undefinedType (name : String) : (DanglingCause.undefinedType name).message =
    "undefined type '" ++ name ++ "' (not a primitive, entity or custom type)" := rfl

theorem undefinedType_inj {name name' : String} (h : (DanglingCause.undefinedType name).message =
    (DanglingCause.undefinedType name').message) : name = name' := by
  rw [message_undefinedType, message_undefinedType, String.append_left_inj,
    String.append_right_inj] at h
  exact h

theorem undefinedType_ne {name name' : String} {k : ReferenceKind} :
    (DanglingCause.undefinedType name).message ≠ (DanglingCause.undefined k name').message := by
  intro h
  have hother : (DanglingCause.undefined k name').message =
      "reference to undefined " ++ k.noun ++ " '" ++ name' ++ "'" := rfl
  have hhead := congrArg (fun s => s.toList.head?) h
  rw [message_undefinedType, hother] at hhead
  simp [String.toList_append] at hhead

theorem nameCause_inj (ha : a.ByKind) (hb : b.ByKind)
    (h : (nameCause a).message = (nameCause b).message) : a.name = b.name ∧ a.spaces = b.spaces := by
  rw [ha.spaces, hb.spaces]
  rw [nameCause, nameCause] at h
  by_cases hka : a.kind = .type
  · rw [if_pos hka] at h
    by_cases hkb : b.kind = .type
    · rw [if_pos hkb] at h
      exact ⟨undefinedType_inj h, by rw [hka, hkb]⟩
    · rw [if_neg hkb] at h
      exact (undefinedType_ne h).elim
  · rw [if_neg hka] at h
    by_cases hkb : b.kind = .type
    · rw [if_pos hkb] at h
      exact (undefinedType_ne h.symm).elim
    · rw [if_neg hkb] at h
      obtain ⟨hnoun, hname⟩ := undefined_inj h
      exact ⟨hname, spaces_eq_of_noun hka hkb hnoun⟩

def diagnostic? (t : Symbols) (r : DeferredReference) : Option Diagnostic :=
  (one t r).diagnostic? r.path

theorem diagnostic?_byKind (ha : a.ByKind) {d : Diagnostic} (h : diagnostic? t a = some d) :
    d = .referenceError a.path (nameCause a).message (hint t a.name a.spaces) := by
  have hone : one t a = byName t a := by
    rw [one]
    split
    · next hkind => exact absurd hkind ha.byName.1
    · next hkind => exact absurd hkind ha.byName.2
    · rfl
  rw [diagnostic?, hone, byName] at h
  split at h
  · cases h
  · cases h
    rfl

theorem diagnostic_eq_of_order (ha : a.ByKind) (hb : b.ByKind) {d e : Diagnostic}
    (hd : diagnostic? t a = some d) (he : diagnostic? t b = some e)
    (h : Diagnostic.order d e = .eq) : d = e := by
  obtain rfl := diagnostic?_byKind ha hd
  obtain rfl := diagnostic?_byKind hb he
  obtain ⟨hpath, -, hmessage⟩ := Diagnostic.eq_of_order h
  have hpath : a.path = b.path := hpath
  have hmessage : (nameCause a).message = (nameCause b).message := hmessage
  obtain ⟨hname, hspaces⟩ := nameCause_inj ha hb hmessage
  rw [hpath, hmessage, hname, hspaces]

theorem errorClash_congr (h : t.Alike E t')
    (hE : ∀ name ns, declaring? t name [.entity, .customType, .operation] = some ns → E name)
    (name : String) : errorClash t.freeze name = errorClash t'.freeze name := by
  have hfound := SameFound.of_alike h
  rw [errorClash, errorClash, ← hfound.declaring?]
  cases hns : declaring? t.freeze name [.entity, .customType, .operation] with
  | none => rfl
  | some ns =>
      have hne : ns ≠ .error := by
        rintro rfl
        have hmem := List.mem_of_find?_eq_some hns
        revert hmem
        decide
      have hpath : t.freeze.path? .error name = t'.freeze.path? .error name :=
        h.errorPath name (hE name ns hns)
      have hother : t.freeze.path? ns name = t'.freeze.path? ns name := by
        rw [SymbolTable.path?, SymbolTable.path?, hfound.find hne]
      rw [Option.map_some, Option.map_some, hpath, hother]

theorem errorClash_eq_of_order {name name' : String} {d e : Diagnostic}
    (hd : errorClash t name = some d) (he : errorClash t name' = some e)
    (h : Diagnostic.order d e = .eq) : d = e := by
  obtain ⟨ns, -, rfl⟩ := Option.map_eq_some_iff.mp hd
  obtain ⟨ns', -, rfl⟩ := Option.map_eq_some_iff.mp he
  exact Diagnostic.make_eq_of_order h

end Resolve

variable {t t' : Symbols} {E : String → Prop} {references references' : List DeferredReference}

theorem resolveAll_freeze (t : Symbols) (references : List DeferredReference) :
    resolveAll t.freeze references = .ok
      { records := (references.map (Resolve.record t.freeze)).mergeSort fun a b =>
          (Resolve.order a b).isLE
        diagnostics := references.filterMap (Resolve.diagnostic? t.freeze) ++
          (t.freeze.names .error).filterMap (Resolve.errorClash t.freeze) } := rfl

/-- Where errors have names that are declared otherwise, the place of their first use counts. -/
theorem resolveAll_alike (ht : t.Alike E t')
    (h : Shuffled DeferredReference.ByKind references references') {resolved : ResolvedReferences}
    (hresolved : resolveAll t.freeze references = .ok resolved) :
    ∃ resolved', resolveAll t'.freeze references' = .ok resolved' ∧
      resolved.records = resolved'.records ∧
      ((∀ name ns, t.declaring? name [.entity, .customType, .operation] = some ns → E name) →
        SameClasses Diagnostic.order resolved.diagnostics resolved'.diagnostics) := by
  rw [resolveAll_freeze] at hresolved
  cases hresolved
  have hfound := Resolve.SameFound.of_alike ht
  refine ⟨_, resolveAll_freeze t' references', ?_, fun hE => ?_⟩
  · have hrecords : SameClasses Resolve.order (references.map (Resolve.record t.freeze))
        (references'.map (Resolve.record t.freeze)) := by
      rw [← List.filterMap_eq_map]
      refine h.sameClasses fun ha hb hx hy horder => ?_
      cases hx
      cases hy
      rw [Resolve.eq_of_order ha hb horder]
    have hsame : Resolve.record t.freeze = Resolve.record t'.freeze := funext hfound.record
    exact hsame ▸ hrecords.mergeSort_eq
  · have hdiagnostic : Resolve.diagnostic? t.freeze = Resolve.diagnostic? t'.freeze :=
      funext fun r => by rw [Resolve.diagnostic?, Resolve.diagnostic?, hfound.one]
    have hclash : Resolve.errorClash t.freeze = Resolve.errorClash t'.freeze :=
      funext (Resolve.errorClash_congr ht hE)
    dsimp only
    rw [← hdiagnostic, ← hclash]
    refine (h.sameClasses fun ha hb => Resolve.diagnostic_eq_of_order ha hb).append ?_
    refine .of_perm (ht.errors_perm.filterMap _) fun d hd e he => ?_
    obtain ⟨name, -, hd⟩ := List.mem_filterMap.mp hd
    obtain ⟨name', -, he⟩ := List.mem_filterMap.mp he
    exact Resolve.errorClash_eq_of_order hd he

end AppSpec
