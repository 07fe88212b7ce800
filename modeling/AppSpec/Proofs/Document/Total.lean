import AppSpec.Proofs.Document.Mild
import AppSpec.Proofs.Document.Recursion

/-!
Validation comes to a result on every ordinary document. A document that is no mapping with entries,
or that contains itself, is rejected with one fatal diagnostic; no other has a fatal diagnostic.
-/

namespace AppSpec

/-- Tuples hold plain values, no containers that could be shared. -/
inductive RawItem.Short : RawItem → Prop
  | value {v : Value} (h : v.Short) : Short (.value v)
  | tuple {items : List Value} (h : ∀ v ∈ items, v.Short) : Short (.tuple (items.map .value))
  | node (index : Nat) : Short (.node index)

inductive RawNode.Short : RawNode → Prop
  | dict {entries : List (Scalar × RawItem)} (hkeys : ∀ e ∈ entries, e.1.Short)
      (hitems : ∀ e ∈ entries, e.2.Short) : Short (.dict entries)
  | list {items : List RawItem} (h : ∀ item ∈ items, item.Short) : Short (.list items)
  | set {items : List Scalar} (h : ∀ s ∈ items, s.Short) : Short (.set items)

namespace RawGraph

structure Short (g : RawGraph) : Prop where
  root : g.root.Short
  nodes : ∀ node ∈ g.nodes, node.Short

variable {g : RawGraph}

theorem unfoldItems_values (unfold : Nat → Value) (items : List Value) :
    unfoldItems unfold (items.map .value) = items := by
  induction items with
  | nil => rfl
  | cons item items ih =>
      rw [List.map_cons, unfoldItems, unfoldItem, ih]

theorem short_unfoldItem {unfold : Nat → Value} (h : ∀ index, (unfold index).Short)
    {item : RawItem} (hitem : item.Short) : (unfoldItem unfold item).Short := by
  cases hitem with
  | value hv => exact hv
  | tuple hitems =>
      rw [unfoldItem, unfoldItems_values]
      exact .tuple hitems
  | node index => exact h index

theorem short_unfoldItems {unfold : Nat → Value} (h : ∀ index, (unfold index).Short)
    {items : List RawItem} (hitems : ∀ item ∈ items, item.Short) :
    ∀ v ∈ unfoldItems unfold items, v.Short := by
  induction items with
  | nil => nofun
  | cons item items ih =>
      intro v hv
      rcases List.mem_cons.mp hv with rfl | hv
      · exact short_unfoldItem h (hitems item List.mem_cons_self)
      · exact ih (fun item hi => hitems item (List.mem_cons_of_mem _ hi)) v hv

theorem mem_unfoldItems {unfold : Nat → Value} {items : List RawItem} {item : RawItem}
    (h : item ∈ items) : unfoldItem unfold item ∈ unfoldItems unfold items := by
  induction items with
  | nil => cases h
  | cons first items ih =>
      rcases List.mem_cons.mp h with rfl | h
      · exact List.mem_cons_self
      · exact List.mem_cons_of_mem _ (ih h)

theorem short_unfold (h : g.Short) (steps index : Nat) : (g.unfold steps index).Short := by
  induction steps generalizing index with
  | zero => exact .scalar .null
  | succ steps ih =>
      rw [unfold]
      split
      · next entries hnode =>
          have hnode := h.nodes _ (Array.mem_of_getElem? hnode)
          cases hnode with
          | dict hkeys hitems =>
              constructor
              · intro e he
                obtain ⟨entry, hentry, rfl⟩ := List.mem_map.mp he
                exact hkeys entry hentry
              · intro e he
                obtain ⟨entry, hentry, rfl⟩ := List.mem_map.mp he
                exact short_unfoldItem ih (hitems entry hentry)
      · next items hnode =>
          have hnode := h.nodes _ (Array.mem_of_getElem? hnode)
          cases hnode with
          | list hitems => exact .list (short_unfoldItems ih hitems)
      · next items hnode =>
          have hnode := h.nodes _ (Array.mem_of_getElem? hnode)
          cases hnode with
          | set hitems => exact .set hitems
      · exact .scalar .null

theorem short_value (h : g.Short) : g.value.Short := short_unfoldItem (short_unfold h _) h.root

theorem Short.not_longAt (h : g.Short) (i : Nat) : ¬ g.LongAt i := by
  rintro ⟨⟨step, item⟩, hchild, hlong⟩
  rw [childrenAt] at hchild
  split at hchild
  · next node hnode =>
      have hnode := h.nodes _ (Array.mem_of_getElem? hnode)
      cases hnode with
      | dict hkeys hitems =>
          obtain ⟨e, he, heq⟩ := List.mem_map.mp hchild
          cases heq
          rcases hlong with hkey | ⟨v, hv, hlong⟩
          · exact Bool.false_ne_true ((hkeys e he).hasLongInteger.symm.trans hkey)
          · have hshort := hitems e he
            dsimp only at hv
            rw [hv] at hshort
            cases hshort with
            | value hshort =>
                exact Bool.false_ne_true ((Value.hasLongKey_eq_false hshort).symm.trans hlong)
      | list hitems =>
          obtain ⟨p, hp, heq⟩ := List.mem_map.mp hchild
          cases heq
          rcases hlong with hkey | ⟨v, hv, hlong⟩
          · cases hkey
          · have hshort := hitems _ (List.fst_mem_of_mem_zipIdx hp)
            dsimp only at hv
            rw [hv] at hshort
            cases hshort with
            | value hshort =>
                exact Bool.false_ne_true ((Value.hasLongKey_eq_false hshort).symm.trans hlong)
      | set _ => cases hchild
  · cases hchild

theorem Short.not_hasLongKey (h : g.Short) : ¬ g.HasLongKey := by
  rintro (⟨hroot, hlong⟩ | ⟨-, -, hlong⟩)
  · have hshort := h.root
    rw [hroot] at hshort
    cases hshort with
    | value hshort => exact Bool.false_ne_true ((Value.hasLongKey_eq_false hshort).symm.trans hlong)
  · exact h.not_longAt _ hlong

/-- A key that is too long in what a container holds is one of the value that it unfolds to. -/
theorem hasLongKey_unfold_succ {levels index : Nat} {child : RawStep × RawItem}
    (hchild : child ∈ g.childrenAt index)
    (hlong : child.1.isLong = true ∨ (unfoldItem (g.unfold levels) child.2).hasLongKey = true) :
    (g.unfold (levels + 1) index).hasLongKey = true := by
  rw [childrenAt] at hchild
  rw [unfold]
  cases hnode : g.nodes[index]? with
  | none =>
      rw [hnode] at hchild
      cases hchild
  | some node =>
      rw [hnode] at hchild
      cases node with
      | dict entries =>
          obtain ⟨e, he, rfl⟩ := List.mem_map.mp hchild
          exact Value.anyLongKeyEntry_of_mem (List.mem_map_of_mem he) hlong
      | list items =>
          obtain ⟨p, hp, rfl⟩ := List.mem_map.mp hchild
          refine Value.anyLongKey_of_mem (mem_unfoldItems (List.fst_mem_of_mem_zipIdx hp)) ?_
          exact hlong.resolve_left Bool.false_ne_true
      | set items => cases hchild

/-- A search below a container stops only at a key of the value that the container unfolds to. -/
theorem hasLongKey_unfold {around finished : List Nat} {path : String} {f : Failure}
    {steps levels index : Nat} (hle : steps ≤ levels)
    (h : g.searchBelow steps around index path finished = .error (.failure f)) :
    (g.unfold levels index).hasLongKey = true := by
  induction steps generalizing levels around index path finished with
  | zero => cases h
  | succ steps ih =>
      obtain ⟨levels, rfl⟩ : ∃ n, levels = n + 1 := ⟨levels - 1, by omega⟩
      rw [searchBelow_succ] at h
      rcases bind_eq_error.mp h with h | ⟨_, _, h⟩
      · obtain ⟨child, hchild, after, hvisit⟩ := exists_of_foldlM_eq_error h
        refine hasLongKey_unfold_succ hchild ?_
        obtain ⟨step, item⟩ := child
        unfold visit at hvisit
        split at hvisit
        · next hlong => exact .inl hlong
        · right
          cases item with
          | tuple items => cases hvisit
          | value v =>
              dsimp only at hvisit
              split at hvisit
              · next hlong => exact hlong
              · cases hvisit
          | node next =>
              dsimp only at hvisit
              split at hvisit
              · cases hvisit
              · split at hvisit
                · cases hvisit
                · exact ih (by omega) hvisit
      · cases h

theorem hasLongKey_value {f : Failure} (h : g.recursion? = .error f) :
    g.value.hasLongKey = true := by
  rw [recursion?] at h
  rw [value]
  split at h
  · next index hroot =>
      rw [hroot]
      split at h
      · cases h
      · cases h
      · next hsearch => exact hasLongKey_unfold (Nat.le_succ _) hsearch
  · next v hroot =>
      rw [hroot]
      split at h
      · next hlong => exact hlong
      · cases h
  · cases h

/-- The document is a mapping with entries. -/
inductive HasEntries (g : RawGraph) : Prop
  | value {e : Scalar × Value} {entries : Entries} (h : g.root = .value (.dict (e :: entries)))
  | node {index : Nat} {e : Scalar × RawItem} {entries : List (Scalar × RawItem)}
      (h : g.root = .node index) (hnode : g.nodes[index]? = some (.dict (e :: entries)))

theorem rootKind_of_hasEntries (h : g.HasEntries) : g.rootKind = .mapping := by
  cases h with
  | value h => rw [rootKind, h]
  | node h hnode =>
      rw [rootKind, h]
      dsimp only
      rw [hnode]

theorem hasEntries_of_rootKind (h : g.rootKind = .mapping) : g.HasEntries := by
  rw [rootKind] at h
  split at h
  · cases h
  · cases h
  · next entries hempty hroot =>
      cases entries with
      | nil => exact absurd rfl hempty
      | cons e entries => exact .value hroot
  · cases h
  · cases h
  · next index hroot =>
      split at h
      · cases h
      · next entries hempty hnode =>
          cases entries with
          | nil => exact absurd rfl hempty
          | cons e entries => exact .node hroot hnode
      · cases h
      · cases h
      · cases h

theorem value_of_hasEntries (h : g.HasEntries) : ∃ e entries, g.value = .dict (e :: entries) := by
  cases h with
  | @value e entries h => exact ⟨e, entries, by rw [value, h, unfoldItem]⟩
  | @node index e entries h hnode =>
      rw [value, h, unfoldItem, unfold, hnode]
      exact ⟨_, _, rfl⟩

end RawGraph

namespace Document

variable {g : RawGraph} {s : Settings} {positions : Positions}

theorem rejected_fatal (message : String) (positions : Positions) :
    (rejected message positions).document = {} ∧
      ∃ d, (rejected message positions).diagnostics = [d] ∧ d.severity = .fatal := by
  refine ⟨rfl, _, rfl, ?_⟩
  cases positions.get? "" <;> rfl

theorem validateGraph_of_not_hasEntries (h : ¬ g.HasEntries) (s : Settings) (positions : Positions) :
    ∃ message, validateGraph s g positions = .ok (rejected message positions) := by
  rw [validateGraph]
  split
  · exact ⟨_, rfl⟩
  · exact ⟨_, rfl⟩
  · next hkind => exact absurd (RawGraph.hasEntries_of_rootKind hkind) h

theorem validateGraph_of_selfContaining (hentries : g.HasEntries) (h : g.SelfContaining)
    (s : Settings) (positions : Positions) :
    (∃ message, validateGraph s g positions = .ok (rejected message positions)) ∨
      validateGraph s g positions = .error .integerTooLong ∧ g.HasLongKey := by
  have hends := RawGraph.ends_recursion? g
  rw [validateGraph, RawGraph.rootKind_of_hasEntries hentries]
  dsimp only
  split
  · exact .inl ⟨_, rfl⟩
  · next hnone => exact absurd h (RawGraph.recursion?_eq_none.mp hnone).1
  · next herror =>
      rw [herror] at hends
      exact .inr ⟨congrArg _ hends.1, hends.2⟩

theorem validateGraph_of_finite (hentries : g.HasEntries) (h : ¬ g.SelfContaining) (s : Settings)
    (positions : Positions) : validateGraph s g positions = validate s g.value positions := by
  rw [validateGraph, RawGraph.rootKind_of_hasEntries hentries]
  rcases RawGraph.recursion?_of_finite h with ⟨hnone, -⟩ | ⟨herror, -⟩
  · rw [hnone]
  · obtain ⟨e, entries, hvalue⟩ := RawGraph.value_of_hasEntries hentries
    have hlong := RawGraph.hasLongKey_value herror
    rw [herror, hvalue, validate]
    · rw [hvalue] at hlong
      rw [if_pos hlong]
      rfl
    · exact fun hnil => List.cons_ne_nil e entries hnil

/-- Every ordinary document is validated. A mapping with entries that does not contain itself has no
fatal diagnostic, any other document is rejected with a single one. -/
theorem validateGraph_total {given : Named Value} {environment : Named String}
    (hs : Settings.read given environment = .ok s) (hshort : g.Short)
    (horderly : ¬ g.SelfContaining → ∀ entries, g.value = .dict entries → Orderly entries)
    (positions : Positions) :
    ∃ r, validateGraph s g positions = .ok r ∧
      (g.HasEntries ∧ ¬ g.SelfContaining → ∀ d ∈ r.diagnostics, d.severity ≠ .fatal) ∧
      (¬ (g.HasEntries ∧ ¬ g.SelfContaining) →
        r.document = {} ∧ ∃ d, r.diagnostics = [d] ∧ d.severity = .fatal) := by
  by_cases hordinary : g.HasEntries ∧ ¬ g.SelfContaining
  · obtain ⟨hentries, hfinite⟩ := hordinary
    obtain ⟨e, entries, hvalue⟩ := RawGraph.value_of_hasEntries hentries
    have hvalueShort : (Value.dict (e :: entries)).Short := hvalue ▸ RawGraph.short_value hshort
    obtain ⟨r, hvalidate, hmild⟩ := validate_dict (Settings.unmappedSeverity_ne_fatal hs)
      (Entries.short_dict hvalueShort) (horderly hfinite _ hvalue) (List.cons_ne_nil _ _) positions
    refine ⟨r, ?_, fun _ => hmild, fun h => absurd ⟨hentries, hfinite⟩ h⟩
    rw [validateGraph_of_finite hentries hfinite, hvalue]
    exact hvalidate
  · have hrejected : ∃ message, validateGraph s g positions = .ok (rejected message positions) := by
      by_cases hentries : g.HasEntries
      · exact (validateGraph_of_selfContaining hentries
          (not_not.mp fun h => hordinary ⟨hentries, h⟩) s positions).resolve_right
          fun hlong => hshort.not_hasLongKey hlong.2
      · exact validateGraph_of_not_hasEntries hentries s positions
    obtain ⟨message, hvalidate⟩ := hrejected
    exact ⟨_, hvalidate, fun h => absurd h hordinary, fun _ => rejected_fatal message positions⟩

def sharedService : RawGraph where
  nodes := #[.dict [(.str "components", .node 1)],
    .dict [(.str "Users", .node 2), (.str "Billing", .node 2)],
    .dict [(.str "type", .value (.str "service")), (.str "dependencies", .value (.str "Users"))]]
  root := .node 0

def service : Value :=
  .dict [(.str "type", .str "service"), (.str "dependencies", .str "Users")]

theorem short_text {t : String} (h : t.length ≤ Text.maxIntegerDigits) : (Scalar.str t).Short :=
  .str (Text.not_hasLongNumber (String.length_toList ▸ h))

theorem short_sharedService : sharedService.Short := by
  have htext (t : String) (h : (t.length ≤ Text.maxIntegerDigits) := by decide) :
      (Scalar.str t).Short := short_text h
  refine ⟨.node 0, fun node hnode => ?_⟩
  have hnodes : node ∈ sharedService.nodes.toList := Array.mem_toList_iff.mpr hnode
  simp only [sharedService, List.mem_cons, List.not_mem_nil, or_false] at hnodes
  rcases hnodes with rfl | rfl | rfl
  · constructor
    · simpa using htext "components"
    · simpa using RawItem.Short.node 1
  · constructor
    · simpa using ⟨htext "Users", htext "Billing"⟩
    · simpa using RawItem.Short.node 2
  · constructor
    · simpa using ⟨htext "type", htext "dependencies"⟩
    · simpa using ⟨RawItem.Short.value (.scalar (htext "service")),
        RawItem.Short.value (.scalar (htext "Users"))⟩

theorem orderly_sharedService (entries : Entries) (hentries : sharedService.value = .dict entries) :
    Orderly entries := by
  cases hentries
  refine ⟨fun layer => ?_, ?_⟩
  · cases layer with
    | components =>
        intro body hbody
        have hbodies : body ∈ [service, service] := hbody
        obtain rfl : body = service := by simpa using hbodies
        intro entries heq
        cases heq
        unfold Shape.Untyped
        decide
    | logic => nofun
    | ui => nofun
    | security => nofun
    | _ => trivial
  · nofun

theorem validateGraph_total_sharedService :
    Settings.read [] [] = .ok {} ∧ sharedService.Short ∧ sharedService.HasEntries ∧
      ∃ r, validateGraph {} sharedService = .ok r ∧
        (sharedService.HasEntries ∧ ¬ sharedService.SelfContaining →
          ∀ d ∈ r.diagnostics, d.severity ≠ .fatal) ∧
        (¬ (sharedService.HasEntries ∧ ¬ sharedService.SelfContaining) →
          r.document = {} ∧ ∃ d, r.diagnostics = [d] ∧ d.severity = .fatal) := by
  have hs : Settings.read [] [] = .ok {} := rfl
  refine ⟨hs, short_sharedService, .node rfl rfl, ?_⟩
  exact validateGraph_total hs short_sharedService (fun _ => orderly_sharedService) []

end Document

end AppSpec
