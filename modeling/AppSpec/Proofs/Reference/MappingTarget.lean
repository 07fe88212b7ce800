import AppSpec.Proofs.Layer.Frame
import AppSpec.Proofs.Reference.Resolution

/-!
Targets of mappings against the symbol tables that loading leaves. A target is a dotted path: the
name of a component or of an integration, behind it the keys that lead down its tree of members, and
before it perhaps the section to look in. A target that leads nowhere has one error, and the error
names the segment at which the path leaves what is declared.
-/

namespace AppSpec

/-! ### What loading leaves -/

namespace Symbols

variable {t : Symbols} {ns : Namespace} {name : String}

/-- The tables that come about by loading layers one after the other. -/
inductive Produced : Symbols → Prop
  | empty : Produced .empty
  | load {limit : Int} {layer : Layer} {v : Value} {t u : Symbols} {result : LayerResult} :
      Produced t → layer.load limit v t = .ok (result, u) → Produced u

theorem Produced.keeps {P : Symbols → Prop}
    (hP : ∀ spaces, SymbolTable.Invariant Definition.space spaces P) (hempty : P .empty)
    (h : Produced t) : P t := by
  induction h with
  | empty => exact hempty
  | load _ hload ih => exact Layer.keeps_load (hP _) ih hload

theorem Produced.exclusive (h : Produced t) : t.Exclusive :=
  h.keeps (fun _ => SymbolTable.invariant_exclusive) SymbolTable.exclusive_empty

theorem Produced.defined (h : Produced t) : t.Defined Definition.space :=
  h.keeps (fun _ => SymbolTable.invariant_defined) SymbolTable.defined_empty

/-- The name is declared as a component or as an integration with the tree of members. -/
inductive DeclaresTree (t : Symbols) (name : String) : Namespace → Entries → Prop
  | component {c : Component} : t.lookup? .component name = some (.component c) →
      DeclaresTree t name .component c.exposes
  | integration {i : Integration} : t.lookup? .integration name = some (.integration i) →
      DeclaresTree t name .integration i.operations

namespace DeclaresTree

variable {tree : Entries}

theorem has (h : t.DeclaresTree name ns tree) : t.has ns name = true := by
  cases h with
  | component h => exact SymbolTable.has_of_lookup? h
  | integration h => exact SymbolTable.has_of_lookup? h

theorem members (h : t.DeclaresTree name ns tree) : t.members ns name = .dict tree := by
  cases h with
  | component h => rw [Symbols.members, h]
  | integration h => rw [Symbols.members, h]

end DeclaresTree

theorem Produced.declaresTree (h : Produced t) (hns : ns = .component ∨ ns = .integration)
    (hhas : t.has ns name = true) : ∃ tree, t.DeclaresTree name ns tree := by
  have herror : ns ≠ .error := by
    rintro rfl
    simp at hns
  obtain ⟨definition, hlookup, hspace⟩ := h.defined.lookup? herror hhas
  rcases hns with rfl | rfl
  · cases definition with
    | component c => exact ⟨_, .component hlookup⟩
    | _ => cases hspace
  · cases definition with
    | integration i => exact ⟨_, .integration hlookup⟩
    | _ => cases hspace

end Symbols

theorem LoadedDocument.produced_loadLayers {limit : Int} {entries : Entries} {layers : List Layer}
    {d d' : LoadedDocument} (hd : d.symbols.Produced)
    (h : loadLayers limit entries layers d = .ok d') : d'.symbols.Produced := by
  induction layers generalizing d with
  | nil =>
      cases h
      exact hd
  | cons layer layers ih =>
      obtain ⟨⟨r, u⟩, hload, h⟩ := bind_eq_ok.mp h
      exact ih (.load hd hload) h

theorem LoadedDocument.produced_ofEntries {limit : Int} {entries : Entries} {d : LoadedDocument}
    (h : ofEntries limit entries = .ok d) : d.symbols.Produced :=
  produced_loadLayers .empty h

/-! ### Paths of keys -/

namespace Members

/-- The names are keys on a way down from the value, one below the other. -/
inductive KeyPath : Value → List String → Prop
  | nil (v : Value) : KeyPath v []
  | cons {entries : Entries} {name : String} {v : Value} {names : List String} :
      Entries.text? entries name = some v → KeyPath v names →
        KeyPath (.dict entries) (name :: names)

end Members

namespace Resolve

open Symbols Members

variable {t : Symbols}

theorem missing?_eq_none {v : Value} {names : List String} (walked : String) :
    missing? v walked names = none ↔ KeyPath v names := by
  induction names generalizing v walked with
  | nil => exact iff_of_true (by rw [missing?]) (.nil v)
  | cons name names ih =>
      cases v with
      | dict entries =>
          rw [missing?]
          cases hentry : Entries.text? entries name with
          | none =>
              refine iff_of_false nofun ?_
              rintro (_ | ⟨hname, -⟩)
              rw [hname] at hentry
              cases hentry
          | some v =>
              refine (ih _).trans ⟨.cons hentry, ?_⟩
              rintro (_ | ⟨hname, hrest⟩)
              cases hname.symm.trans hentry
              exact hrest
      | _ => exact iff_of_false nofun nofun

/-- Where a name is missing, the names before it lead somewhere, and it is no key there. -/
theorem missing?_eq_some {v : Value} {names candidates : List String} {head walked segment : String}
    (h : missing? v head names = some (walked, segment, candidates)) :
    ∃ before behind, names = before ++ segment :: behind ∧
      walked = ".".intercalate (head :: before) ∧ KeyPath v before ∧
      ¬ KeyPath v (before ++ [segment]) := by
  induction names generalizing v head with
  | nil =>
      rw [missing?] at h
      cases h
  | cons name names ih =>
      cases v with
      | dict entries =>
          rw [missing?] at h
          cases hentry : Entries.text? entries name with
          | none =>
              rw [hentry] at h
              cases h
              refine ⟨[], names, rfl, (String.intercalate_singleton).symm, .nil _, ?_⟩
              rintro (_ | ⟨hname, -⟩)
              rw [hname] at hentry
              cases hentry
          | some v =>
              rw [hentry] at h
              obtain ⟨before, behind, rfl, rfl, hpath, hmissing⟩ := ih h
              refine ⟨name :: before, behind, rfl, ?_, .cons hentry hpath, ?_⟩
              · rw [String.intercalate_cons_append, String.intercalate_cons_cons]
              · rintro (_ | ⟨hname, hrest⟩)
                cases hname.symm.trans hentry
                exact hmissing hrest
      | _ =>
          cases h
          exact ⟨[], names, rfl, (String.intercalate_singleton).symm, .nil _, nofun⟩

/-! ### Dotted names -/

theorem splitDots_of_not_mem {cs : List Char} (h : '.' ∉ cs) : splitDots cs = [cs] := by
  induction cs with
  | nil => rfl
  | cons c cs ih =>
      obtain ⟨hc, hcs⟩ := List.ne_and_not_mem_of_not_mem_cons h
      rw [splitDots, if_neg (Ne.symm hc), ih hcs]

theorem splitDots_append_dot {cs : List Char} (h : '.' ∉ cs) (ds : List Char) :
    splitDots (cs ++ '.' :: ds) = cs :: splitDots ds := by
  induction cs with
  | nil => rw [List.nil_append, splitDots, if_pos rfl]
  | cons c cs ih =>
      obtain ⟨hc, hcs⟩ := List.ne_and_not_mem_of_not_mem_cons h
      rw [List.cons_append, splitDots, if_neg (Ne.symm hc), ih hcs]

theorem splitDots_intercalate {segment : String} {rest : List String}
    (h : ∀ s ∈ segment :: rest, '.' ∉ s.toList) :
    splitDots (".".intercalate (segment :: rest)).toList = (segment :: rest).map String.toList := by
  induction rest generalizing segment with
  | nil =>
      rw [String.intercalate_singleton, splitDots_of_not_mem (h _ List.mem_cons_self)]
      rfl
  | cons next rest ih =>
      obtain ⟨hsegment, hrest⟩ := List.forall_mem_cons.mp h
      have hdot : (".".intercalate (segment :: next :: rest)).toList =
          segment.toList ++ '.' :: (".".intercalate (next :: rest)).toList := by
        rw [String.intercalate_cons_cons, String.toList_append, String.toList_append,
          List.append_assoc]
        rfl
      rw [hdot, splitDots_append_dot hsegment, ih hrest]
      rfl

/-- A name is taken apart into the segments it is put together from, unless one has a dot. -/
theorem segments_intercalate {segment : String} {rest : List String}
    (h : ∀ s ∈ segment :: rest, '.' ∉ s.toList) :
    segments (".".intercalate (segment :: rest)) = segment :: rest := by
  rw [segments, splitDots_intercalate h, List.map_map]
  simp

/-! ### Targets -/

/-- What may stand in front of a path, and the namespaces that are asked for with it. -/
def targetForms : List (String × List Namespace) :=
  [("", [.component, .integration]), ("components.", [.component]),
    ("integrations.", [.integration])]

/-- A path that could be mistaken for one with a section in front of it is none of these. -/
structure DottedPath (head : String) (rest : List String) : Prop where
  segments : ∀ segment ∈ head :: rest, '.' ∉ segment.toList
  plain : rest = [] ∨ head ∉ ["components", "integrations"]

variable {head form name : String} {rest : List String} {spaces : List Namespace} {ns : Namespace}

theorem layerSpace?_eq_none (h : head ∉ ["components", "integrations"]) :
    layerSpace? head = none := by
  obtain ⟨hcomponents, h⟩ := List.ne_and_not_mem_of_not_mem_cons h
  rw [layerSpace?, if_neg hcomponents, if_neg (List.ne_of_not_mem_cons h)]

theorem segments_section (h : DottedPath head rest) (hdot : '.' ∉ name.toList)
    (hform : form = name ++ ".") :
    segments (form ++ ".".intercalate (head :: rest)) = name :: head :: rest := by
  rw [hform, ← String.intercalate_cons_cons]
  exact segments_intercalate (List.forall_mem_cons.mpr ⟨hdot, h.segments⟩)

theorem startOf_form (h : DottedPath head rest) (hform : (form, spaces) ∈ targetForms) :
    startOf (form ++ ".".intercalate (head :: rest)) = (spaces, head :: rest) := by
  simp only [targetForms, List.mem_cons, Prod.mk.injEq, List.not_mem_nil, or_false] at hform
  rcases hform with ⟨rfl, rfl⟩ | ⟨rfl, rfl⟩ | ⟨rfl, rfl⟩
  · rw [String.empty_append, startOf, segments_intercalate h.segments]
    cases rest with
    | nil => rfl
    | cons next rest =>
        have hplain := h.plain.resolve_left (by nofun)
        dsimp only
        rw [layerSpace?_eq_none hplain]
  · have hcomponents : "components." = "components" ++ "." := by decide
    rw [startOf, segments_section h (by decide) hcomponents]
    rfl
  · have hintegrations : "integrations." = "integrations" ++ "." := by decide
    rw [startOf, segments_section h (by decide) hintegrations]
    rfl

/-- How a path may leave what is declared: at its head, or at the first segment that is no key of
what the segments before it lead to. -/
inductive TargetFault (t : Symbols) (target : String) (spaces : List Namespace) (head : String)
    (rest : List String) : DanglingCause → Prop
  | head : (∀ ns ∈ spaces, t.has ns head = false) →
      TargetFault t target spaces head rest (.undefinedHead target spaces head)
  | member {ns : Namespace} {tree : Entries} {before behind : List String} {segment : String} :
      ns ∈ spaces → t.DeclaresTree head ns tree → rest = before ++ segment :: behind →
      KeyPath (.dict tree) before → ¬ KeyPath (.dict tree) (before ++ [segment]) →
      TargetFault t target spaces head rest
        (.noMember target (".".intercalate (head :: before)) segment)

/-- The path leads from a declaration in one of the namespaces down its tree of members. -/
def Leads (t : Symbols) (spaces : List Namespace) (head : String) (rest : List String)
    (ns : Namespace) : Prop :=
  ns ∈ spaces ∧ ∃ tree, t.DeclaresTree head ns tree ∧ KeyPath (.dict tree) rest

theorem space_of_form (hform : (form, spaces) ∈ targetForms) (hns : ns ∈ spaces) :
    ns = .component ∨ ns = .integration := by
  simp only [targetForms, List.mem_cons, Prod.mk.injEq, List.not_mem_nil, or_false] at hform
  rcases hform with ⟨rfl, rfl⟩ | ⟨rfl, rfl⟩ | ⟨rfl, rfl⟩ <;> simp_all

theorem declaring?_of_form (ht : t.Produced) (hform : (form, spaces) ∈ targetForms) :
    declaring? t head spaces = some ns ↔ ns ∈ spaces ∧ t.has ns head = true := by
  constructor
  · intro h
    exact ⟨List.mem_of_find?_eq_some h, List.find?_some (p := fun ns => t.has ns head) h⟩
  · rintro ⟨hns, hhas⟩
    -- Either namespace may be asked for first; the name is in one of them alone.
    have hrival := ht.exclusive .component .integration head rfl
    cases hfound : declaring? t head spaces with
    | none => exact absurd hhas (List.find?_eq_none.mp hfound ns hns)
    | some other =>
        have hother : t.has other head = true :=
          List.find?_some (p := fun ns => t.has ns head) hfound
        have hspace := space_of_form hform (List.mem_of_find?_eq_some hfound)
        rcases space_of_form hform hns with rfl | rfl <;> rcases hspace with rfl | rfl <;>
          simp_all

theorem target_eq {r : DeferredReference} (h : startOf r.name = (spaces, head :: rest)) :
    target t r =
      match declaring? t head spaces with
      | none => .dangling none (.undefinedHead r.name spaces head) (hint t head spaces)
      | some ns =>
          match missing? (members t ns head) head rest with
          | none => .found ns
          | some (walked, segment, candidates) =>
              .dangling (some ns) (.noMember r.name walked segment)
                (didYouMean segment candidates) := by
  rw [target, h]
  rfl

theorem target_found_iff (ht : t.Produced) (hform : (form, spaces) ∈ targetForms)
    {r : DeferredReference} (h : startOf r.name = (spaces, head :: rest)) :
    (target t r).outcome = .resolved ns ↔ Leads t spaces head rest ns := by
  rw [target_eq h]
  cases hfound : declaring? t head spaces with
  | none =>
      refine iff_of_false nofun ?_
      rintro ⟨hns, tree, htree, -⟩
      rw [(declaring?_of_form ht hform).mpr ⟨hns, htree.has⟩] at hfound
      cases hfound
  | some other =>
      obtain ⟨hother, hhas⟩ := (declaring?_of_form ht hform).mp hfound
      obtain ⟨tree, htree⟩ := ht.declaresTree (space_of_form hform hother) hhas
      have hleads : Leads t spaces head rest ns ↔ other = ns ∧ KeyPath (.dict tree) rest := by
        constructor
        · rintro ⟨hns, tree', htree', hpath⟩
          rw [(declaring?_of_form ht hform).mpr ⟨hns, htree'.has⟩] at hfound
          cases hfound
          have heq := htree'.members.symm.trans htree.members
          exact ⟨rfl, Value.dict.inj heq ▸ hpath⟩
        · rintro ⟨rfl, hpath⟩
          exact ⟨hother, tree, htree, hpath⟩
      rw [hleads, ← missing?_eq_none head]
      dsimp only
      rw [htree.members]
      cases missing? (.dict tree) head rest with
      | none => simp [Resolution.outcome]
      | some missing => simp [Resolution.outcome]

theorem targetFault (ht : t.Produced) (hform : (form, spaces) ∈ targetForms)
    {r : DeferredReference} (h : startOf r.name = (spaces, head :: rest)) {space : Option Namespace}
    {cause : DanglingCause} {suggestion : Option String}
    (hdangling : target t r = .dangling space cause suggestion) :
    TargetFault t r.name spaces head rest cause := by
  rw [target_eq h] at hdangling
  cases hfound : declaring? t head spaces with
  | none =>
      rw [hfound] at hdangling
      cases hdangling
      exact .head fun ns hns => Bool.eq_false_iff.mpr (List.find?_eq_none.mp hfound ns hns)
  | some ns =>
      obtain ⟨hns, hhas⟩ := (declaring?_of_form ht hform).mp hfound
      obtain ⟨tree, htree⟩ := ht.declaresTree (space_of_form hform hns) hhas
      rw [hfound] at hdangling
      dsimp only at hdangling
      rw [htree.members] at hdangling
      cases hmissing : missing? (.dict tree) head rest with
      | none =>
          rw [hmissing] at hdangling
          cases hdangling
      | some missing =>
          obtain ⟨walked, segment, candidates⟩ := missing
          rw [hmissing] at hdangling
          cases hdangling
          obtain ⟨before, behind, hrest, rfl, hpath, hnone⟩ := missing?_eq_some hmissing
          exact .member hns htree hrest hpath hnone

end Resolve

open Resolve in
/-- A mapping target resolves just where its path leads through the members of a component or of
an integration it asks for, and to the namespace of that declaration. Where it does not resolve
there is one error for it, about the segment at which the path leaves what is declared. -/
theorem resolveAll_mappingTarget {t : Symbols} (ht : t.Produced) {head : String}
    {rest : List String} (hpath : DottedPath head rest) {form : String} {spaces : List Namespace}
    (hform : (form, spaces) ∈ targetForms) {r : DeferredReference} (hkind : r.kind = .mappingTarget)
    (hname : r.name = form ++ ".".intercalate (head :: rest))
    (before behind : List DeferredReference) :
    ∃ resolved, resolveAll t.freeze (before ++ r :: behind) = .ok resolved ∧
      Resolve.record t.freeze r ∈ resolved.records ∧
      (∀ ns, (Resolve.record t.freeze r).outcome = .resolved ns ↔ Leads t spaces head rest ns) ∧
      resolved.diagnostics.filter (·.category == .reference) =
        before.filterMap (diagnostic? t.freeze) ++ (diagnostic? t.freeze r).toList ++
          behind.filterMap (diagnostic? t.freeze) ∧
      ((∀ ns, ¬ Leads t spaces head rest ns) → ∃ cause hint,
        TargetFault t r.name spaces head rest cause ∧
          diagnostic? t.freeze r = some (.referenceError r.path cause.message hint)) ∧
      (∀ ns, Leads t spaces head rest ns → diagnostic? t.freeze r = none) := by
  have hone : one t.freeze r = target t r := by
    rw [one, hkind]
    rfl
  have hstart : startOf r.name = (spaces, head :: rest) := by rw [hname, startOf_form hpath hform]
  have hleads (ns : Namespace) :
      (one t.freeze r).outcome = .resolved ns ↔ Leads t spaces head rest ns := by
    rw [hone, target_found_iff ht hform hstart]
  have hfrozen : t.freeze.frozen = true := rfl
  refine ⟨_, resolveAll_frozen hfrozen _, ?_, hleads, ?_, ?_, ?_⟩
  · exact (List.mergeSort_perm _ _).mem_iff.mpr (List.mem_map_of_mem (by simp))
  · rw [filter_diagnostics, List.filterMap_append, List.filterMap_cons, List.append_assoc]
    cases diagnostic? t.freeze r <;> rfl
  · intro hnone
    cases hresolved : target t r with
    | found ns =>
        refine absurd ((hleads ns).mp ?_) (hnone ns)
        rw [hone, hresolved]
        rfl
    | dangling space cause hint =>
        refine ⟨cause, hint, targetFault ht hform hstart hresolved, ?_⟩
        rw [diagnostic?, hone, hresolved]
        rfl
  · intro ns hns
    rw [diagnostic?_isNone, ReferenceRecord.isDangling, record, (hleads ns).mpr hns]
    rfl

def cartLayer : Value :=
  .dict [(.str "cart", .dict [(.str "exposes", .dict [(.str "api", .list [.str "v1"])])])]

/-- What loading the one component leaves. -/
def cartSymbols : Symbols :=
  ⟨[⟨.component, "cart", "components.cart", some <| .component
    { id := "cart", kind := none, description := none, responsibilities := [], dependencies := [],
      resources := [], exposes := [(.str "api", .dict [(.str "v1", .null)])] }⟩], false⟩

theorem produced_cartSymbols : cartSymbols.Produced :=
  @Symbols.Produced.load 0 .components cartLayer .empty _ _ .empty rfl

theorem resolveAll_mappingTarget_cart :
    let r : DeferredReference :=
      ⟨"mapping.pay", "components.cart.api.v1", [.component, .integration], .mappingTarget⟩
    cartSymbols.Produced ∧ Resolve.DottedPath "cart" ["api", "v1"] ∧
      ("components.", [.component]) ∈ Resolve.targetForms ∧ r.kind = .mappingTarget ∧
      r.name = "components." ++ ".".intercalate ["cart", "api", "v1"] ∧
      ∃ resolved, resolveAll cartSymbols.freeze [r] = .ok resolved ∧
        (Resolve.record cartSymbols.freeze r).outcome = .resolved .component ∧
        resolved.diagnostics.filter (·.category == .reference) = [] := by
  intro r
  have hpath : Resolve.DottedPath "cart" ["api", "v1"] := ⟨by decide, .inr (by decide)⟩
  have hform : ("components.", [.component]) ∈ Resolve.targetForms := by decide
  have hname : r.name = "components." ++ ".".intercalate ["cart", "api", "v1"] := by decide
  obtain ⟨resolved, hresolved, -, houtcome, hdiagnostics, -, hnone⟩ :=
    resolveAll_mappingTarget produced_cartSymbols hpath hform rfl hname [] []
  have hleads : Resolve.Leads cartSymbols [.component] "cart" ["api", "v1"] .component :=
    ⟨by decide, _, .component rfl, .cons rfl (.cons rfl (.nil _))⟩
  refine ⟨produced_cartSymbols, hpath, hform, rfl, hname, resolved, hresolved, ?_, ?_⟩
  · exact (houtcome _).mpr hleads
  · rw [hdiagnostics, hnone _ hleads]
    rfl

end AppSpec
