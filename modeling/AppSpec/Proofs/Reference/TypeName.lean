import AppSpec.Proofs.Layer.InlineType
import AppSpec.Proofs.Reference.Resolution
import AppSpec.Proofs.SymbolTable.History

/-!
Whether an entity or a custom type can be used under the name that it was declared with. The table
turns down the names of primitive types, but not the words for composite ones, and these are read as
such wherever a type stands.
-/

namespace AppSpec

namespace TypeExpr

/-- What a name gives as a type, where it stands on its own. -/
def ofName (name : String) : Except TypeFaultKind TypeExpr :=
  match keyword? name with
  | some .object => .ok (.object [] [])
  | some _ => .error (.requiresArguments name)
  | none => .ok (if isPrimitive name then .primitive name.toLower [] else .custom name [])

theorem readForm_alone (item : TypeReader TypeExpr) {name : String} (hname : IsIdentifier name)
    (issues : List TypeIssue) :
    readForm item ⟨name.toList, issues⟩ =
      match ofName name with
      | .ok t => .ok (t, ⟨[], issues⟩)
      | .error kind => .error (.fault ⟨kind, 0⟩) := by
  have hsplit : TypeText.splitName (Text.skipBlanks (name.toList ++ [])) = (name.toList, []) :=
    hname.splitName_skipBlanks nofun
  rw [List.append_nil] at hsplit
  have hbracket (inner : List Char) : Text.skipBlanks [] ≠ '[' :: inner :=
    (List.cons_ne_nil '[' inner).symm
  rw [readForm_plain hname.ne_nil hsplit hbracket, String.ofList_toList, readAlone, ofName]
  cases keyword? name with
  | none => cases isPrimitive name <;> rfl
  | some composite => cases composite <;> rfl

theorem parse_name {name : String} (hname : IsIdentifier name) {limit : Int} (hlimit : 0 ≤ limit)
    (path : String) :
    parse name path limit =
      match ofName name with
      | .ok t => .ok ⟨some t, []⟩
      | .error kind => .ok (.ofFault path name name.toList.length ⟨kind, 0⟩) := by
  have hskip := hname.skipBlanks []
  rw [List.append_nil] at hskip
  have hlevels : (limit + 1).toNat = limit.toNat + 1 := by omega
  have hfull : name.toList.isEmpty = false := List.isEmpty_eq_false_iff.mpr hname.ne_nil
  have hread : readWhole limit name.toList =
      match ofName name with
      | .ok t => .ok (t, [])
      | .error kind => .error (.fault ⟨kind, 0⟩) := by
    rw [readWhole, hskip, hfull, if_neg Bool.false_ne_true, hlevels, readType,
      readForm_alone _ hname]
    cases ofName name with
    | error kind => rfl
    | ok t =>
        have hnil (c : Char) (rest : List Char) : Text.skipBlanks [] ≠ c :: rest :=
          (List.cons_ne_nil c rest).symm
        have hends := readSuffixes_done limit 0 limit.toNat t (hnil '?') (hnil '\x7b') []
        exact bind_eq_ok.mpr ⟨_, bind_eq_ok.mpr ⟨_, rfl, hends⟩, rfl⟩
  rw [parse, hread]
  cases ofName name <;> rfl

end TypeExpr

/-! ### Tables -/

namespace SymbolTable

variable {δ : Type} {t u : SymbolTable δ} {ns other : Namespace} {name path : String}
  {definition : δ} {d : Declaration δ}

/-- Declared in this namespace, and not in the one where it could be confused with another. -/
structure Distinguished (t : SymbolTable δ) (ns : Namespace) (d : Declaration δ) : Prop where
  found : t.find? ns d.name = some d
  apart : ∀ other, ns.rival? = some other → t.find? other d.name = none

theorem distinguished_define (h : t.define ns name definition path = .ok (none, u)) :
    Distinguished u ns ⟨ns, name, path, some definition⟩ := by
  obtain ⟨hnew, hrival, -⟩ := clash?_eq_none_iff.mp (clash?_of_define h)
  rw [define_accepted h]
  constructor
  · rw [find?_add, hnew, if_pos ⟨rfl, rfl⟩]
    rfl
  · intro other hother
    rw [hother] at hrival
    have hne : ns ≠ other := by
      rintro rfl
      cases ns <;> cases hother
    rw [find?_add, if_neg fun h => hne h.1, Option.or_none]
    exact hrival

theorem Distinguished.call (h : Distinguished t ns d) {c : Call δ} (hc : c.Unrivalled) :
    Distinguished (t.call c) ns d := by
  refine ⟨History.find?_of_prefix (History.prefix_call t c) h.found, fun other hother => ?_⟩
  have habsent := h.apart other hother
  rcases effect t c with ⟨-, -, -, hcall⟩ | ⟨-, hcall⟩ | ⟨-, -, -, hcall⟩ |
    @⟨e, -, -, -, hapart, -, hcall⟩ | ⟨-, -, hcall⟩
  · rwa [hcall]
  · rwa [hcall]
  · rwa [hcall]
  -- the rival name would clash with this one, and is not accepted
  · rw [hcall, find?_add, habsent, if_neg, Option.or_none]
    rintro ⟨hspace, hname⟩
    have hclash := (clash?_eq_none_iff.mp (hapart hc)).2.1
    rw [hspace, hname, Namespace.rival?_symm hother, Option.bind_some, h.found] at hclash
    cases hclash
  · rwa [hcall]

theorem Distinguished.calls (h : Distinguished t ns d) {calls : List (Call δ)}
    (hcalls : ∀ c ∈ calls, c.Unrivalled) : Distinguished (calls.foldl SymbolTable.call t) ns d := by
  induction calls generalizing t with
  | nil => exact h
  | cons c calls ih =>
      obtain ⟨hc, hcalls⟩ := List.forall_mem_cons.mp hcalls
      exact ih (h.call hc) hcalls

end SymbolTable

/-! ### Fields -/

namespace Load

/-- The reference that a field makes whose type is a name. -/
def typeReference (path name : String) : DeferredReference :=
  ⟨path, name, [.entity, .customType], .type⟩

theorem typeText_name {limit : Int} {name path : String}
    (h : TypeExpr.parse name path limit = .ok ⟨some (.custom name []), []⟩) :
    ∃ notes, typeText limit name path = .ok (some (.custom name []), notes) ∧
      notes.diagnostics = [] ∧ notes.references = [typeReference path name] := by
  refine ⟨{ references := [] ++ ([] ++ ([typeReference path name] ++ [])) }, ?_, rfl, rfl⟩
  rw [typeText, h]
  rfl

theorem loadField_name {limit : Int} {key : Scalar} {name path : String}
    (h : TypeExpr.parse name (Path.child path key.text) limit =
      .ok ⟨some (.custom name []), []⟩) :
    ∃ notes, Domain.loadField limit path (key, .str name) =
        .ok ((key.text, ⟨key.text, some (.custom name []), some name⟩), notes) ∧
      notes.diagnostics = [] ∧
      notes.references = [typeReference (Path.child path key.text) name] := by
  obtain ⟨notes, hnotes, hclean, hreferences⟩ := typeText_name h
  have htype : typeOf limit (.str name) (Path.child path key.text) =
      .ok ((some (.custom name []), some name), notes ++ {}) := bind_ok hnotes rfl
  refine ⟨notes ++ {} ++ {}, bind_ok htype rfl, ?_, ?_⟩
  · show notes.diagnostics ++ [] ++ [] = []
    rw [hclean]
    rfl
  · show notes.references ++ [] ++ [] = _
    rw [hreferences]
    rfl

end Load

namespace Resolve

variable {t u : Symbols} {ns : Namespace} {name path : String} {definition : Definition}

theorem record_typeReference {d : Declaration Definition} (h : t.Distinguished ns d)
    (hspace : ns.isTypeSpace = true) (place : String) :
    (record t (Load.typeReference place d.name)).outcome = .resolved ns := by
  have hhas : t.has ns d.name = true := Option.isSome_of_eq_some h.found
  show (byName t (Load.typeReference place d.name)).outcome = .resolved ns
  rw [outcome_byName_resolved]
  simp only [FirstDeclaring, SymbolTable.mem_names]
  cases ns with
  | entity => exact ⟨[], [.customType], rfl, hhas, List.forall_mem_nil _⟩
  | customType =>
      have hentity : ¬ t.has .entity d.name = true := by
        rw [SymbolTable.has, h.apart .entity rfl]
        exact Bool.false_ne_true
      exact ⟨[.entity], [], rfl, hhas, List.forall_mem_singleton.mpr hentity⟩
  | _ => cases hspace

/-- Under the name of an entity or a custom type a field is of that type and refers to its
declaration, in the table that accepts the name and in all that follow. This holds but for the words
for composite types, which the table accepts as well: one of them is the type of any object, and the
others are an error. -/
theorem reads_declared_name (hspace : ns.isTypeSpace = true) (hname : TypeExpr.IsIdentifier name)
    (hdefine : t.define ns name definition path = .ok (none, u)) {limit : Int} (hlimit : 0 ≤ limit)
    (place : String) :
    (TypeExpr.parse name place limit = .ok ⟨some (.custom name []), []⟩ ↔
        TypeExpr.keyword? name = none) ∧
      (TypeExpr.keyword? name = some .object →
        TypeExpr.parse name place limit = .ok ⟨some (.object [] []), []⟩) ∧
      (∀ composite, TypeExpr.keyword? name = some composite → composite ≠ .object →
        TypeExpr.parse name place limit =
          .ok (.ofFault place name name.toList.length ⟨.requiresArguments name, 0⟩)) ∧
      (TypeExpr.keyword? name = none → ∀ key : Scalar, ∃ notes,
        Domain.loadField limit place (key, .str name) =
            .ok ((key.text, ⟨key.text, some (.custom name []), some name⟩), notes) ∧
          notes.diagnostics = [] ∧
          notes.references = [Load.typeReference (Path.child place key.text) name] ∧
          ∀ more : List (SymbolTable.Call Definition), (∀ c ∈ more, c.Unrivalled) →
            let later := more.foldl SymbolTable.call u
            later.lookup? ns name = some definition ∧
              ∀ r ∈ notes.references, (record later r).outcome = .resolved ns) := by
  have hprimitive : TypeExpr.isPrimitive name = false := by
    have hclash := (SymbolTable.clash?_eq_none_iff.mp (SymbolTable.clash?_of_define hdefine)).2.2
    rwa [hspace, Bool.true_and] at hclash
  have hparse (place : String) := TypeExpr.parse_name hname hlimit place
  have hcustom (hkeyword : TypeExpr.keyword? name = none) (place : String) :
      TypeExpr.parse name place limit = .ok ⟨some (.custom name []), []⟩ := by
    rw [hparse, TypeExpr.ofName, hkeyword, hprimitive]
    rfl
  have hobject (hkeyword : TypeExpr.keyword? name = some .object) :
      TypeExpr.parse name place limit = .ok ⟨some (.object [] []), []⟩ := by
    rw [hparse, TypeExpr.ofName, hkeyword]
  have hother (composite : Composite) (hkeyword : TypeExpr.keyword? name = some composite)
      (hne : composite ≠ .object) :
      TypeExpr.parse name place limit =
        .ok (.ofFault place name name.toList.length ⟨.requiresArguments name, 0⟩) := by
    rw [hparse, TypeExpr.ofName, hkeyword]
    cases composite <;> first | rfl | exact absurd rfl hne
  refine ⟨⟨fun hread => ?_, fun hkeyword => hcustom hkeyword place⟩, hobject, hother,
    fun hkeyword key => ?_⟩
  · cases hkeyword : TypeExpr.keyword? name with
    | none => rfl
    | some composite =>
        by_cases hcomposite : composite = .object
        · rw [hobject (hcomposite ▸ hkeyword)] at hread
          cases hread
        · rw [hother composite hkeyword hcomposite] at hread
          cases hread
  · obtain ⟨notes, hload, hclean, hreferences⟩ :=
      @Load.loadField_name limit key name place (hcustom hkeyword _)
    refine ⟨notes, hload, hclean, hreferences, fun more hmore => ?_⟩
    have hlater := (SymbolTable.distinguished_define hdefine).calls hmore
    refine ⟨?_, hreferences ▸ List.forall_mem_singleton.mpr (record_typeReference hlater hspace _)⟩
    rw [SymbolTable.lookup?, hlater.found]
    rfl

theorem reads_declared_name_account :
    let account : Definition := .entity ⟨"Account", none, [], []⟩
    let calls : List (SymbolTable.Call Definition) :=
      [.declareByUse .error "Account" "logic.Pay.errors[0]",
        .define .customType "Account" account "domain.types.Account", .freeze]
    ∃ u : Symbols, SymbolTable.empty.define .entity "Account" account "domain.Account" =
        .ok (none, u) ∧
      Namespace.entity.isTypeSpace = true ∧ TypeExpr.IsIdentifier "Account" ∧ (0 : Int) ≤ 1 ∧
      (∀ c ∈ calls, c.Unrivalled) ∧ (calls.foldl SymbolTable.call u).frozen = true ∧
      TypeExpr.parse "Account" "domain.Order.owner" 1 = .ok ⟨some (.custom "Account" []), []⟩ ∧
      ∃ notes, Domain.loadField 1 "domain.Order" (.str "owner", .str "Account") =
          .ok (("owner", ⟨"owner", some (.custom "Account" []), some "Account"⟩), notes) ∧
        ∀ r ∈ notes.references,
          (record (calls.foldl SymbolTable.call u) r).outcome = .resolved .entity := by
  intro account calls
  have hname : TypeExpr.IsIdentifier "Account" := by decide
  have hcalls : ∀ c ∈ calls, c.Unrivalled := List.forall_mem_cons.mpr ⟨rfl,
    List.forall_mem_cons.mpr ⟨trivial, List.forall_mem_singleton.mpr trivial⟩⟩
  have hlimit : (0 : Int) ≤ 1 := by decide
  have hkeyword : TypeExpr.keyword? "Account" = none := by decide +kernel
  have hdefine : SymbolTable.empty.define .entity "Account" account "domain.Account" =
      .ok (none, ⟨[⟨.entity, "Account", "domain.Account", some account⟩], false⟩) := by
    have hclash : (SymbolTable.empty : Symbols).clash? .entity "Account" = none := by decide +kernel
    rw [SymbolTable.define, hclash]
    rfl
  obtain ⟨notes, hload, -, -, hlater⟩ :=
    (reads_declared_name rfl hname hdefine hlimit "domain.Order").2.2.2 hkeyword (.str "owner")
  refine ⟨_, hdefine, rfl, hname, hlimit, hcalls, ?_, ?_, notes, hload, (hlater calls hcalls).2⟩
  · decide +kernel
  · exact (reads_declared_name rfl hname hdefine hlimit "domain.Order.owner").1.mpr hkeyword

/-- An entity may be called `Object`, but a field of that type takes any object. -/
theorem reads_declared_name_object :
    let entity : Definition := .entity ⟨"Object", none, [], []⟩
    TypeExpr.IsIdentifier "Object" ∧
      (∃ u : Symbols, SymbolTable.empty.define .entity "Object" entity "domain.Object" =
        .ok (none, u)) ∧
      TypeExpr.parse "Object" "domain.Order.item" ≠ .ok ⟨some (.custom "Object" []), []⟩ := by
  intro entity
  have hclash : (SymbolTable.empty : Symbols).clash? .entity "Object" = none := by decide +kernel
  have hread : TypeExpr.parse "Object" "domain.Order.item" = .ok ⟨some (.object [] []), []⟩ := by
    cbv
  refine ⟨by decide, ?_, ?_⟩
  · simp only [SymbolTable.define, hclash]
    exact ⟨_, rfl⟩
  · rw [hread]
    intro heq
    cases heq

end Resolve

end AppSpec
