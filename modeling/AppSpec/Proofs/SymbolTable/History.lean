import AppSpec.Proofs.SymbolTable.Alike

/-!
Symbol tables after any number of calls, the refused and the failing ones among them. The answers
alone tell which declarations were accepted, and the table holds just these: each name once, in the
order of acceptance, and apart from what it could be confused with.
-/

namespace AppSpec.SymbolTable

variable {δ : Type}

inductive Call (δ : Type) where
  | define (ns : Namespace) (name : String) (definition : δ) (path : String)
  | declareByUse (ns : Namespace) (name path : String)
  | freeze

namespace Call

def run (t : SymbolTable δ) : Call δ → Except Failure (Option Diagnostic × SymbolTable δ)
  | define ns name definition path => t.define ns name definition path
  | declareByUse ns name path => (t.declareByUse ns name path).map (none, ·)
  | freeze => .ok (none, t.freeze)

def answer (t : SymbolTable δ) (c : Call δ) : Except Failure (Option Diagnostic) :=
  (c.run t).map (·.1)

/-- What a call declares where it is accepted. -/
def declaration? : Call δ → Option (Declaration δ)
  | define ns name definition path => some ⟨ns, name, path, some definition⟩
  | declareByUse ns name path => some ⟨ns, name, path, none⟩
  | freeze => none

def isWrite (c : Call δ) : Bool := c.declaration?.isSome

/-- Names come into use only where no other namespace has to be kept apart. -/
def Unrivalled : Call δ → Prop
  | declareByUse ns _ _ => ns.rival? = none
  | _ => True

instance (c : Call δ) : Decidable c.Unrivalled := by
  cases c <;> unfold Unrivalled <;> infer_instance

end Call

/-- The table that a call leaves; one that fails leaves it as it is. -/
def call (t : SymbolTable δ) (c : Call δ) : SymbolTable δ :=
  match c.run t with
  | .ok (_, t') => t'
  | .error _ => t

/-- All that a call may do. -/
inductive Effect (t : SymbolTable δ) (c : Call δ) : Prop
  | refused (hfrozen : t.frozen = true) (hwrite : c.isWrite = true)
      (hanswer : c.answer t = .error .frozenTable) (h : t.call c = t)
  | rejected {d : Diagnostic} (hanswer : c.answer t = .ok (some d)) (h : t.call c = t)
  | repeated {ns : Namespace} {name path : String} (hc : c = .declareByUse ns name path)
      (hhas : t.has ns name = true) (hanswer : c.answer t = .ok none) (h : t.call c = t)
  | added {d : Declaration δ} (hc : c.declaration? = some d) (hopen : t.frozen = false)
      (hfree : t.find? d.space d.name = none)
      (hapart : c.Unrivalled → t.clash? d.space d.name = none)
      (hanswer : c.answer t = .ok none) (h : t.call c = ⟨t.declarations ++ [d], t.frozen⟩)
  | frozen (hc : c = .freeze) (hanswer : c.answer t = .ok none) (h : t.call c = t.freeze)

theorem clash?_eq_none_iff {t : SymbolTable δ} {ns : Namespace} {name : String} :
    t.clash? ns name = none ↔
      t.find? ns name = none ∧ (ns.rival?.bind fun other => t.find? other name) = none ∧
        (ns.isTypeSpace && TypeExpr.isPrimitive name) = false := by
  rw [clash?]
  cases t.find? ns name with
  | some d =>
      refine iff_of_false (fun h => ?_) fun h => ?_
      · cases h
      · cases h.1
  | none =>
      cases ns.rival?.bind fun other => t.find? other name with
      | some d =>
          refine iff_of_false (fun h => ?_) fun h => ?_
          · cases h
          · cases h.2.1
      | none => cases ns.isTypeSpace && TypeExpr.isPrimitive name <;> simp

theorem effect_define (t : SymbolTable δ) (ns : Namespace) (name : String) (definition : δ)
    (path : String) : Effect t (.define ns name definition path) := by
  by_cases hfrozen : t.frozen = true
  · have hrun : t.define ns name definition path = .error .frozenTable := by
      rw [define, if_pos hfrozen]
    exact .refused hfrozen rfl (by simp only [Call.answer, Call.run, hrun]; rfl)
      (by simp only [call, Call.run, hrun])
  · cases hclash : t.clash? ns name with
    | some c =>
        have hrun : t.define ns name definition path = .ok (some (c.diagnostic ns name path), t) := by
          rw [define, if_neg hfrozen, hclash]
        exact .rejected (by simp only [Call.answer, Call.run, hrun]; rfl)
          (by simp only [call, Call.run, hrun])
    | none =>
        have hrun : t.define ns name definition path =
            .ok (none, ⟨t.declarations ++ [⟨ns, name, path, some definition⟩], t.frozen⟩) := by
          rw [define, if_neg hfrozen, hclash]
        exact .added rfl (by simpa using hfrozen) (clash?_eq_none_iff.mp hclash).1 (fun _ => hclash)
          (by simp only [Call.answer, Call.run, hrun]; rfl) (by simp only [call, Call.run, hrun])

theorem effect_declareByUse (t : SymbolTable δ) (ns : Namespace) (name path : String) :
    Effect t (.declareByUse ns name path) := by
  by_cases hfrozen : t.frozen = true
  · have hrun : t.declareByUse ns name path = .error .frozenTable := by
      rw [declareByUse, if_pos hfrozen]
    exact .refused hfrozen rfl (by simp only [Call.answer, Call.run, hrun]; rfl)
      (by simp only [call, Call.run, hrun]; rfl)
  · cases hhas : t.has ns name with
    | true =>
        have hrun : t.declareByUse ns name path = .ok t := by
          rw [declareByUse, if_neg hfrozen, if_pos hhas]
        exact .repeated rfl hhas (by simp only [Call.answer, Call.run, hrun]; rfl)
          (by simp only [call, Call.run, hrun]; rfl)
    | false =>
        have hrun : t.declareByUse ns name path =
            .ok ⟨t.declarations ++ [⟨ns, name, path, none⟩], t.frozen⟩ := by
          rw [declareByUse, if_neg hfrozen, if_neg (by simp [hhas])]
        have hfree : t.find? ns name = none := by simpa [has] using hhas
        refine .added rfl (by simpa using hfrozen) hfree (fun hrival => ?_)
          (by simp only [Call.answer, Call.run, hrun]; rfl) (by simp only [call, Call.run, hrun]; rfl)
        have hrival : ns.rival? = none := hrival
        have hspace : ns.isTypeSpace = false := by cases ns <;> first | rfl | cases hrival
        exact clash?_eq_none_iff.mpr ⟨hfree, by simp [hrival], by simp [hspace]⟩

theorem effect (t : SymbolTable δ) (c : Call δ) : Effect t c := by
  cases c with
  | define ns name definition path => exact effect_define t ns name definition path
  | declareByUse ns name path => exact effect_declareByUse t ns name path
  | freeze => exact .frozen rfl rfl rfl

/-! ### What a table keeps to -/

def key (d : Declaration δ) : Namespace × String := (d.space, d.name)

structure Coherent (t : SymbolTable δ) : Prop where
  apart : ∀ {ns other name}, ns.rival? = some other → t.has ns name = true → t.has other name = false
  notPrimitive : ∀ {ns name}, ns.isTypeSpace = true → t.has ns name = true →
    TypeExpr.isPrimitive name = false
  once : (t.declarations.map key).Nodup

theorem find?_eq_none_iff {t : SymbolTable δ} {ns : Namespace} {name : String} :
    t.find? ns name = none ↔ (ns, name) ∉ t.declarations.map key := by
  rw [find?, List.find?_eq_none]
  simp [key, Prod.ext_iff]

theorem coherent_empty : Coherent (empty : SymbolTable δ) := ⟨nofun, nofun, List.nodup_nil⟩

theorem Coherent.add {t : SymbolTable δ} (h : t.Coherent) {d : Declaration δ}
    (hfree : t.clash? d.space d.name = none) : Coherent ⟨t.declarations ++ [d], t.frozen⟩ := by
  obtain ⟨hnew, hrival, hprimitive⟩ := clash?_eq_none_iff.mp hfree
  have hhas (ns : Namespace) (name : String) :
      has ⟨t.declarations ++ [d], t.frozen⟩ ns name = true ↔
        t.has ns name = true ∨ d.space = ns ∧ d.name = name := by
    rw [has_append, Bool.or_eq_true, Bool.and_eq_true, beq_iff_eq, beq_iff_eq]
  have hother {ns : Namespace} (hns : d.space.rival? = some ns) : t.has ns d.name = false := by
    rw [hns] at hrival
    simpa [has] using hrival
  constructor
  · intro ns other name hns hfound
    by_contra hboth
    rw [Bool.not_eq_false, hhas] at hboth
    rcases (hhas ns name).mp hfound with hfound | ⟨rfl, rfl⟩
    · rcases hboth with hboth | ⟨rfl, rfl⟩
      · rw [h.apart hns hfound] at hboth
        cases hboth
      · rw [hother (Namespace.rival?_symm hns)] at hfound
        cases hfound
    · rcases hboth with hboth | ⟨hspace, -⟩
      · rw [hother hns] at hboth
        cases hboth
      · rw [← hspace] at hns
        generalize d.space = space at hns
        cases space <;> cases hns
  · intro ns name hns hfound
    rcases (hhas ns name).mp hfound with hfound | ⟨rfl, rfl⟩
    · exact h.notPrimitive hns hfound
    · rw [hns, Bool.true_and] at hprimitive
      exact hprimitive
  · rw [List.map_append, List.map_singleton]
    refine List.Nodup.append h.once (List.nodup_singleton _) ?_
    rw [List.disjoint_singleton]
    exact find?_eq_none_iff.mp hnew

theorem Coherent.call {t : SymbolTable δ} (h : t.Coherent) {c : Call δ} (hc : c.Unrivalled) :
    (t.call c).Coherent := by
  rcases effect t c with
    ⟨-, -, -, hcall⟩ | ⟨-, hcall⟩ | ⟨-, -, -, hcall⟩ | ⟨-, -, -, hapart, -, hcall⟩ | ⟨-, -, hcall⟩
  · rwa [hcall]
  · rwa [hcall]
  · rwa [hcall]
  · rw [hcall]
    exact h.add (hapart hc)
  · rw [hcall]
    exact ⟨h.apart, h.notPrimitive, h.once⟩

/-! ### Histories -/

structure Event (δ : Type) where
  call : Call δ
  answer : Except Failure (Option Diagnostic)

/-- What a call has declared, if its answer accepts it. -/
def Event.accepted? (e : Event δ) : Option (Declaration δ) :=
  match e.answer with
  | .ok none => e.call.declaration?
  | _ => none

/-- A name that comes into use again is not declared again. -/
def note (ds : List (Declaration δ)) (e : Event δ) : List (Declaration δ) :=
  match e.accepted? with
  | none => ds
  | some d => if d.definition.isNone && ds.any (fun d' => key d' == key d) then ds else ds ++ [d]

def accepted (events : List (Event δ)) : List (Declaration δ) := events.foldl note []

/-- The calls so far with their answers, and the table they leave. -/
structure History (δ : Type) where
  events : List (Event δ)
  table : SymbolTable δ

namespace History

def start : History δ := ⟨[], empty⟩

def step (h : History δ) (c : Call δ) : History δ :=
  ⟨h.events ++ [⟨c, c.answer h.table⟩], h.table.call c⟩

def ofCalls (calls : List (Call δ)) : History δ := calls.foldl step start

theorem ofCalls_append (calls more : List (Call δ)) :
    ofCalls (calls ++ more) = more.foldl step (ofCalls calls) :=
  List.foldl_append

theorem table_singleton (calls : List (Call δ)) (c : Call δ) :
    (ofCalls (calls ++ [c])).table = (ofCalls calls).table.call c := by
  rw [ofCalls_append]
  rfl

/-- The table holds what the answers accept. -/
structure Kept (h : History δ) : Prop where
  coherent : h.table.Coherent
  declarations : h.table.declarations = accepted h.events

theorem accepted_step (h : History δ) (c : Call δ) :
    accepted (h.step c).events = note (accepted h.events) ⟨c, c.answer h.table⟩ := by
  rw [accepted, step, List.foldl_append]
  rfl

theorem any_key {t : SymbolTable δ} {d : Declaration δ} :
    (t.declarations.any fun d' => key d' == key d) = t.has d.space d.name := by
  rw [has, find?, Bool.eq_iff_iff, List.any_eq_true, List.find?_isSome]
  simp [key, Prod.ext_iff]

theorem Kept.step {h : History δ} (hkept : h.Kept) {c : Call δ} (hc : c.Unrivalled) :
    (h.step c).Kept := by
  refine ⟨hkept.coherent.call hc, ?_⟩
  rw [accepted_step, ← hkept.declarations]
  change (h.table.call c).declarations = _
  rcases effect h.table c with ⟨-, -, hanswer, hcall⟩ | ⟨hanswer, hcall⟩ |
    ⟨hdeclare, hhas, hanswer, hcall⟩ | ⟨hdeclare, -, hfree, -, hanswer, hcall⟩ |
    ⟨hfreeze, hanswer, hcall⟩
  · rw [hcall, note, Event.accepted?, hanswer]
  · rw [hcall, note, Event.accepted?, hanswer]
  · subst hdeclare
    rw [hcall, note, Event.accepted?, hanswer]
    simp only [Call.declaration?, any_key, hhas, Option.isNone_none, Bool.and_self, if_true]
  · simp only [hcall, note, Event.accepted?, hanswer, hdeclare, any_key, has, hfree,
      Option.isSome_none, Bool.and_false, Bool.false_eq_true, if_false]
  · subst hfreeze
    rw [hcall, note, Event.accepted?, hanswer]
    rfl

theorem kept_foldl {h : History δ} (hkept : h.Kept) {calls : List (Call δ)}
    (hcalls : ∀ c ∈ calls, c.Unrivalled) : (calls.foldl step h).Kept := by
  induction calls generalizing h with
  | nil => exact hkept
  | cons c calls ih =>
      obtain ⟨hc, hcalls⟩ := List.forall_mem_cons.mp hcalls
      exact ih (hkept.step hc) hcalls

theorem kept_ofCalls {calls : List (Call δ)} (hcalls : ∀ c ∈ calls, c.Unrivalled) :
    (ofCalls calls).Kept :=
  kept_foldl ⟨coherent_empty, rfl⟩ hcalls

/-! ### Later calls -/

theorem prefix_call (t : SymbolTable δ) (c : Call δ) :
    t.declarations <+: (t.call c).declarations := by
  rcases effect t c with
    ⟨-, -, -, hcall⟩ | ⟨-, hcall⟩ | ⟨-, -, -, hcall⟩ | ⟨-, -, -, -, -, hcall⟩ | ⟨-, -, hcall⟩
  all_goals rw [hcall]
  · exact List.prefix_append _ _
  · exact List.prefix_refl _

theorem prefix_foldl (h : History δ) (calls : List (Call δ)) :
    h.table.declarations <+: (calls.foldl step h).table.declarations := by
  induction calls generalizing h with
  | nil => exact List.prefix_refl _
  | cons c calls ih => exact (prefix_call h.table c).trans (ih (h.step c))

theorem find?_of_prefix {t u : SymbolTable δ} (h : t.declarations <+: u.declarations)
    {ns : Namespace} {name : String} {d : Declaration δ} (hd : t.find? ns name = some d) :
    u.find? ns name = some d := by
  obtain ⟨more, hmore⟩ := h
  rw [find?] at hd
  rw [find?, ← hmore, List.find?_append, hd]
  rfl

theorem frozen_call (t : SymbolTable δ) (c : Call δ) :
    (t.call c).frozen = true ↔ t.frozen = true ∨ c = .freeze := by
  rcases effect t c with ⟨hfrozen, hwrite, -, hcall⟩ | ⟨hanswer, hcall⟩ | ⟨hc, -, -, hcall⟩ |
    ⟨hc, -, -, -, -, hcall⟩ | ⟨hc, -, hcall⟩
  all_goals rw [hcall]
  · simp [hfrozen]
  · have hne : c ≠ .freeze := by
      rintro rfl
      cases hanswer
    simp [hne]
  · simp [hc]
  · have hne : c ≠ .freeze := by
      rintro rfl
      cases hc
    simp [hne]
  · simp [hc, freeze]

theorem frozen_foldl (h : History δ) (calls : List (Call δ)) :
    (calls.foldl step h).table.frozen = true ↔ h.table.frozen = true ∨ .freeze ∈ calls := by
  induction calls generalizing h with
  | nil => simp
  | cons c calls ih =>
      rw [List.foldl_cons, ih, step, frozen_call, List.mem_cons, or_assoc, @eq_comm _ c]

theorem call_of_frozen {t : SymbolTable δ} (hfrozen : t.frozen = true) {c : Call δ}
    (hwrite : c.isWrite = true) : c.answer t = .error .frozenTable ∧ t.call c = t := by
  cases c with
  | define ns name definition path => simp [Call.answer, call, Call.run, define, hfrozen, Except.map]
  | declareByUse ns name path => simp [Call.answer, call, Call.run, declareByUse, hfrozen, Except.map]
  | freeze => cases hwrite

theorem call_of_rejected {t : SymbolTable δ} {c : Call δ} {d : Diagnostic}
    (hanswer : c.answer t = .ok (some d)) : t.call c = t := by
  rcases effect t c with
    ⟨-, -, -, hcall⟩ | ⟨-, hcall⟩ | ⟨-, -, -, hcall⟩ | ⟨-, -, -, -, hnone, -⟩ | ⟨-, hnone, -⟩
  · exact hcall
  · exact hcall
  · exact hcall
  · rw [hnone] at hanswer
    cases hanswer
  · rw [hnone] at hanswer
    cases hanswer

/-- After any calls the table holds the accepted declarations, in their order and for ever; names
that could be confused are apart, and what is turned down leaves no trace. -/
theorem table_ofCalls (calls : List (Call δ)) (hcalls : ∀ c ∈ calls, c.Unrivalled) :
    let t := (ofCalls calls).table
    let log := accepted (ofCalls calls).events
    (∀ name, ¬ (t.has .entity name = true ∧ t.has .customType name = true)) ∧
      (∀ name, ¬ (t.has .component name = true ∧ t.has .integration name = true)) ∧
      (∀ name, t.has .entity name = true ∨ t.has .customType name = true →
        name.toLower ∉ TypeExpr.primitives) ∧
      (log.map fun d => (d.space, d.name)).Nodup ∧
      (∀ ns name, t.find? ns name = log.find? fun d => d.space == ns && d.name == name) ∧
      (∀ ns, t.names ns = (log.filter fun d => d.space == ns).map (·.name)) ∧
      t.size = log.length ∧
      (∀ more ns name d, t.find? ns name = some d →
        (ofCalls (calls ++ more)).table.find? ns name = some d) ∧
      (∀ c d, c.answer t = .ok (some d) → (ofCalls (calls ++ [c])).table = t) ∧
      (∀ c, .freeze ∈ calls → c.isWrite = true →
        c.answer t = .error .frozenTable ∧ (ofCalls (calls ++ [c])).table = t) := by
  intro t log
  obtain ⟨hcoherent, hlog⟩ := kept_ofCalls hcalls
  have honce : (log.map key).Nodup := by
    have h := hcoherent.once
    rwa [hlog] at h
  refine ⟨?_, ?_, ?_, honce, ?_, ?_, ?_, ?_, ?_, ?_⟩
  · rintro name ⟨hentity, htype⟩
    rw [hcoherent.apart rfl hentity] at htype
    cases htype
  · rintro name ⟨hcomponent, hintegration⟩
    rw [hcoherent.apart rfl hcomponent] at hintegration
    cases hintegration
  · intro name hname hprimitive
    have hfalse : TypeExpr.isPrimitive name = false :=
      hname.elim (hcoherent.notPrimitive rfl) (hcoherent.notPrimitive rfl)
    rw [TypeExpr.isPrimitive, List.contains_iff_mem.mpr hprimitive] at hfalse
    cases hfalse
  · intro ns name
    rw [find?, hlog]
  · intro ns
    rw [names, hlog]
  · rw [size, hlog]
  · intro more ns name d hd
    rw [ofCalls_append]
    exact find?_of_prefix (prefix_foldl _ more) hd
  · intro c d hanswer
    rw [table_singleton]
    exact call_of_rejected hanswer
  · intro c hfreeze hwrite
    have hfrozen : t.frozen = true := (frozen_foldl start calls).mpr (.inr hfreeze)
    rw [table_singleton]
    exact call_of_frozen hfrozen hwrite

def orderCalls : List (Call String) :=
  [.define .entity "Order" "order" "domain.Order", .define .customType "Order" "type" "domain[1]",
    .define .entity "Email" "email" "domain.Email", .declareByUse .error "Late" "logic.Pay.errors[0]",
    .declareByUse .error "Late" "logic.Ship.errors[0]", .freeze,
    .define .page "Orders" "page" "ui.Orders"]

theorem table_ofCalls_orders :
    (∀ c ∈ orderCalls, c.Unrivalled) ∧
      (ofCalls orderCalls).table.names .error = ["Late"] ∧
      (ofCalls orderCalls).table.size = 2 ∧
      (∀ c : Call String, c.isWrite = true →
        c.answer (ofCalls orderCalls).table = .error .frozenTable) := by
  have hcalls : ∀ c ∈ orderCalls, c.Unrivalled := by decide
  obtain ⟨-, -, -, -, -, hnames, hsize, -, -, hfrozen⟩ := table_ofCalls orderCalls hcalls
  refine ⟨hcalls, (hnames .error).trans ?_, hsize.trans ?_, fun c hwrite => ?_⟩
  · decide +kernel
  · decide +kernel
  · exact (hfrozen c (by simp [orderCalls]) hwrite).1

end History

end AppSpec.SymbolTable
