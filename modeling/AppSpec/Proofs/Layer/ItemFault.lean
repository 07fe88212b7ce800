import AppSpec.Proofs.TypeExpr.Message
import AppSpec.SymbolTable

/-!
The diagnostics of single items. How its message opens tells the severity and the suggestion of a
diagnostic; where a type is at fault its text tells them, and the column as well. So two diagnostics
of items that agree in category, path and message are the same.
-/

namespace AppSpec

/-- How the messages of one kind open, and what comes with them. -/
structure Opening where
  category : Category
  text : String
  severity : Severity := .error
  suggestion : Option String := none
  deriving DecidableEq

namespace Opening

def typeFault : Opening := ⟨.syntaxError, "invalid type expression '", .error, none⟩

def typeIssue : Opening := ⟨.schema, "type expression '", .error, none⟩

def ofClash (text : String) (c : SymbolTable.Clash) : Opening :=
  ⟨.consistency, text, .error, some c.suggestion⟩

def malformed : List String :=
  ["entity '", "component '", "role '", "operation '", "page '", "parameters must be ",
    "list items must be ", "expected a mapping or a list, got "]

def misshapen : List String :=
  ["'", "expected a text value, got ", "expected a name", "validation must be "]

def doubtful : List String := ["entity '", "malformed validation "]

def untyped : Opening :=
  ⟨.schema, "expected a type string, got ", .error,
    some "Write the type as a string, e.g. 'string' or 'optional[reference[User]]'"⟩

def repeated : Opening := ⟨.consistency, "duplicate parameter '", .error, none⟩

def duplicated (ns : Namespace) : Opening :=
  ofClash ("duplicate " ++ ns.noun ++ " '") (.duplicate "")

def shared : Opening := ofClash "'" (.rival .entity "")

def builtIn (ns : Namespace) : Opening := ofClash (ns.noun ++ " '") .primitive

def all : List Opening :=
  malformed.map (fun text => ⟨.syntaxError, text, .error, none⟩) ++
    misshapen.map (fun text => ⟨.schema, text, .error, none⟩) ++
    doubtful.map (fun text => ⟨.schema, text, .warning, none⟩) ++
    untyped :: repeated :: shared :: builtIn .entity :: builtIn .customType ::
      Namespace.all.map duplicated

def Opens (o : Opening) (category : Category) (message : String) : Prop :=
  o.category = category ∧ o.text.toList <+: message.toList

theorem apart : ∀ a ∈ typeFault :: typeIssue :: all, ∀ b ∈ typeFault :: typeIssue :: all,
    a.category = b.category → a.text.toList <+: b.text.toList → a = b := by
  decide +kernel

theorem opens_unique {a b : Opening} (ha : a ∈ typeFault :: typeIssue :: all)
    (hb : b ∈ typeFault :: typeIssue :: all) {category : Category} {message : String}
    (hopens : a.Opens category message) (hopens' : b.Opens category message) : a = b := by
  have hcategory : a.category = b.category := hopens.1.trans hopens'.1.symm
  rcases List.prefix_or_prefix_of_prefix hopens.2 hopens'.2 with h | h
  · exact apart a ha b hb hcategory h
  · exact (apart b hb a ha hcategory.symm h).symm

theorem severity_ne_fatal : ∀ o ∈ all, o.severity ≠ .fatal := by
  decide +kernel

end Opening

namespace TypeReading

def faultReport (path text : String) (total : Nat) (f : TypeFault) : Diagnostic :=
  (Diagnostic.syntaxError path
    (TypeExpr.faultText text total f.kind ++ " at column " ++ toString (columnAt total f.left))
    f.kind.suggestion).atColumn (columnAt total f.left)

def issueReport (path text : String) (total : Nat) (issue : TypeIssue) : Diagnostic :=
  (Diagnostic.schemaError path
    (issue.kind.text text total ++ " at column " ++ toString (columnAt total issue.left))
    issue.kind.suggestion).atColumn (columnAt total issue.left)

end TypeReading

open TypeReading (faultReport issueReport)

inductive ItemFault (limit : Int) : Diagnostic → Prop
  | opened {o : Opening} (ho : o ∈ Opening.all) {message : String}
      (hmessage : o.text.toList <+: message.toList) (path : String) :
      ItemFault limit (.make o.category o.severity path message o.suggestion)
  | fault {text : String} {f : TypeFault}
      (hread : TypeExpr.readWhole limit text.toList = .error (.fault f)) (path : String) :
      ItemFault limit (faultReport path text text.toList.length f)
  | issue {issue : TypeIssue} (hpasses : issue.kind.PassesOn) (path text : String) (total : Nat) :
      ItemFault limit (issueReport path text total issue)

namespace ItemFault

open Opening

variable {limit : Int} {d e : Diagnostic}

theorem opens_append {a b : String} {cs : List Char} (h : cs <+: a.toList) :
    cs <+: (a ++ b).toList := by
  rw [String.toList_append]
  exact h.trans (List.prefix_append _ _)

theorem opens_faultReport (path text : String) (total : Nat) (f : TypeFault) :
    typeFault.Opens (faultReport path text total f).category
      (faultReport path text total f).message := by
  refine ⟨rfl, opens_append (opens_append ?_)⟩
  unfold TypeExpr.faultText
  exact opens_append (opens_append (opens_append (List.prefix_refl _)))

theorem opens_issueReport (path text : String) (total : Nat) (issue : TypeIssue) :
    typeIssue.Opens (issueReport path text total issue).category
      (issueReport path text total issue).message := by
  refine ⟨rfl, opens_append (opens_append ?_)⟩
  unfold TypeIssueKind.text
  exact opens_append (opens_append (opens_append (List.prefix_refl _)))

theorem faultReport_eq {path text₁ text₂ : String} {f₁ f₂ : TypeFault}
    (hread₁ : TypeExpr.readWhole limit text₁.toList = .error (.fault f₁))
    (hread₂ : TypeExpr.readWhole limit text₂.toList = .error (.fault f₂))
    (h : (faultReport path text₁ text₁.toList.length f₁).message =
      (faultReport path text₂ text₂.toList.length f₂).message) :
    faultReport path text₁ text₁.toList.length f₁ =
      faultReport path text₂ text₂.toList.length f₂ := by
  obtain ⟨htext, hcolumn⟩ := Text.atColumn_inj h
  have hsuggestion := TypeExpr.suggestion_eq_of_faultText hread₁ hread₂ htext
  unfold faultReport
  rw [htext, hcolumn, hsuggestion]

theorem issueReport_eq {path text₁ text₂ : String} {total₁ total₂ : Nat} {i₁ i₂ : TypeIssue}
    (h₁ : i₁.kind.PassesOn) (h₂ : i₂.kind.PassesOn)
    (h : (issueReport path text₁ total₁ i₁).message = (issueReport path text₂ total₂ i₂).message) :
    issueReport path text₁ total₁ i₁ = issueReport path text₂ total₂ i₂ := by
  obtain ⟨htext, hcolumn⟩ := Text.atColumn_inj h
  have hsuggestion := TypeIssueKind.suggestion_eq_of_text h₁ h₂ htext
  unfold issueReport
  rw [htext, hcolumn, hsuggestion]

theorem opened_unlike {o t : Opening} (ho : o ∈ all) (ht : t ∈ [typeFault, typeIssue])
    {message : String} (hmessage : o.text.toList <+: message.toList)
    (h : t.Opens d.category d.message) : ¬ (o.category = d.category ∧ message = d.message) := by
  rintro ⟨hcategory, rfl⟩
  have heq : o = t := opens_unique (List.mem_append_right [typeFault, typeIssue] ho)
    (List.mem_append_left all ht) ⟨hcategory, hmessage⟩ h
  have hnone : ∀ t ∈ [typeFault, typeIssue], t ∉ all := by decide +kernel
  exact hnone t ht (heq ▸ ho)

theorem eq_of_message (hd : ItemFault limit d) (he : ItemFault limit e) (hpath : d.path = e.path)
    (hcategory : d.category = e.category) (hmessage : d.message = e.message) : d = e := by
  cases hd with
  | @opened o ho message hopens path =>
      cases he with
      | @opened o' ho' message' hopens' path' =>
          obtain rfl : path = path' := hpath
          obtain rfl : message = message' := hmessage
          obtain rfl : o = o' := opens_unique (List.mem_append_right [typeFault, typeIssue] ho)
            (List.mem_append_right [typeFault, typeIssue] ho') ⟨rfl, hopens⟩
            ⟨hcategory.symm, hopens'⟩
          rfl
      | fault hread path' =>
          exact (opened_unlike ho (by simp) hopens (opens_faultReport _ _ _ _)
            ⟨hcategory, hmessage⟩).elim
      | issue hpasses path' text total =>
          exact (opened_unlike ho (by simp) hopens (opens_issueReport _ _ _ _)
            ⟨hcategory, hmessage⟩).elim
  | @fault text f hread path =>
      cases he with
      | opened ho' hopens' path' =>
          exact (opened_unlike ho' (by simp) hopens' (opens_faultReport _ _ _ _)
            ⟨hcategory.symm, hmessage.symm⟩).elim
      | fault hread' path' =>
          obtain rfl : path = path' := hpath
          exact faultReport_eq hread hread' hmessage
      | issue hpasses path' text total => cases hcategory
  | @issue i hpasses path text total =>
      cases he with
      | opened ho' hopens' path' =>
          exact (opened_unlike ho' (by simp) hopens' (opens_issueReport _ _ _ _)
            ⟨hcategory.symm, hmessage.symm⟩).elim
      | fault hread' path' => cases hcategory
      | issue hpasses' path' text' total' =>
          obtain rfl : path = path' := hpath
          exact issueReport_eq hpasses hpasses' hmessage

theorem severity_ne_fatal (h : ItemFault limit d) : d.severity ≠ .fatal := by
  cases h with
  | opened ho => exact Opening.severity_ne_fatal _ ho
  | fault => exact nofun
  | issue => exact nofun

end ItemFault

end AppSpec
