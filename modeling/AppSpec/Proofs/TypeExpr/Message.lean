import AppSpec.Proofs.Text.Digit
import AppSpec.Proofs.TypeExpr.Extension
import AppSpec.Proofs.TypeExpr.Report

/-!
The message about a type tells its suggestion. The end of a message tells the kind of the fault but
for one: a value that no enumeration takes, written behind a shorter type, may look like the end of
a longer one. That the longer one then fails in the same way settles this case.
-/

namespace AppSpec

namespace Text

theorem append_cons_inj {p : Char → Bool} {xs ys ds es : List Char} {c d : Char} (hc : p c = false)
    (hd : p d = false) (hds : ∀ x ∈ ds, p x = true) (hes : ∀ x ∈ es, p x = true)
    (h : xs ++ c :: ds = ys ++ d :: es) : xs = ys ∧ ds = es := by
  rcases List.append_eq_append_iff.mp h with ⟨as, rfl, hcons⟩ | ⟨as, rfl, hcons⟩
  · cases as with
    | nil => exact ⟨(List.append_nil _).symm, (List.cons.inj hcons).2⟩
    | cons a as =>
        have hmem : d ∈ ds := by
          rw [(List.cons.inj hcons).2]
          exact List.mem_append_right _ List.mem_cons_self
        rw [hds d hmem] at hd
        cases hd
  · cases as with
    | nil => exact ⟨List.append_nil _, (List.cons.inj hcons).2.symm⟩
    | cons a as =>
        have hmem : c ∈ es := by
          rw [(List.cons.inj hcons).2]
          exact List.mem_append_right _ List.mem_cons_self
        rw [hes c hmem] at hc
        cases hc

theorem isDigit_toString (n : Nat) : ∀ c ∈ (toString n).toList, isDigit c = true := by
  intro c hc
  rw [Nat.toString_eq_ofList_toDigits, String.toList_ofList] at hc
  exact isDigit_of_isDigit (allDigits_toDigits n c hc)

theorem toString_inj {m n : Nat} (h : (toString m).toList = (toString n).toList) : m = n := by
  rw [Nat.toString_eq_ofList_toDigits, Nat.toString_eq_ofList_toDigits, String.toList_ofList,
    String.toList_ofList] at h
  rw [← natOfDigits_toDigits m, h, natOfDigits_toDigits]

theorem atColumn_inj {a b : String} {m n : Nat}
    (h : a ++ " at column " ++ toString m = b ++ " at column " ++ toString n) : a = b ∧ m = n := by
  have hlist := congrArg String.toList h
  have hsplit : " at column ".toList = " at column".toList ++ [' '] := by simp
  simp only [String.toList_append, hsplit, List.append_assoc, List.singleton_append] at hlist
  rw [← List.append_assoc, ← List.append_assoc] at hlist
  obtain ⟨hfront, hnumber⟩ := append_cons_inj (p := isDigit) (by decide) (by decide)
    (isDigit_toString m) (isDigit_toString n) hlist
  exact ⟨String.toList_inj.mp (List.append_cancel_right hfront), toString_inj hnumber⟩

theorem suffix_append {a b : String} {cs : List Char} (h : cs <:+ b.toList) :
    cs <:+ (a ++ b).toList := by
  rw [String.toList_append]
  exact h.trans (List.suffix_append _ _)

end Text

namespace TypeFaultKind

open Text (suffix_append)

def foundEnding : Option Char → String
  | none => "input"
  | some _ => "'"

def ending : TypeFaultKind → String
  | .emptyText => "expression"
  | .unexpected found => foundEnding found
  | .tooDeep _ => "levels"
  | .listTooDeep _ => "levels"
  | .expectedTypeName found => foundEnding found
  | .expectedCharacter _ _ found => foundEnding found
  | .takesNoArguments _ => "type arguments"
  | .requiresArguments _ => "brackets"
  | .expectedEntityName found => foundEnding found
  | .argumentCount _ _ _ => "argument(s)"
  | .expectedFieldName found => foundEnding found
  | .duplicateField _ => "'"
  | .unterminatedEnumText => "enum[...]"
  | .expectedEnumValue found => foundEnding found
  | .invalidEnumValue _ => "'"

theorem foundEnding_suffix (found : Option Char) :
    (foundEnding found).toList <:+ (describeFound found).toList := by
  cases found with
  | none => exact ⟨"end of ".toList, by simp [foundEnding, describeFound]⟩
  | some c => exact ⟨['\'', c], by simp [foundEnding, describeFound]⟩

theorem ending_suffix (kind : TypeFaultKind) (total : Nat) :
    kind.ending.toList <:+ (kind.message total).toList := by
  cases kind with
  | emptyText => exact suffix_append (a := "empty type ") (b := "expression") (List.suffix_refl _)
  | unexpected found => exact suffix_append (foundEnding_suffix found)
  | tooDeep limit => exact suffix_append ⟨[' '], by simp [ending]⟩
  | listTooDeep limit => exact suffix_append ⟨[' '], by simp [ending]⟩
  | expectedTypeName found => exact suffix_append (foundEnding_suffix found)
  | expectedCharacter c context found => exact suffix_append (foundEnding_suffix found)
  | takesNoArguments name => exact suffix_append ⟨"' does not take ".toList, by simp [ending]⟩
  | requiresArguments name =>
      exact suffix_append ⟨"' requires arguments in ".toList, by simp [ending]⟩
  | expectedEntityName found => exact suffix_append (foundEnding_suffix found)
  | argumentCount name keyed count => exact suffix_append ⟨[' '], by simp [ending]⟩
  | expectedFieldName found => exact suffix_append (foundEnding_suffix found)
  | duplicateField name => exact suffix_append (b := "'") (List.suffix_refl _)
  | unterminatedEnumText =>
      exact suffix_append (a := "unterminated string in ") (b := "enum[...]") (List.suffix_refl _)
  | expectedEnumValue found => exact suffix_append (foundEnding_suffix found)
  | invalidEnumValue value => exact suffix_append (b := "'") (List.suffix_refl _)

def endings : List String :=
  ["expression", "input", "'", "levels", "type arguments", "brackets", "argument(s)", "enum[...]"]

theorem foundEnding_mem (found : Option Char) : foundEnding found ∈ endings := by
  cases found <;> simp [foundEnding, endings]

theorem ending_mem (kind : TypeFaultKind) : kind.ending ∈ endings := by
  cases kind <;> first | exact foundEnding_mem _ | simp [ending, endings]

theorem endings_apart : ∀ a ∈ endings, ∀ b ∈ endings, a.toList <:+ b.toList → a = b := by
  decide

theorem ending_eq {k₁ k₂ : TypeFaultKind} {total₁ total₂ : Nat} {front₁ front₂ : String}
    (h : front₁ ++ k₁.message total₁ = front₂ ++ k₂.message total₂) : k₁.ending = k₂.ending := by
  have h₁ : k₁.ending.toList <:+ (front₁ ++ k₁.message total₁).toList :=
    suffix_append (ending_suffix k₁ total₁)
  have h₂ : k₂.ending.toList <:+ (front₁ ++ k₁.message total₁).toList :=
    h ▸ suffix_append (ending_suffix k₂ total₂)
  rcases List.suffix_or_suffix_of_suffix h₁ h₂ with hs | hs
  · exact endings_apart _ (ending_mem k₁) _ (ending_mem k₂) hs
  · exact (endings_apart _ (ending_mem k₂) _ (ending_mem k₁) hs).symm

theorem ending_cases (kind : TypeFaultKind) :
    kind.suggestion = none ∧ kind.ending ≠ "type arguments" ∧ kind.ending ≠ "brackets" ∨
      (∃ name, kind = .takesNoArguments name) ∨ (∃ name, kind = .requiresArguments name) ∨
      ∃ value, kind = .invalidEnumValue value := by
  have hfound (found : Option Char) :
      foundEnding found ≠ "type arguments" ∧ foundEnding found ≠ "brackets" := by
    cases found <;> simp [foundEnding]
  cases kind <;> simp [suggestion, ending, hfound]

/-! ### A value that no enumeration takes -/

/-- Whether a text has a quotation that ends in front of a message. -/
def hasCut : List Char → Bool
  | '\'' :: ':' :: ' ' :: _ => true
  | _ :: rest => hasCut rest
  | [] => false

theorem hasCut_cons {cs : List Char} (h : hasCut cs = true) (c : Char) : hasCut (c :: cs) = true := by
  unfold hasCut
  split
  · rfl
  · next heq => rwa [← (List.cons.inj heq).2]
  · next heq => cases heq

theorem hasCut_append (cs rest : List Char) : hasCut (cs ++ "': ".toList ++ rest) = true := by
  induction cs with
  | nil => rfl
  | cons c cs ih => exact hasCut_cons ih c

theorem hasCut_other {c : Char} (h : c ≠ '\'') (cs : List Char) :
    hasCut (c :: cs) = hasCut cs := by
  rw [hasCut]
  exact fun _ hquote _ => h hquote

theorem hasCut_plain {cs : List Char} (h : ∀ c ∈ cs, c ≠ '\'') (rest : List Char) :
    hasCut (cs ++ rest) = hasCut rest := by
  induction cs with
  | nil => rfl
  | cons c cs ih =>
      rw [List.cons_append, hasCut_other (h c List.mem_cons_self)]
      exact ih fun d hd => h d (List.mem_cons_of_mem _ hd)

theorem hasCut_quote {cs : List Char} (h : cs.head? ≠ some ':') :
    hasCut ('\'' :: cs) = hasCut cs := by
  rw [hasCut]
  rintro rest - rfl
  exact h rfl

theorem hasCut_quoted (c : Char) (cs : List Char) :
    hasCut ('\'' :: c :: '\'' :: cs) = hasCut ('\'' :: cs) := by
  have hinner : hasCut (c :: '\'' :: cs) = hasCut ('\'' :: cs) := by
    rw [hasCut]
    rintro rest - heq
    cases heq
  rw [hasCut, hinner]
  rintro rest - heq
  cases heq

theorem hasCut_found {c : Char} : hasCut (describeFound (some c)).toList = false := by
  rw [describeFound, String.toList_append, String.toList_append, String.toList_singleton]
  exact hasCut_quoted c []

theorem plain_of_all {text : String} (h : text.toList.all (· != '\'') = true) :
    ∀ c ∈ text.toList, c ≠ '\'' := fun c hc => by
  simpa using List.all_eq_true.mp h c hc

theorem hasCut_front {front : String} (h : front.toList.all (· != '\'') = true) (rest : String) :
    hasCut (front ++ rest).toList = hasCut rest.toList := by
  rw [String.toList_append]
  exact hasCut_plain (plain_of_all h) _

theorem plain_name {name : String} (h : IsNameText name) : ∀ c ∈ name.toList, c ≠ '\'' := by
  rintro _ hc rfl
  have hquote := h _ hc
  revert hquote
  decide

theorem plain_toString (n : Nat) : ∀ c ∈ (toString n).toList, c ≠ '\'' := by
  rintro _ hc rfl
  have hquote := Text.isDigit_toString n _ hc
  revert hquote
  decide

theorem head?_name {name : String} (h : IsNameText name) {rest : List Char}
    (hrest : rest.head? ≠ some ':') : (name.toList ++ rest).head? ≠ some ':' := by
  cases hname : name.toList with
  | nil => exact hrest
  | cons c cs =>
      have hc := h c (by rw [hname]; exact List.mem_cons_self)
      rw [List.cons_append, List.head?_cons]
      rintro heq
      rw [Option.some.inj heq] at hc
      revert hc
      decide

theorem hasCut_context {context : Expecting} (h : context.Names) (total : Nat) (rest : List Char) :
    hasCut ((context.text total).toList ++ ',' :: rest) = hasCut (',' :: rest) := by
  cases context with
  | closing opener openerLeft =>
      have hfront : "to close '".toList = "to close ".toList ++ ['\''] := by simp
      have hopen : "[' opened at column ".toList = ['['] ++ ['\''] ++ " opened at column ".toList := by
        simp
      have htext : (Expecting.closing opener openerLeft).text total = "to close '" ++ opener ++
          "[' opened at column " ++ toString (columnAt total openerLeft) := rfl
      rw [htext]
      simp only [String.toList_append, List.append_assoc, hfront, hopen, List.cons_append,
        List.nil_append]
      rw [hasCut_plain (plain_of_all (by decide)), hasCut_quote (head?_name h (by simp)),
        hasCut_plain (plain_name h), hasCut_other (by decide), hasCut_quote (by simp),
        hasCut_plain (plain_of_all (by decide)), hasCut_plain (plain_toString _)]
  | fieldType name =>
      have hfront : "after object field '".toList = "after object field ".toList ++ ['\''] := by simp
      have hend : "'".toList = ['\''] := by simp
      have htext : (Expecting.fieldType name).text total = "after object field '" ++ name ++ "'" := rfl
      rw [htext]
      simp only [String.toList_append, List.append_assoc, hfront, hend, List.cons_append,
        List.nil_append]
      rw [hasCut_plain (plain_of_all (by decide)), hasCut_quote (head?_name h (by simp)),
        hasCut_plain (plain_name h), hasCut_quote (by simp)]

theorem hasCut_message {kind : TypeFaultKind} (hnames : kind.Names) (hending : kind.ending = "'")
    (hvalue : ∀ value, kind ≠ .invalidEnumValue value) (total : Nat) :
    hasCut (": " ++ kind.message total).toList = false := by
  have hfound {front : String} (h : front.toList.all (· != '\'') = true) {found : Option Char}
      (hending : foundEnding found = "'") :
      hasCut (": " ++ (front ++ describeFound found)).toList = false := by
    cases found with
    | none => simp [foundEnding] at hending
    | some c => rw [hasCut_front (by decide), hasCut_front h, hasCut_found]
  cases kind with
  | unexpected found => exact hfound (by decide) hending
  | expectedTypeName found => exact hfound (by decide) hending
  | expectedCharacter c context found =>
      cases found with
      | none => simp [ending, foundEnding] at hending
      | some d =>
          have hfront : "expected '".toList = "expected ".toList ++ ['\''] := by simp
          have hmiddle : "' ".toList = ['\''] ++ [' '] := by simp
          have hcomma : ", found ".toList = ',' :: " found ".toList := by simp
          have hmessage : (expectedCharacter c context (some d)).message total = "expected '" ++
              String.singleton c ++ "' " ++ context.text total ++ ", found " ++
                describeFound (some d) := rfl
          rw [hasCut_front (by decide), hmessage]
          simp only [String.toList_append, String.toList_singleton, List.append_assoc, hfront, hmiddle,
            hcomma, List.cons_append, List.nil_append]
          rw [hasCut_plain (plain_of_all (by decide)), hasCut_quoted, hasCut_quote (by simp),
            hasCut_other (by decide), hasCut_context hnames, hasCut_other (by decide),
            hasCut_plain (plain_of_all (by decide)), hasCut_found]
  | expectedEntityName found => exact hfound (by decide) hending
  | expectedFieldName found => exact hfound (by decide) hending
  | duplicateField name =>
      have hfront : "duplicate object field '".toList = "duplicate object field ".toList ++ ['\''] := by
        simp
      have hend : "'".toList = ['\''] := by simp
      have hmessage : (duplicateField name).message total =
          "duplicate object field '" ++ name ++ "'" := rfl
      rw [hasCut_front (by decide), hmessage]
      simp only [String.toList_append, List.append_assoc, hfront, hend, List.cons_append,
        List.nil_append]
      rw [hasCut_plain (plain_of_all (by decide)), hasCut_quote (head?_name hnames (by simp)),
        hasCut_plain (plain_name hnames)]
      rfl
  | expectedEnumValue found => exact hfound (by decide) hending
  | invalidEnumValue value => exact absurd rfl (hvalue value)
  | _ => simp [ending] at hending

theorem requiresArguments_inj {name₁ name₂ : String} (h₁ : IsNameText name₁) (h₂ : IsNameText name₂)
    {front₁ front₂ : String} {total₁ total₂ : Nat}
    (h : front₁ ++ (requiresArguments name₁).message total₁ =
      front₂ ++ (requiresArguments name₂).message total₂) : name₁ = name₂ := by
  have hmessage (name : String) (total : Nat) : (requiresArguments name).message total =
      "'" ++ name ++ "' requires arguments in brackets" := rfl
  rw [hmessage, hmessage, ← String.append_assoc, ← String.append_assoc] at h
  have hlist := congrArg String.toList h
  have hquote : "'".toList = ['\''] := by simp
  simp only [String.toList_append, hquote, ← List.append_assoc] at hlist
  replace hlist := List.append_cancel_right hlist
  simp only [List.append_assoc, List.cons_append, List.nil_append] at hlist
  have hnames := Text.append_cons_inj (p := TypeText.isNameChar) (by decide) (by decide) h₁ h₂ hlist
  exact String.toList_inj.mp hnames.2

end TypeFaultKind

namespace TypeExpr

open TypeFaultKind

variable {limit : Int} {text₁ text₂ : String} {f₁ f₂ : TypeFault}

def faultText (text : String) (total : Nat) (kind : TypeFaultKind) : String :=
  "invalid type expression '" ++ text ++ "': " ++ kind.message total

theorem toList_faultText (text : String) (total : Nat) (kind : TypeFaultKind) :
    (faultText text total kind).toList = "invalid type expression '".toList ++
      (text.toList ++ '\'' :: (": " ++ kind.message total).toList) := by
  have hquote : "': ".toList = '\'' :: ": ".toList := by simp
  unfold faultText
  generalize kind.message total = message
  simp only [String.toList_append, hquote, List.append_assoc, List.cons_append]

theorem not_invalid_and_other {value : String} (hread₁ : readWhole limit text₁.toList = .error (.fault f₁))
    (hread₂ : readWhole limit text₂.toList = .error (.fault f₂)) (hkind : f₁.kind = .invalidEnumValue value)
    (hother : ∀ value, f₂.kind ≠ .invalidEnumValue value) {total₁ total₂ : Nat}
    (h : faultText text₁ total₁ f₁.kind = faultText text₂ total₂ f₂.kind) : False := by
  have hending := ending_eq h
  rw [hkind] at hending
  have hnames : f₂.kind.Names := (tells_readWhole limit text₂.toList).fault f₂ hread₂
  have hcut := hasCut_message hnames hending.symm hother total₂
  have hlonger (more : List Char) (htext : text₂.toList = text₁.toList ++ more) : False := by
    obtain ⟨f, hread, value, hvalue⟩ := readWhole_invalid_more hread₁ ⟨value, hkind⟩ more
    rw [htext, hread] at hread₂
    cases hread₂
    exact hother value hvalue
  have hlist := congrArg String.toList h
  rw [toList_faultText, toList_faultText] at hlist
  replace hlist := List.append_cancel_left hlist
  rcases List.append_eq_append_iff.mp hlist with ⟨more, htext, -⟩ | ⟨more, htext, hrest⟩
  · exact hlonger more htext
  · cases more with
    | nil => exact hlonger [] (by simpa using htext.symm)
    | cons c more =>
        have hquote : '\'' :: (": " ++ f₁.kind.message total₁).toList =
            "': ".toList ++ (f₁.kind.message total₁).toList := by
          simp only [String.toList_append]
          simp
        rw [hquote, List.cons_append] at hrest
        rw [(List.cons.inj hrest).2, ← List.append_assoc, hasCut_append] at hcut
        cases hcut

theorem suggestion_eq_of_faultText (hread₁ : readWhole limit text₁.toList = .error (.fault f₁))
    (hread₂ : readWhole limit text₂.toList = .error (.fault f₂)) {total₁ total₂ : Nat}
    (h : faultText text₁ total₁ f₁.kind = faultText text₂ total₂ f₂.kind) :
    f₁.kind.suggestion = f₂.kind.suggestion := by
  have hnames₁ : f₁.kind.Names := (tells_readWhole limit text₁.toList).fault f₁ hread₁
  have hnames₂ : f₂.kind.Names := (tells_readWhole limit text₂.toList).fault f₂ hread₂
  have hending := ending_eq h
  by_cases hinvalid₁ : ∃ value, f₁.kind = .invalidEnumValue value
  · obtain ⟨value₁, hkind₁⟩ := hinvalid₁
    by_cases hinvalid₂ : ∃ value, f₂.kind = .invalidEnumValue value
    · obtain ⟨value₂, hkind₂⟩ := hinvalid₂
      rw [hkind₁, hkind₂]
      rfl
    · exact (not_invalid_and_other hread₁ hread₂ hkind₁ (not_exists.mp hinvalid₂) h).elim
  by_cases hinvalid₂ : ∃ value, f₂.kind = .invalidEnumValue value
  · obtain ⟨value₂, hkind₂⟩ := hinvalid₂
    exact (not_invalid_and_other hread₂ hread₁ hkind₂ (not_exists.mp hinvalid₁) h.symm).elim
  rcases ending_cases f₁.kind with ⟨hnone₁, htakes₁, hrequires₁⟩ | ⟨name₁, hkind₁⟩ | ⟨name₁, hkind₁⟩ | hkind₁
  · rcases ending_cases f₂.kind with ⟨hnone₂, -, -⟩ | ⟨name₂, hkind₂⟩ | ⟨name₂, hkind₂⟩ | hkind₂
    · rw [hnone₁, hnone₂]
    · exact absurd (hending.trans (by rw [hkind₂]; rfl)) htakes₁
    · exact absurd (hending.trans (by rw [hkind₂]; rfl)) hrequires₁
    · exact absurd hkind₂ hinvalid₂
  · rcases ending_cases f₂.kind with ⟨-, htakes₂, -⟩ | ⟨name₂, hkind₂⟩ | ⟨name₂, hkind₂⟩ | hkind₂
    · exact absurd (hending.symm.trans (by rw [hkind₁]; rfl)) htakes₂
    · rw [hkind₁, hkind₂]
      rfl
    · rw [hkind₁, hkind₂] at hending
      simp [ending] at hending
    · exact absurd hkind₂ hinvalid₂
  · rcases ending_cases f₂.kind with ⟨-, -, hrequires₂⟩ | ⟨name₂, hkind₂⟩ | ⟨name₂, hkind₂⟩ | hkind₂
    · exact absurd (hending.symm.trans (by rw [hkind₁]; rfl)) hrequires₂
    · rw [hkind₁, hkind₂] at hending
      simp [ending] at hending
    · rw [hkind₁] at hnames₁
      rw [hkind₂] at hnames₂
      rw [hkind₁, hkind₂] at h
      rw [hkind₁, hkind₂, requiresArguments_inj hnames₁ hnames₂ h]
    · exact absurd hkind₂ hinvalid₂
  · exact absurd hkind₁ hinvalid₁

end TypeExpr

namespace TypeIssueKind

open Text (suffix_append)

def ending : TypeIssueKind → String
  | .unopenedBlock => "d '\x7d' in constraint block"
  | .unclosedBlock => "d '\x7b' in constraint block"
  | .duplicateEnumValue _ => "'"
  | .expectedConstraintName found => TypeFaultKind.foundEnding found
  | .constraintFault _ fault => fault.ending
  | .notLiteral _ => "value"
  | .unexpectedInBlock none => "t in constraint block"
  | .unexpectedInBlock (some c) => "r '" ++ String.singleton c ++ "' in constraint block"

theorem ending_suffix (kind : TypeIssueKind) (total : Nat) :
    kind.ending.toList <:+ (kind.message total).toList := by
  cases kind with
  | unopenedBlock =>
      have hmessage : message total .unopenedBlock =
          "unbalance" ++ "d '\x7d' in constraint block" := rfl
      rw [hmessage]
      exact suffix_append (List.suffix_refl _)
  | unclosedBlock =>
      have hmessage : message total .unclosedBlock =
          "unbalance" ++ "d '\x7b' in constraint block" := rfl
      rw [hmessage]
      exact suffix_append (List.suffix_refl _)
  | duplicateEnumValue value => exact suffix_append (b := "'") (List.suffix_refl _)
  | expectedConstraintName found => exact suffix_append (TypeFaultKind.foundEnding_suffix found)
  | constraintFault name fault => exact suffix_append (TypeFaultKind.ending_suffix fault total)
  | notLiteral name =>
      have hend : "' must be a literal value" = "' must be a literal " ++ "value" := rfl
      have hmessage : message total (.notLiteral name) =
          "constraint '" ++ name ++ ("' must be a literal " ++ "value") := by
        rw [← hend]
        rfl
      rw [hmessage]
      exact suffix_append (suffix_append (List.suffix_refl _))
  | unexpectedInBlock found =>
      cases found with
      | none =>
          have hmessage : message total (.unexpectedInBlock none) =
              "unexpected character end of inpu" ++ "t in constraint block" := rfl
          rw [hmessage]
          exact suffix_append (List.suffix_refl _)
      | some c =>
          have hfound : describeFound (some c) = "'" ++ String.singleton c ++ "'" := rfl
          have hmessage : message total (.unexpectedInBlock (some c)) =
              "unexpected character " ++ describeFound (some c) ++ " in constraint block" := rfl
          rw [hmessage, hfound]
          exact ⟨"unexpected characte".toList, by simp [ending]⟩

theorem unclosedBlock_of_ending {kind : TypeIssueKind} (hkind : kind.PassesOn)
    (h : kind.ending.toList <:+ (ending .unclosedBlock).toList ∨
      (ending .unclosedBlock).toList <:+ kind.ending.toList) :
    kind = .unclosedBlock := by
  cases kind with
  | unclosedBlock => rfl
  | unopenedBlock => exact absurd h (by decide)
  | duplicateEnumValue value =>
      dsimp only [ending] at h
      exact absurd h (by decide)
  | expectedConstraintName found =>
      cases found <;> dsimp only [ending, TypeFaultKind.foundEnding] at h <;>
        exact absurd h (by decide)
  | constraintFault name fault =>
      obtain ⟨limit, rfl⟩ := hkind name fault rfl
      dsimp only [ending, TypeFaultKind.ending] at h
      exact absurd h (by decide)
  | notLiteral name =>
      dsimp only [ending] at h
      exact absurd h (by decide)
  | unexpectedInBlock found =>
      cases found with
      | none => exact absurd h (by decide)
      | some c =>
          -- the two endings are equally long and start with different letters
          have heq : (ending (.unexpectedInBlock (some c))).toList =
              (ending .unclosedBlock).toList := by
            rcases h with h | h
            · exact h.eq_of_length (by simp [ending])
            · exact (h.eq_of_length (by simp [ending])).symm
          simp [ending] at heq

theorem notLiteral_of_ending {kind : TypeIssueKind} (hkind : kind.PassesOn) {name : String}
    (h : kind.ending.toList <:+ (ending (.notLiteral name)).toList ∨
      (ending (.notLiteral name)).toList <:+ kind.ending.toList) :
    ∃ name, kind = .notLiteral name := by
  cases kind with
  | notLiteral name => exact ⟨name, rfl⟩
  | unopenedBlock =>
      dsimp only [ending] at h
      exact absurd h (by decide)
  | unclosedBlock =>
      dsimp only [ending] at h
      exact absurd h (by decide)
  | duplicateEnumValue value =>
      dsimp only [ending] at h
      exact absurd h (by decide)
  | expectedConstraintName found =>
      cases found <;> dsimp only [ending, TypeFaultKind.foundEnding] at h <;>
        exact absurd h (by decide)
  | constraintFault name fault =>
      obtain ⟨limit, rfl⟩ := hkind name fault rfl
      dsimp only [ending, TypeFaultKind.ending] at h
      exact absurd h (by decide)
  | unexpectedInBlock found =>
      cases found with
      | none =>
          dsimp only [ending] at h
          exact absurd h (by decide)
      | some c =>
          dsimp only [ending] at h
          have hblock : "' in constraint block".toList <:+
              ("r '" ++ String.singleton c ++ "' in constraint block").toList :=
            suffix_append (List.suffix_refl _)
          have hcompare : "' in constraint block".toList <:+ "value".toList ∨
              "value".toList <:+ "' in constraint block".toList := by
            rcases h with h | h
            · exact .inl (hblock.trans h)
            · exact List.suffix_or_suffix_of_suffix hblock h
          exact absurd hcompare (by decide)

def text (source : String) (total : Nat) (kind : TypeIssueKind) : String :=
  "type expression '" ++ source ++ "': " ++ kind.message total

theorem suggestion_cases {kind : TypeIssueKind} (h : kind.PassesOn) :
    kind.suggestion = none ∨ kind = .unclosedBlock ∨ ∃ name, kind = .notLiteral name := by
  cases kind with
  | constraintFault name fault =>
      obtain ⟨limit, rfl⟩ := h name fault rfl
      exact .inl rfl
  | _ => simp [suggestion]

theorem suggestion_eq_of_text {k₁ k₂ : TypeIssueKind} (h₁ : k₁.PassesOn) (h₂ : k₂.PassesOn)
    {source₁ source₂ : String} {total₁ total₂ : Nat}
    (h : k₁.text source₁ total₁ = k₂.text source₂ total₂) : k₁.suggestion = k₂.suggestion := by
  have hend₁ : k₁.ending.toList <:+ (k₁.text source₁ total₁).toList :=
    suffix_append (ending_suffix k₁ total₁)
  have hend₂ : k₂.ending.toList <:+ (k₁.text source₁ total₁).toList :=
    h ▸ suffix_append (ending_suffix k₂ total₂)
  have hcompare := List.suffix_or_suffix_of_suffix hend₁ hend₂
  rcases suggestion_cases h₁ with hnone₁ | rfl | ⟨name, rfl⟩
  · rcases suggestion_cases h₂ with hnone₂ | rfl | ⟨name, rfl⟩
    · rw [hnone₁, hnone₂]
    · rw [unclosedBlock_of_ending h₁ hcompare]
    · obtain ⟨name₁, rfl⟩ := notLiteral_of_ending h₁ hcompare
      rfl
  · rw [unclosedBlock_of_ending h₂ hcompare.symm]
  · obtain ⟨name₂, rfl⟩ := notLiteral_of_ending h₂ hcompare.symm
    rfl

end TypeIssueKind

end AppSpec
