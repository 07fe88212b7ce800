import AppSpec.Proofs.Layer.Deferral
import AppSpec.Proofs.TypeExpr.Embedding

/-!
Types in place: a mapping from field names to types is the object type whose text lists its entries.
-/

namespace AppSpec

open Literal (separated)

namespace TypeExpr

theorem intercalate_eq_separated (texts : List (List Char)) :
    [',', ' '].intercalate texts = separated texts := by
  induction texts with
  | nil => rfl
  | cons text texts ih =>
      cases texts with
      | nil => exact List.intercalate_singleton
      | cons second texts =>
          rw [List.intercalate_cons_cons, ih, List.append_assoc]
          rfl

/-- The text of an object type with so many fields, each with its own text. -/
def objectText (fields : List (String × String)) : String :=
  "object[" ++ ", ".intercalate (fields.map fun f => f.1 ++ ": " ++ f.2) ++ "]"

def fieldText (f : String × String) : List Char := entryText f.1 f.2.toList

theorem toList_objectText (fields : List (String × String)) :
    (objectText fields).toList =
      bracketed Composite.object.label (separated (fields.map fieldText)) := by
  have hfield (f : String × String) : (f.1 ++ ": " ++ f.2).toList = fieldText f := by
    rw [fieldText, entryText, String.toList_append, String.toList_append, List.append_assoc]
    rfl
  have hfields : (fields.map fun f => f.1 ++ ": " ++ f.2).map String.toList =
      fields.map fieldText := by
    rw [List.map_map]
    exact List.map_congr_left fun f _ => hfield f
  rw [objectText, String.toList_append, String.toList_append, String.toList_intercalate, hfields,
    bracketed, ← intercalate_eq_separated, List.append_assoc]
  rfl

section Fields

variable {limit : Int} {levels : Nat} {fields : List (String × String)}
  {type : String × String → TypeExpr}

/-- Each field has a type, which its text gives wherever it stands in front of the next one. -/
def FieldsRead (limit : Int) (levels : Nat) (fields : List (String × String))
    (type : String × String → TypeExpr) : Prop :=
  ∀ f ∈ fields, IsIdentifier f.1 ∧ ∀ more issues, Ends more →
    ∃ rest, Text.skipBlanks rest = [] ∧
      readType limit levels ⟨f.2.toList ++ more, issues⟩ = .ok (type f, ⟨rest ++ more, issues⟩)

def typed (type : String × String → TypeExpr) (fields : List (String × String)) :
    List (String × TypeExpr) :=
  fields.map fun f => (f.1, type f)

theorem fieldsAfter_append {blanks more : List Char} (hmore : Ends more)
    (hblanks : Text.skipBlanks blanks = []) (item : TypeReader TypeExpr) (steps : Nat)
    (found : List (String × TypeExpr)) (issues : List TypeIssue) :
    fieldsAfter item steps found ⟨blanks ++ more, issues⟩ =
      fieldsAfter item steps found ⟨more, issues⟩ := by
  have hskip : Text.skipBlanks (blanks ++ more) = Text.skipBlanks more := by
    rw [hmore.skipBlanks_append, hblanks, List.nil_append, hmore.skipBlanks]
  simp only [fieldsAfter, TypeCursor.skipBlanks, hskip]

theorem readFields_typed (h : FieldsRead limit levels fields type) (hne : fields ≠ [])
    (found : List (String × TypeExpr)) (hdistinct : (Named.keys (found ++ typed type fields)).Nodup)
    {steps : Nat} (hsteps : fields.length ≤ steps) (rest : List Char) (issues : List TypeIssue) :
    readFields (readType limit levels) steps found
        ⟨separated (fields.map fieldText) ++ ']' :: rest, issues⟩ =
      .ok (found ++ typed type fields, ⟨']' :: rest, issues⟩) := by
  induction fields generalizing found steps with
  | nil => exact absurd rfl hne
  | cons f fields ih =>
      obtain ⟨steps, rfl⟩ : ∃ n, steps = n + 1 := ⟨steps - 1, by simp at hsteps; omega⟩
      obtain ⟨hname, hread⟩ := h f List.mem_cons_self
      have hspare : fields.map fieldText = [] ∨ 0 < steps := by
        cases fields with
        | nil => exact .inl rfl
        | cons second fields => exact .inr (by simp at hsteps; omega)
      obtain ⟨after, hafter, hends, hnext⟩ := separated_fields (readType limit levels) steps
        (fieldText f) (fields.map fieldText) rest hspare
      obtain ⟨blanks, hblank, hitem⟩ := hread after issues hends
      have hfresh : Named.has found f.1 = false := by
        rw [Bool.eq_false_iff, ne_eq, Named.has_iff_mem_keys]
        intro hmem
        rw [Named.keys, List.map_append, List.nodup_append] at hdistinct
        have hhead : f.1 ∈ (typed type (f :: fields)).map Prod.fst :=
          List.mem_map_of_mem List.mem_cons_self
        exact hdistinct.2.2 f.1 hmem f.1 hhead rfl
      have htyped : found ++ typed type (f :: fields) =
          found ++ [(f.1, type f)] ++ typed type fields := by
        rw [List.append_assoc]
        rfl
      rw [List.map_cons, hafter]
      refine (readFields_entry hname hfresh).mpr ⟨type f, _, hitem, ?_⟩
      rw [fieldsAfter_append hends hblank, hnext]
      split
      · next hnil =>
          rw [List.map_eq_nil_iff] at hnil
          subst hnil
          rfl
      · next hsome =>
          have hrest : fields ≠ [] := fun hnil => hsome (by rw [hnil]; rfl)
          rw [htyped]
          exact ih (fun g hg => h g (List.mem_cons_of_mem _ hg)) hrest _ (htyped ▸ hdistinct)
            (by simpa using hsteps)

theorem length_le_separated_fieldText (fields : List (String × String)) :
    fields.length ≤ (separated (fields.map fieldText)).length := by
  have hne : ∀ text ∈ fields.map fieldText, text ≠ [] := by
    rw [List.forall_mem_map]
    intro f _
    simp [fieldText, entryText]
  simpa using Literal.length_le_separated hne

theorem readWhole_objectText (h : FieldsRead limit levels fields type)
    (hlevels : (limit + 1).toNat = levels + 1) (hdistinct : (fields.map (·.1)).Nodup) :
    readWhole limit (objectText fields).toList = .ok (.object (typed type fields) [], []) := by
  have hname := isIdentifier_label .object
  have hkeys : (Named.keys (typed type fields)).Nodup := by
    rwa [Named.keys, typed, List.map_map]
  have hform := readForm_bracketed (readType limit levels) .object
    (separated (fields.map fieldText)) [] []
  have hobject : readComposite (readType limit levels) .object Composite.object.label
      (bracketed Composite.object.label (separated (fields.map fieldText)) ++ []).length
      ⟨separated (fields.map fieldText) ++ [']'], []⟩ =
        .ok (.object (typed type fields) [], ⟨[], []⟩) := by
    cases fields with
    | nil => rfl
    | cons f fields =>
        have hcount : (f :: fields).length ≤
            (separated ((f :: fields).map fieldText) ++ [']']).length + 1 := by
          have hle := length_le_separated_fieldText (f :: fields)
          rw [List.length_append]
          omega
        have hfields := readFields_typed h (List.cons_ne_nil _ _) [] hkeys hcount [] []
        obtain ⟨after, hafter, -, -⟩ := separated_fields (readType limit levels) 1 (fieldText f)
          (fields.map fieldText) [] (.inr Nat.one_pos)
        have hcs : separated ((f :: fields).map fieldText) ++ [']'] =
            f.1.toList ++ (':' :: ' ' :: f.2.toList ++ after) := by
          rw [List.map_cons, hafter, fieldText, entryText, List.append_assoc]
        rw [hcs] at hfields ⊢
        have hcontents := (contents_named (h f List.mem_cons_self).1).mpr ⟨_, hfields, rfl⟩
        exact hcontents.readComposite (expect_close _ [] [])
  have hskip := hname.skipBlanks ('[' :: (separated (fields.map fieldText) ++ [']']))
  rw [readWhole, toList_objectText, bracketed, hskip, ← bracketed, hlevels]
  have hempty :
      (bracketed Composite.object.label (separated (fields.map fieldText))).isEmpty = false :=
    rfl
  rw [List.append_nil] at hform hobject
  simp only [hempty, Bool.false_eq_true, if_false]
  refine bind_eq_ok.mpr ⟨(.object (typed type fields) [], ⟨[], []⟩), ?_, rfl⟩
  exact bind_eq_ok.mpr ⟨_, hform.trans hobject, readSuffixes_ends _ _ _ _ ends_nil _⟩

end Fields

end TypeExpr

namespace Load

theorem bind_ok {α β : Type} {x : Load α} {f : α → Load β} {a : α} {b : β} {first rest : Notes}
    (hx : x = .ok (a, first)) (hf : f a = .ok (b, rest)) : (x >>= f) = .ok (b, first ++ rest) :=
  load_bind_eq_ok.mpr ⟨a, first, rest, hx, hf, rfl⟩

theorem typeText_clean {limit : Int} {text path : String} {t : TypeExpr}
    (h : TypeExpr.parse text path limit = .ok ⟨some t, []⟩) :
    ∃ notes, typeText limit text path = .ok (some t, notes) ∧ notes.diagnostics = [] := by
  refine ⟨{ references := [] ++ ([] ++ (t.references path ++ [])) }, ?_, rfl⟩
  rw [typeText, h]
  rfl

theorem fieldTypes_clean {limit : Int} {path : String} {fields : List (String × String)}
    {type : String × String → TypeExpr}
    (h : ∀ f ∈ fields, TypeExpr.readWhole limit f.2.toList = .ok (type f, [])) :
    ∃ notes, fieldTypes limit (fields.map fun f => (.str f.1, .str f.2)) path =
      .ok (TypeExpr.typed type fields, notes) ∧ notes.diagnostics = [] := by
  induction fields with
  | nil => exact ⟨{}, rfl, rfl⟩
  | cons f fields ih =>
      obtain ⟨more, hmore, hlater⟩ := ih fun g hg => h g (List.mem_cons_of_mem _ hg)
      have hparse : TypeExpr.parse f.2 (Path.child path f.1) limit = .ok ⟨some (type f), []⟩ :=
        TypeExpr.parse_clean.mpr (h f List.mem_cons_self)
      obtain ⟨notes, hnotes, hfirst⟩ := typeText_clean hparse
      have htype : typeOf limit (.str f.2) (Path.child path f.1) =
          .ok ((some (type f), some f.2), notes ++ {}) := bind_ok hnotes rfl
      refine ⟨notes ++ {} ++ (more ++ {}), ?_, ?_⟩
      · rw [List.map_cons, fieldTypes, Scalar.text_str]
        exact bind_ok htype (bind_ok hmore rfl)
      · show notes.diagnostics ++ [] ++ (more.diagnostics ++ []) = []
        rw [hfirst, hlater]
        rfl

/-- A mapping from distinct names to texts that are types gives the type of the text that lists the
same fields between brackets, where it is read one level deeper. Without fields no text tells that
the limit admits a level; that of any settings does. -/
theorem typeOf_mapping_eq_parse {limit : Int} (path : String) {fields : List (String × String)}
    (hlimit : fields = [] → -2 < limit) (hnames : ∀ f ∈ fields, TypeExpr.IsIdentifier f.1)
    (hdistinct : (fields.map (·.1)).Nodup)
    (haccepted : ∀ f ∈ fields, ∃ t, TypeExpr.parse f.2 path limit = .ok ⟨some t, []⟩) :
    ∃ t notes,
      typeOf limit (.dict (fields.map fun f => (.str f.1, .str f.2))) path =
        .ok ((some t, none), notes) ∧ notes.diagnostics = [] ∧
      TypeExpr.parse ("object[" ++ ", ".intercalate (fields.map fun f => f.1 ++ ": " ++ f.2) ++ "]")
        path (limit + 1) = .ok ⟨some t, []⟩ := by
  simp only [TypeExpr.parse_clean] at haccepted
  choose! type htype using haccepted
  obtain ⟨notes, hnotes, hclean⟩ := @fieldTypes_clean limit path fields type htype
  have hkeys : keysWritable (fields.map fun f => (Scalar.str f.1, Value.str f.2)) = pure () := by
    rw [keysWritable, List.any_map]
    simp [Scalar.hasLongInteger]
  have hunique : (Named.keys (TypeExpr.typed type fields)).Nodup := by
    rwa [Named.keys, TypeExpr.typed, List.map_map]
  have hlevels : (limit + 1 + 1).toNat = (limit + 1).toNat + 1 := by
    cases fields with
    | nil =>
        have := hlimit rfl
        omega
    | cons f fields =>
        obtain ⟨_, -, hread⟩ := TypeExpr.readType_of_readWhole TypeExpr.ends_nil le_rfl le_rfl
          (htype f List.mem_cons_self) []
        have hne : (limit + 1).toNat ≠ 0 := by
          intro hzero
          rw [hzero] at hread
          cases hread
        omega
  refine ⟨.object (TypeExpr.typed type fields) [], {} ++ (notes ++ {}), ?_, ?_,
    TypeExpr.parse_clean.mpr ?_⟩
  · rw [typeOf, hkeys]
    refine bind_ok rfl (bind_ok hnotes ?_)
    rw [Named.setAll_nil hunique]
    rfl
  · show [] ++ (notes.diagnostics ++ []) = []
    rw [hclean]
    rfl
  · refine TypeExpr.readWhole_objectText (fun f hf => ⟨hnames f hf, fun more issues hmore => ?_⟩)
      hlevels hdistinct
    exact TypeExpr.readType_of_readWhole hmore (Int.le_of_lt (Int.lt_succ limit)) le_rfl
      (htype f hf) issues

/-- Brackets up to the limit, a quoted bracket inside a block, and blanks at the end. -/
theorem typeOf_mapping_eq_parse_account :
    ∃ t notes,
      typeOf 1 (.dict [(.str "owner", .str "reference[User] "),
          (.str "_tags", .str "list[text\x7bin: ['],', \"\x7d\"]\x7d]?")]) "domain.Account" =
        .ok ((some t, none), notes) ∧ notes.diagnostics = [] ∧
      TypeExpr.parse
          "object[owner: reference[User] , _tags: list[text\x7bin: ['],', \"\x7d\"]\x7d]?]"
          "domain.Account" 2 = .ok ⟨some t, []⟩ := by
  let fields :=
    [("owner", "reference[User] "), ("_tags", "list[text\x7bin: ['],', \"\x7d\"]\x7d]?")]
  have haccepted : ∀ f ∈ fields,
      ∃ t, TypeExpr.parse f.2 "domain.Account" 1 = .ok ⟨some t, []⟩ :=
    List.forall_mem_cons.mpr ⟨⟨.reference "User" [], by cbv⟩,
      List.forall_mem_singleton.mpr ⟨_, by cbv⟩⟩
  have hnames : ∀ f ∈ fields, TypeExpr.IsIdentifier f.1 := by decide
  have hlimit : fields = [] → (-2 : Int) < 1 := fun _ => by decide
  exact typeOf_mapping_eq_parse "domain.Account" hlimit hnames (by decide) haccepted

end Load

end AppSpec
