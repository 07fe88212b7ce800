import AppSpec.Proofs.TypeExpr.Block

/-!
The grammar of types without constraints, apart from any way of reading them. Blanks may stand in
front of every token and behind the whole.
-/

namespace AppSpec

namespace Text

def AllBlank (cs : List Char) : Prop := ∀ c ∈ cs, isBlank c = true

theorem allBlank_nil : AllBlank [] := fun _ h => nomatch h

theorem AllBlank.append {cs ds : List Char} (hc : AllBlank cs) (hd : AllBlank ds) :
    AllBlank (cs ++ ds) := fun c h =>
  (List.mem_append.mp h).elim (hc c) (hd c)

theorem AllBlank.skipBlanks {blanks : List Char} (h : AllBlank blanks) (cs : List Char) :
    skipBlanks (blanks ++ cs) = skipBlanks cs := by
  rw [Text.skipBlanks, List.dropWhile_append_of_pos h]
  rfl

theorem skipBlanks_skipBlanks (cs : List Char) : skipBlanks (skipBlanks cs) = skipBlanks cs :=
  List.dropWhile_idempotent _ _

theorem exists_skipBlanks (cs : List Char) :
    ∃ blanks, AllBlank blanks ∧ cs = blanks ++ skipBlanks cs :=
  ⟨cs.takeWhile isBlank, fun _ => List.mem_takeWhile_imp, List.takeWhile_append_dropWhile.symm⟩

theorem exists_trim (cs : List Char) :
    ∃ before behind, AllBlank before ∧ AllBlank behind ∧ cs = before ++ trim cs ++ behind := by
  obtain ⟨before, hbefore, hcs⟩ := exists_skipBlanks cs
  obtain ⟨behind, hbehind, hreverse⟩ := exists_skipBlanks (skipBlanks cs).reverse
  refine ⟨before, behind.reverse, hbefore, fun c hc => hbehind c (List.mem_reverse.mp hc), ?_⟩
  have htrim : skipBlanks cs = trim cs ++ behind.reverse := by
    have h := congrArg List.reverse hreverse
    rwa [List.reverse_reverse, List.reverse_append] at h
  rw [List.append_assoc, ← htrim, ← hcs]

end Text

namespace TypeGrammar

open Text (AllBlank)
open TypeExpr (IsIdentifier)

/-- A token with blanks in front of it. -/
def Token (token text : List Char) : Prop := ∃ blanks, AllBlank blanks ∧ text = blanks ++ token

section Separated

variable {α : Type}

/-- One or more items with commas between them. -/
inductive Separated (Item : List Char → α → Prop) : List Char → List α → Prop
  | last {text : List Char} {a : α} (h : Item text a) : Separated Item text [a]
  | next {text comma rest : List Char} {a : α} {as : List α} (h : Item text a)
      (hcomma : Token [','] comma) (hrest : Separated Item rest as) :
      Separated Item (text ++ (comma ++ rest)) (a :: as)

end Separated

/-- What stands between quotes, and the text it stands for. -/
inductive Quoted (quote : Char) : List Char → List Char → Prop
  | nil : Quoted quote [] []
  | escaped (c : Char) {body value : List Char} (h : Quoted quote body value) :
      Quoted quote ('\\' :: c :: body) (c :: value)
  | plain {c : Char} {body value : List Char} (hback : c ≠ '\\') (hquote : c ≠ quote)
      (h : Quoted quote body value) : Quoted quote (c :: body) (c :: value)

inductive EnumValue : List Char → String → Prop
  | word {text word : List Char} (htext : Token word text)
      (hword : Literal.isEnumWord word = true) : EnumValue text (String.ofList word)
  | quoted {quote : Char} {text body value : List Char} (hquote : TypeText.isQuote quote = true)
      (hbody : Quoted quote body value) (htext : Token (quote :: (body ++ [quote])) text) :
      EnumValue text (String.ofList value)

/-- So many question marks. -/
inductive Marks : Nat → List Char → Prop
  | none : Marks 0 []
  | more {count : Nat} {mark marks : List Char} (hmark : Token ['?'] mark)
      (hmarks : Marks count marks) : Marks (count + 1) (mark ++ marks)

def optionals : Nat → TypeExpr → TypeExpr
  | 0, t => t
  | count + 1, t => optionals count (.optional t [])

section Forms

variable (Nested : List Char → TypeExpr → Prop)

inductive Field : List Char → String × TypeExpr → Prop
  | mk {name : String} {head colon body : List Char} {t : TypeExpr} (hname : IsIdentifier name)
      (hhead : Token name.toList head) (hcolon : Token [':'] colon) (hbody : Nested body t) :
      Field (head ++ (colon ++ body)) (name, t)

/-- What stands in the brackets of a composite type. -/
inductive Inner : Composite → List Char → TypeExpr → Prop
  | array {text : List Char} {t : TypeExpr} (h : Nested text t) : Inner .array text (.array t [])
  | optional {text : List Char} {t : TypeExpr} (h : Nested text t) :
      Inner .optional text (.optional t [])
  | map {left comma right : List Char} {key value : TypeExpr} (hkey : Nested left key)
      (hcomma : Token [','] comma) (hvalue : Nested right value) :
      Inner .map (left ++ (comma ++ right)) (.map key value [])
  | reference {text : List Char} {target : String} (htarget : IsIdentifier target)
      (h : Token target.toList text) : Inner .reference text (.reference target [])
  | noFields : Inner .object [] (.object [] [])
  | fields {text : List Char} {fields : List (String × TypeExpr)}
      (h : Separated (Field Nested) text fields) (hdistinct : (Named.keys fields).Nodup) :
      Inner .object text (.object fields [])
  | enum {text : List Char} {values : List String} (h : Separated EnumValue text values) :
      Inner .enum text (.enum values.eraseDups [])

/-- A type without question marks behind it. -/
inductive Form : List Char → TypeExpr → Prop
  | primitive {text : List Char} {name : String} (hname : IsIdentifier name)
      (htext : Token name.toList text) (hkeyword : TypeExpr.keyword? name = none)
      (hprimitive : TypeExpr.isPrimitive name = true) : Form text (.primitive name.toLower [])
  | custom {text : List Char} {name : String} (hname : IsIdentifier name)
      (htext : Token name.toList text) (hkeyword : TypeExpr.keyword? name = none)
      (hcustom : TypeExpr.isPrimitive name = false) : Form text (.custom name [])
  | object {text : List Char} {name : String} (hname : IsIdentifier name)
      (htext : Token name.toList text) (hkeyword : TypeExpr.keyword? name = some .object) :
      Form text (.object [] [])
  | bracketed {head bracket inner close : List Char} {name : String} {composite : Composite}
      {t : TypeExpr} (hname : IsIdentifier name) (hhead : Token name.toList head)
      (hkeyword : TypeExpr.keyword? name = some composite) (hbracket : Token ['['] bracket)
      (hinner : Inner Nested composite inner t) (hclose : Token [']'] close) :
      Form (head ++ (bracket ++ (inner ++ close))) t

end Forms

/-- The types with at most so many levels, each bracket and each question mark being one. -/
def Levels : Nat → List Char → TypeExpr → Prop
  | 0, _, _ => False
  | levels + 1, text, t =>
      ∃ form marks count base, Form (Levels levels) form base ∧ Marks count marks ∧
        count ≤ levels ∧ text = form ++ marks ∧ t = optionals count base

/-- The types that may stand at a depth. -/
def AtDepth (limit : Int) (depth : Nat) : List Char → TypeExpr → Prop :=
  Levels (limit + 1 - depth).toNat

theorem atDepth_iff {limit : Int} {depth : Nat} {text : List Char} {t : TypeExpr} :
    AtDepth limit depth text t ↔
      ∃ form marks count base, Form (AtDepth limit (depth + 1)) form base ∧ Marks count marks ∧
        (depth + count : Int) ≤ limit ∧ text = form ++ marks ∧ t = optionals count base := by
  by_cases hdepth : (depth : Int) ≤ limit
  · have hlevels : (limit + 1 - depth).toNat = (limit + 1 - (depth + 1 : Nat)).toNat + 1 := by
      omega
    have hcount (count : Nat) :
        count ≤ (limit + 1 - (depth + 1 : Nat)).toNat ↔ (depth + count : Int) ≤ limit := by omega
    rw [AtDepth, hlevels]
    simp only [Levels, hcount]
    rfl
  · have hlevels : (limit + 1 - depth).toNat = 0 := by omega
    rw [AtDepth, hlevels]
    constructor
    · exact False.elim
    · rintro ⟨-, -, count, -, -, -, hcount, -⟩
      omega

/-- The types that a whole text may be. -/
def Derives (limit : Int) (cs : List Char) (t : TypeExpr) : Prop :=
  ∃ text blanks, AtDepth limit 0 text t ∧ AllBlank blanks ∧ cs = text ++ blanks

/-! ### Tokens -/

theorem Token.prepend {token text blanks : List Char} (hblanks : AllBlank blanks)
    (h : Token token text) : Token token (blanks ++ text) := by
  obtain ⟨more, hmore, rfl⟩ := h
  exact ⟨blanks ++ more, hblanks.append hmore, (List.append_assoc _ _ _).symm⟩

theorem Token.skipBlanks {c : Char} {token text : List Char} (h : Token (c :: token) text)
    (hc : Text.isBlank c = false) (rest : List Char) :
    Text.skipBlanks (text ++ rest) = c :: (token ++ rest) := by
  obtain ⟨blanks, hblanks, rfl⟩ := h
  rw [List.append_assoc, hblanks.skipBlanks, List.cons_append, TypeText.skipBlanks_cons hc]

theorem Token.skipBlanks_name {name : String} {text : List Char} (hname : IsIdentifier name)
    (h : Token name.toList text) (rest : List Char) :
    Text.skipBlanks (text ++ rest) = name.toList ++ rest := by
  obtain ⟨blanks, hblanks, rfl⟩ := h
  rw [List.append_assoc, hblanks.skipBlanks, hname.skipBlanks]

theorem Marks.prepend {count : Nat} {marks blanks : List Char} (hblanks : AllBlank blanks)
    (h : Marks (count + 1) marks) : Marks (count + 1) (blanks ++ marks) := by
  cases h with
  | more hmark hmarks =>
      rw [← List.append_assoc]
      exact .more (hmark.prepend hblanks) hmarks

theorem Marks.count_le {count : Nat} {marks : List Char} (h : Marks count marks) :
    count ≤ marks.length := by
  induction h with
  | none => exact Nat.le_refl 0
  | more hmark _ ih =>
      obtain ⟨blanks, -, rfl⟩ := hmark
      simp only [List.length_append, List.length_singleton]
      omega

end TypeGrammar

end AppSpec
