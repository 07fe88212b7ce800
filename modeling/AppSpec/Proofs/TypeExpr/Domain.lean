import AppSpec.Proofs.Decimal.ReadBack
import AppSpec.TypeExpr.Parser
import AppSpec.TypeExpr.Printer

/-!
Which types can be written at all, and which of them keep their texts and numbers when written.
-/

namespace AppSpec

namespace Literal

def IsWordLine (cs : List Char) : Prop :=
  ∃ word, cs = word ++ ['\n'] ∧ isBareWord word = true ∧ Numeral.integer? word = none ∧
    Numeral.real? word = none

def IsEnumLine (cs : List Char) : Prop := ∃ word, cs = word ++ ['\n'] ∧ isEnumWord word = true

def IsLongInteger (cs : List Char) : Prop :=
  ∃ negative digits, Numeral.integer? (upToLineEnd cs) = some (.integer negative digits) ∧
    Text.maxIntegerDigits < digits.length

theorem exists_line_iff {cs : List Char} {P : List Char → Prop} :
    (∃ line, cs = line ++ ['\n'] ∧ P line) ↔ cs.getLast? = some '\n' ∧ P cs.dropLast := by
  constructor
  · rintro ⟨line, rfl, h⟩
    simpa using h
  · rintro ⟨hlast, h⟩
    exact ⟨cs.dropLast, (List.dropLast_append_getLast? '\n' hlast).symm, h⟩

instance (cs : List Char) : Decidable (IsWordLine cs) := decidable_of_iff _ exists_line_iff.symm

instance (cs : List Char) : Decidable (IsEnumLine cs) := decidable_of_iff _ exists_line_iff.symm

instance (cs : List Char) : Decidable (IsLongInteger cs) :=
  match h : Numeral.integer? (upToLineEnd cs) with
  | some (.integer _ digits) =>
      decidable_of_iff (Text.maxIntegerDigits < digits.length) (by simp [IsLongInteger, h])
  | some (.real ..) => isFalse (by simp [IsLongInteger, h])
  | none => isFalse (by simp [IsLongInteger, h])

end Literal

def Scalar.IsLiteral : Scalar → Prop
  | .null => True
  | .bool _ => True
  | .int n => Text.integerTooLong n = false
  | .float _ => True
  | .str _ => True
  | _ => False

instance : DecidablePred Scalar.IsLiteral
  | .null => .isTrue trivial
  | .bool _ => .isTrue trivial
  | .int n => inferInstanceAs (Decidable (Text.integerTooLong n = false))
  | .float _ => .isTrue trivial
  | .str _ => .isTrue trivial
  | .date _ => .isFalse id
  | .timestamp _ => .isFalse id
  | .bytes _ => .isFalse id

def Scalar.Faithful : Scalar → Prop
  | .float x => Decimal.IsFinite x
  | .str s => ¬ Literal.IsWordLine s.toList ∧ ¬ Literal.IsLongInteger s.toList
  | _ => True

instance : DecidablePred Scalar.Faithful
  | .float x => inferInstanceAs (Decidable (Decimal.IsFinite x))
  | .str s => inferInstanceAs
      (Decidable (¬ Literal.IsWordLine s.toList ∧ ¬ Literal.IsLongInteger s.toList))
  | .null => .isTrue trivial
  | .bool _ => .isTrue trivial
  | .int _ => .isTrue trivial
  | .date _ => .isTrue trivial
  | .timestamp _ => .isTrue trivial
  | .bytes _ => .isTrue trivial

namespace Value

mutual

def IsLiteral (levels : Nat) : Value → Prop
  | .scalar s => s.IsLiteral
  | .list items => ∃ inner, levels = inner + 1 ∧ AreLiterals inner items
  | _ => False

def AreLiterals (levels : Nat) : List Value → Prop
  | [] => True
  | item :: items => IsLiteral levels item ∧ AreLiterals levels items

end

mutual

def Faithful : Value → Prop
  | .scalar s => s.Faithful
  | .list items => AreFaithful items
  | _ => True

def AreFaithful : List Value → Prop
  | [] => True
  | item :: items => item.Faithful ∧ AreFaithful items

end

mutual

def decidableIsLiteral : ∀ levels (v : Value), Decidable (v.IsLiteral levels)
  | _, .scalar s => inferInstanceAs (Decidable s.IsLiteral)
  | 0, .list _ => .isFalse fun ⟨_, h, _⟩ => nomatch h
  | levels + 1, .list items =>
      have := decidableAreLiterals levels items
      decidable_of_iff (AreLiterals levels items)
        ⟨fun h => ⟨levels, rfl, h⟩, fun ⟨_, h, hitems⟩ => Nat.succ.inj h ▸ hitems⟩
  | _, .tuple _ => .isFalse id
  | _, .set _ => .isFalse id
  | _, .dict _ => .isFalse id

def decidableAreLiterals : ∀ levels items, Decidable (AreLiterals levels items)
  | _, [] => .isTrue trivial
  | levels, item :: items =>
      have := decidableIsLiteral levels item
      have := decidableAreLiterals levels items
      inferInstanceAs (Decidable (_ ∧ _))

end

mutual

def decidableFaithful : ∀ v : Value, Decidable v.Faithful
  | .scalar s => inferInstanceAs (Decidable s.Faithful)
  | .list items => decidableAreFaithful items
  | .tuple _ => .isTrue trivial
  | .set _ => .isTrue trivial
  | .dict _ => .isTrue trivial

def decidableAreFaithful : ∀ items, Decidable (AreFaithful items)
  | [] => .isTrue trivial
  | item :: items =>
      have := decidableFaithful item
      have := decidableAreFaithful items
      inferInstanceAs (Decidable (_ ∧ _))

end

instance (levels : Nat) : DecidablePred (IsLiteral levels) := decidableIsLiteral levels

instance : DecidablePred Faithful := decidableFaithful

end Value

namespace TypeExpr

def IsIdentifier (name : String) : Prop :=
  ∃ c cs, name.toList = c :: cs ∧ TypeText.isNameStart c = true ∧
    ∀ d ∈ cs, TypeText.isNameChar d = true

theorem isIdentifier_iff {name : String} {c : Char} {cs : List Char} (h : name.toList = c :: cs) :
    IsIdentifier name ↔ (TypeText.isNameStart c && cs.all TypeText.isNameChar) = true := by
  rw [Bool.and_eq_true, List.all_eq_true]
  constructor
  · rintro ⟨d, ds, hname, hd⟩
    cases h.symm.trans hname
    exact hd
  · exact fun hc => ⟨c, cs, h, hc⟩

instance : DecidablePred IsIdentifier := fun name =>
  match h : name.toList with
  | [] => .isFalse fun ⟨_, _, hname, _⟩ => nomatch h.symm.trans hname
  | _ :: _ => decidable_of_iff _ (isIdentifier_iff h).symm

structure BlockWellFormed (limit : Int) (block : Constraints) : Prop where
  nodup : (Named.keys block).Nodup
  key : ∀ entry ∈ block, IsIdentifier entry.1
  literal : ∀ entry ∈ block, entry.2.IsLiteral limit.toNat

theorem blockWellFormed_iff {limit : Int} {block : Constraints} :
    BlockWellFormed limit block ↔ (Named.keys block).Nodup ∧ (∀ entry ∈ block, IsIdentifier entry.1) ∧
      ∀ entry ∈ block, entry.2.IsLiteral limit.toNat :=
  ⟨fun ⟨hnodup, hkey, hliteral⟩ => ⟨hnodup, hkey, hliteral⟩,
    fun ⟨hnodup, hkey, hliteral⟩ => ⟨hnodup, hkey, hliteral⟩⟩

instance (limit : Int) : DecidablePred (BlockWellFormed limit) := fun _ =>
  decidable_of_iff _ blockWellFormed_iff.symm

def BlockFaithful (block : Constraints) : Prop := ∀ entry ∈ block, entry.2.Faithful

instance : DecidablePred BlockFaithful := fun block =>
  inferInstanceAs (Decidable (∀ entry ∈ block, entry.2.Faithful))

mutual

def WellFormed (limit : Int) : TypeExpr → Prop
  | .primitive name block => name ∈ primitives ∧ BlockWellFormed limit block
  | .enum values block => values ≠ [] ∧ values.Nodup ∧ BlockWellFormed limit block
  | .array element block => WellFormed limit element ∧ BlockWellFormed limit block
  | .map key value block =>
      WellFormed limit key ∧ WellFormed limit value ∧ BlockWellFormed limit block
  | .optional inner block => WellFormed limit inner ∧ BlockWellFormed limit block
  | .object fields block =>
      (Named.keys fields).Nodup ∧ FieldsWellFormed limit fields ∧ BlockWellFormed limit block
  | .reference target block => IsIdentifier target ∧ BlockWellFormed limit block
  | .custom name block =>
      IsIdentifier name ∧ keyword? name = none ∧ isPrimitive name = false ∧
        BlockWellFormed limit block

def FieldsWellFormed (limit : Int) : List (String × TypeExpr) → Prop
  | [] => True
  | (name, t) :: fields =>
      IsIdentifier name ∧ WellFormed limit t ∧ FieldsWellFormed limit fields

end

mutual

def decidableWellFormed (limit : Int) : ∀ t, Decidable (WellFormed limit t)
  | .primitive _ _ => inferInstanceAs (Decidable (_ ∧ _))
  | .enum _ _ => inferInstanceAs (Decidable (_ ∧ _ ∧ _))
  | .array element _ =>
      have := decidableWellFormed limit element
      inferInstanceAs (Decidable (_ ∧ _))
  | .map key value _ =>
      have := decidableWellFormed limit key
      have := decidableWellFormed limit value
      inferInstanceAs (Decidable (_ ∧ _ ∧ _))
  | .optional inner _ =>
      have := decidableWellFormed limit inner
      inferInstanceAs (Decidable (_ ∧ _))
  | .object fields _ =>
      have := decidableFieldsWellFormed limit fields
      inferInstanceAs (Decidable (_ ∧ _ ∧ _))
  | .reference _ _ => inferInstanceAs (Decidable (_ ∧ _))
  | .custom _ _ => inferInstanceAs (Decidable (_ ∧ _ ∧ _ ∧ _))

def decidableFieldsWellFormed (limit : Int) : ∀ fields, Decidable (FieldsWellFormed limit fields)
  | [] => .isTrue trivial
  | (_, t) :: fields =>
      have := decidableWellFormed limit t
      have := decidableFieldsWellFormed limit fields
      inferInstanceAs (Decidable (_ ∧ _ ∧ _))

end

instance (limit : Int) : DecidablePred (WellFormed limit) := decidableWellFormed limit

mutual

def Faithful : TypeExpr → Prop
  | .primitive _ block => BlockFaithful block
  | .enum values block => (∀ v ∈ values, ¬ Literal.IsEnumLine v.toList) ∧ BlockFaithful block
  | .array element block => element.Faithful ∧ BlockFaithful block
  | .map key value block => key.Faithful ∧ value.Faithful ∧ BlockFaithful block
  | .optional inner block => inner.Faithful ∧ BlockFaithful block
  | .object fields block => FieldsFaithful fields ∧ BlockFaithful block
  | .reference _ block => BlockFaithful block
  | .custom _ block => BlockFaithful block

def FieldsFaithful : List (String × TypeExpr) → Prop
  | [] => True
  | (_, t) :: fields => t.Faithful ∧ FieldsFaithful fields

end

mutual

def decidableFaithful : ∀ t : TypeExpr, Decidable t.Faithful
  | .primitive _ block => inferInstanceAs (Decidable (BlockFaithful block))
  | .enum values _ => inferInstanceAs (Decidable ((∀ v ∈ values, _) ∧ _))
  | .array element _ =>
      have := decidableFaithful element
      inferInstanceAs (Decidable (_ ∧ _))
  | .map key value _ =>
      have := decidableFaithful key
      have := decidableFaithful value
      inferInstanceAs (Decidable (_ ∧ _ ∧ _))
  | .optional inner _ =>
      have := decidableFaithful inner
      inferInstanceAs (Decidable (_ ∧ _))
  | .object fields _ =>
      have := decidableFieldsFaithful fields
      inferInstanceAs (Decidable (_ ∧ _))
  | .reference _ block => inferInstanceAs (Decidable (BlockFaithful block))
  | .custom _ block => inferInstanceAs (Decidable (BlockFaithful block))

def decidableFieldsFaithful : ∀ fields, Decidable (FieldsFaithful fields)
  | [] => .isTrue trivial
  | (_, t) :: fields =>
      have := decidableFaithful t
      have := decidableFieldsFaithful fields
      inferInstanceAs (Decidable (_ ∧ _))

end

instance : DecidablePred Faithful := decidableFaithful

mutual

def height : TypeExpr → Nat
  | .array element _ => element.height + 1
  | .map key value _ => max key.height value.height + 1
  | .optional inner _ => inner.height + 1
  | .object fields _ => fieldsHeight fields
  | _ => 0

def fieldsHeight : List (String × TypeExpr) → Nat
  | [] => 0
  | (_, t) :: fields => max (t.height + 1) (fieldsHeight fields)

end

theorem fieldsHeight_le_iff {fields : List (String × TypeExpr)} {depth : Nat} :
    fieldsHeight fields ≤ depth ↔ ∀ field ∈ fields, field.2.height < depth := by
  induction fields with
  | nil => simp [fieldsHeight]
  | cons field fields ih =>
      rw [fieldsHeight, List.forall_mem_cons, ← ih]
      omega

end TypeExpr

end AppSpec
