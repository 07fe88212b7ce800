import AppSpec.Proofs.TypeExpr.Constraint.Literal

/-!
One entry of a constraint block. It is read up to its end whatever is wrong with it, and gives
either the constraint that it writes or an issue that stands in it.
-/

namespace AppSpec.TypeGrammar

open Text (AllBlank)
open TypeExpr (IsIdentifier)
open TypeText (NoNameHead Passes isEntryEnd)

variable {limit : Int} {entry tail rest value : List Char} {name : String}

/-- A constraint as an entry writes it: a name alone, or a name and a literal. -/
inductive EntryText (limit : Int) : List Char → String → Value → Prop
  | flag {name : String} {head blanks : List Char} (hname : IsIdentifier name)
      (hhead : Token name.toList head) (hblanks : AllBlank blanks) :
      EntryText limit (head ++ blanks) name (.bool true)
  | value {name : String} {head colon text blanks : List Char} {v : Value}
      (hname : IsIdentifier name) (hhead : Token name.toList head) (hcolon : Token [':'] colon)
      (htext : Padded (LiteralText limit.toNat) text v) (hblanks : AllBlank blanks) :
      EntryText limit (head ++ (colon ++ (text ++ blanks))) name v

/-- The name that an entry begins with, and what follows it. -/
def named? (entry : List Char) : Option (String × List Char) :=
  match TypeText.splitName (Text.skipBlanks entry) with
  | ([], _) => none
  | (name, rest) => some (String.ofList name, rest)

def leadingName (entry : List Char) : Option String := (named? entry).map (·.1)

/-- What stands behind the name and the colon. -/
def value? (entry : List Char) : Option (List Char) :=
  match named? entry with
  | none => none
  | some (_, rest) =>
      match Text.skipBlanks rest with
      | ':' :: value => some (Text.skipBlanks value)
      | _ => none

/-- The value of the entry is read without failing, and from where it is no literal any more the
entry ends with the next comma or closing brace that is not nested. -/
structure Recovers (limit : Int) (entry : List Char) : Prop where
  reads : ∀ value stop failure, value? entry = some value → isEntryEnd stop = true →
    TypeExpr.readLiteral limit limit.toNat (value ++ [stop]) ≠ .error (.failure failure)
  ends : ∀ value stop rest, value? entry = some value → isEntryEnd stop = true →
    TypeExpr.readLiteral limit limit.toNat (value ++ [stop]) = .ok (none, rest) →
      TypeText.skipEntry 0 .outside rest = [stop]

/-- What becomes of an entry with this behind it: the constraint that it writes is kept, and
anything else leaves an issue within the entry and at most a constraint of the name that it begins
with. -/
structure Outcome (limit : Int) (entry tail : List Char) (block : Constraints)
    (issues : List TypeIssue) : Prop where
  kept : ∀ name v, EntryText limit entry name v → block = [(name, v)] ∧ issues = []
  reported : (∀ name v, ¬ EntryText limit entry name v) → issues ≠ []
  own : block = [] ∨ ∃ name v, leadingName entry = some name ∧ block = [(name, v)]
  located : ∀ issue ∈ issues, tail.length ≤ issue.left ∧ issue.left ≤ (entry ++ tail).length

/-! ### The name of an entry -/

theorem named?_append (hname : IsIdentifier name) {head : List Char}
    (hhead : Token name.toList head) (hrest : NoNameHead rest) :
    named? (head ++ rest) = some (name, rest) := by
  rw [named?, hhead.skipBlanks_name hname, hname.splitName hrest]
  split
  · next heq => exact absurd (Prod.mk.inj heq).1 hname.ne_nil
  · next heq =>
      cases heq
      rw [String.ofList_toList]

theorem noNameHead_splitName (cs : List Char) (hne : (TypeText.splitName cs).1 ≠ []) :
    NoNameHead (TypeText.splitName cs).2 := by
  intro d hd
  cases cs with
  | nil => exact absurd rfl hne
  | cons c cs =>
      rw [TypeText.splitName] at hne hd
      split at hd
      · have hstop := List.head?_dropWhile_not TypeText.isNameChar cs
        rwa [Option.mem_def.mp hd] at hstop
      · next hc => exact absurd (by rw [if_neg hc]) hne

theorem exists_head (h : named? entry = some (name, rest)) :
    IsIdentifier name ∧ NoNameHead rest ∧
      ∃ head, Token name.toList head ∧ entry = head ++ rest := by
  rw [named?] at h
  split at h
  · cases h
  · next chars rest' hne hsplit =>
      cases h
      have hchars : chars ≠ [] := fun hnil => hne hnil
      have hhead := noNameHead_splitName (Text.skipBlanks entry) (by rwa [hsplit])
      rw [hsplit] at hhead
      obtain ⟨hname, hentry⟩ := exists_name hsplit hchars
      exact ⟨hname, hhead, hentry⟩

theorem value?_eq (h : named? entry = some (name, rest))
    (hcolon : Text.skipBlanks rest = ':' :: value) :
    value? entry = some (Text.skipBlanks value) := by
  rw [value?, h]
  dsimp only
  rw [hcolon]
  rfl

theorem exists_of_value? (h : value? entry = some value) :
    ∃ name rest text, named? entry = some (name, rest) ∧ Text.skipBlanks rest = ':' :: text ∧
      value = Text.skipBlanks text := by
  rw [value?] at h
  split at h
  · cases h
  · next name rest hnamed =>
      split at h
      · next text hcolon =>
          cases h
          exact ⟨name, rest, text, hnamed, hcolon, rfl⟩
      · cases h

/-- A constraint is written by what follows the name. -/
theorem EntryText.exists_named {key : String} {v : Value} (h : EntryText limit entry key v) :
    ∃ rest, named? entry = some (key, rest) ∧
      ((AllBlank rest ∧ v = .bool true) ∨ ∃ value, Text.skipBlanks rest = ':' :: value ∧
        Takes (fun text => Padded (LiteralText limit.toNat) text v) value []) := by
  cases h with
  | @flag _ head blanks hname hhead hblanks =>
      have hends : Heads [] blanks := by
        rw [Heads, Text.skipBlanks, List.dropWhile_eq_nil_iff.mpr hblanks]
        simp
      have hrest := hends.noNameHead fun c hc => absurd hc List.not_mem_nil
      exact ⟨blanks, named?_append hname hhead hrest, .inl ⟨hblanks, rfl⟩⟩
  | @value _ head colon text blanks _ hname hhead hcolon htext hblanks =>
      have hrest := (hcolon.heads (by decide) (text ++ blanks)).noNameHead
        (List.forall_mem_singleton.mpr (by decide))
      refine ⟨_, named?_append hname hhead hrest,
        .inr ⟨_, hcolon.skipBlanks (by decide) _, text, blanks, htext, hblanks, ?_⟩⟩
      rw [List.append_nil, List.nil_append]

theorem entryText_flag (h : named? entry = some (name, rest)) (hblanks : AllBlank rest) :
    EntryText limit entry name (.bool true) := by
  obtain ⟨hname, -, head, hhead, rfl⟩ := exists_head h
  exact .flag hname hhead hblanks

theorem entryText_value (h : named? entry = some (name, rest))
    (hcolon : Text.skipBlanks rest = ':' :: value) {v : Value}
    (hvalue : Takes (fun text => Padded (LiteralText limit.toNat) text v) value []) :
    EntryText limit entry name v := by
  obtain ⟨hname, -, head, hhead, rfl⟩ := exists_head h
  obtain ⟨colon, htoken, rfl⟩ := exists_token hcolon
  obtain ⟨text, blanks, htext, hblanks, rfl⟩ := hvalue
  rw [List.append_nil]
  exact .value hname hhead htoken htext hblanks

/-! ### The end of an entry -/

/-- What is left behind the comma of an entry, or from the closing brace on. -/
def behindComma : List Char → List Char
  | ',' :: rest => rest
  | rest => rest

/-- The issues stand within a text, in front of what is left behind it. -/
def Within (tail whole : List Char) (issues : List TypeIssue) : Prop :=
  ∀ issue ∈ issues, tail.length ≤ issue.left ∧ issue.left ≤ whole.length

theorem skipBlanks_append {c : Char} (hc : Text.isBlank c = false) (cs rest : List Char) :
    Text.skipBlanks (cs ++ c :: rest) = Text.skipBlanks cs ++ c :: rest := by
  induction cs with
  | nil => exact TypeText.skipBlanks_cons hc rest
  | cons d cs ih =>
      rw [List.cons_append, Text.skipBlanks, Text.skipBlanks, List.dropWhile_cons,
        List.dropWhile_cons]
      split
      · exact ih
      · rfl

theorem append_suffix {cs ds : List Char} (h : cs <:+ ds) (more : List Char) :
    cs ++ more <:+ ds ++ more := by
  obtain ⟨before, rfl⟩ := h
  exact ⟨before, (List.append_assoc _ _ _).symm⟩

theorem skipBlanks_eq_nil {cs : List Char} : Text.skipBlanks cs = [] ↔ AllBlank cs :=
  List.dropWhile_eq_nil_iff

theorem endConstraint_skipBlanks (cs : List Char) (issues : List TypeIssue) :
    TypeExpr.endConstraint ⟨Text.skipBlanks cs, issues⟩ = TypeExpr.endConstraint ⟨cs, issues⟩ := by
  simp only [TypeExpr.endConstraint, TypeCursor.skipBlanks, Text.skipBlanks_skipBlanks]

theorem endConstraint_unexpected {c : Char} (hblank : Text.isBlank c = false)
    (hc : isEntryEnd c = false) (cs : List Char) (issues : List TypeIssue) :
    TypeExpr.endConstraint ⟨c :: cs, issues⟩ =
      ⟨behindComma (TypeText.skipEntry 0 .outside (c :: cs)),
        issues ++ [⟨.unexpectedInBlock (some c), (c :: cs).length⟩]⟩ := by
  rw [isEntryEnd, Bool.or_eq_false_iff, beq_eq_false_iff_ne, beq_eq_false_iff_ne] at hc
  rw [TypeExpr.endConstraint]
  simp only [TypeCursor.skipBlanks, TypeText.skipBlanks_cons hblank]
  split
  · next heq => exact absurd (List.cons.inj heq).1 hc.1
  · next heq => exact absurd (List.cons.inj heq).1 hc.2
  · next heq => cases heq
  · next heq =>
      cases heq
      rw [behindComma.eq_def]
      rfl

section Ends

variable {stop : Char} {text : List Char} (hstop : isEntryEnd stop = true)

include hstop

theorem isBlank_of_isEntryEnd : Text.isBlank stop = false := by
  rw [isEntryEnd, Bool.or_eq_true, beq_iff_eq, beq_iff_eq] at hstop
  rcases hstop with rfl | rfl <;> decide

theorem isLiteralStop_of_isEntryEnd : TypeExpr.isLiteralStop stop = true := by
  rw [isEntryEnd] at hstop
  rw [TypeExpr.isLiteralStop, hstop]
  rfl

theorem endConstraint_stop (more : List Char) (issues : List TypeIssue) :
    TypeExpr.endConstraint ⟨stop :: more, issues⟩ = ⟨behindComma (stop :: more), issues⟩ := by
  rw [isEntryEnd, Bool.or_eq_true, beq_iff_eq, beq_iff_eq] at hstop
  rcases hstop with rfl | rfl <;> rfl

/-- What is left of an entry is an issue unless it is blank. -/
theorem endConstraint_passes (htext : Passes 0 0 text) (more : List Char)
    (issues : List TypeIssue) :
    ∃ new, TypeExpr.endConstraint ⟨text ++ stop :: more, issues⟩ =
        ⟨behindComma (stop :: more), issues ++ new⟩ ∧
      (new = [] ↔ AllBlank text) ∧ Within (stop :: more) (text ++ stop :: more) new := by
  obtain ⟨blanks, hblanks, hsplit⟩ := Text.exists_skipBlanks text
  rw [← endConstraint_skipBlanks, skipBlanks_append (isBlank_of_isEntryEnd hstop) text more,
    ← skipBlanks_eq_nil]
  cases hleft : Text.skipBlanks text with
  | nil =>
      refine ⟨[], ?_, iff_of_true rfl rfl, by simp [Within]⟩
      rw [List.nil_append, endConstraint_stop hstop, List.append_nil]
  | cons c cs =>
      rw [hleft] at hsplit
      have hpasses : Passes 0 0 (c :: cs) := (hsplit ▸ htext).cancel (passes_blanks hblanks 0)
      have hskip := hpasses (stop :: more)
      rw [TypeText.skipEntry_end hstop] at hskip
      refine ⟨[⟨.unexpectedInBlock (some c), (c :: cs ++ stop :: more).length⟩], ?_,
        iff_of_false (List.cons_ne_nil _ _) (List.cons_ne_nil _ _), ?_⟩
      · rw [List.cons_append, endConstraint_unexpected (Text.skipBlanks_head hleft) hpasses.not_end,
          ← List.cons_append, hskip]
      · rw [Within, List.forall_mem_singleton, hsplit]
        simp only [List.length_append, List.length_cons]
        omega

end Ends

/-! ### Reading an entry -/

theorem readConstraint_nameless (limit : Int) (h : named? entry = none) (found : Constraints)
    (issues : List TypeIssue) {c : Char} {cs : List Char} (hentry : Text.skipBlanks entry = c :: cs)
    (tail : List Char) :
    TypeExpr.readConstraint limit ⟨c :: cs ++ tail, issues⟩ found =
      .ok (found, ⟨TypeText.skipEntry 0 .outside (c :: cs ++ tail),
        issues ++ [⟨.expectedConstraintName (some c), (c :: cs ++ tail).length⟩]⟩) := by
  have hc : TypeText.isNameStart c = false := by
    by_contra hc
    rw [Bool.not_eq_false] at hc
    rw [named?, hentry, TypeText.splitName, if_pos hc] at h
    cases h
  rw [TypeExpr.readConstraint, List.cons_append, TypeText.splitName, hc]
  rfl

theorem readConstraint_flag (limit : Int) (hname : IsIdentifier name) (hrest : NoNameHead rest)
    (hcolon : ∀ value, Text.skipBlanks rest ≠ ':' :: value) (found : Constraints)
    (issues : List TypeIssue) :
    TypeExpr.readConstraint limit ⟨name.toList ++ rest, issues⟩ found =
      .ok (found.set name (.bool true), ⟨Text.skipBlanks rest, issues⟩) := by
  rw [TypeExpr.readConstraint, hname.splitName hrest]
  dsimp only
  split
  · next heq => exact absurd (Prod.mk.inj heq).1 hname.ne_nil
  · next heq =>
      cases heq
      rw [String.ofList_toList]
      split
      · next value heq => exact absurd heq (hcolon value)
      · rfl

theorem readConstraint_colon (limit : Int) (hname : IsIdentifier name) (hrest : NoNameHead rest)
    (hcolon : Text.skipBlanks rest = ':' :: value) (found : Constraints)
    (issues : List TypeIssue) :
    TypeExpr.readConstraint limit ⟨name.toList ++ rest, issues⟩ found =
      match TypeExpr.readLiteral limit limit.toNat (Text.skipBlanks value) with
      | .error (.fault fault) =>
          .ok (found, ⟨TypeText.skipEntry 0 .outside (Text.skipBlanks value),
            issues ++ [⟨.constraintFault name fault.kind, fault.left⟩]⟩)
      | .error (.failure failure) => .error (.failure failure)
      | .ok (some v, after) => .ok (found.set name v, ⟨after, issues⟩)
      | .ok (none, after) =>
          .ok (found, ⟨TypeText.skipEntry 0 .outside after,
            issues ++ [⟨.notLiteral name, (Text.skipBlanks value).length⟩]⟩) := by
  rw [TypeExpr.readConstraint, hname.splitName hrest]
  dsimp only
  split
  · next heq => exact absurd (Prod.mk.inj heq).1 hname.ne_nil
  · next heq =>
      cases heq
      rw [String.ofList_toList, hcolon]
      rfl

section Reading

variable {stop : Char} (hstop : isEntryEnd stop = true)

include hstop

theorem noNameHead_append (hrest : NoNameHead rest) (more : List Char) :
    NoNameHead (rest ++ stop :: more) := by
  cases rest with
  | nil =>
      refine TypeExpr.noNameHead_cons ?_ more
      rw [isEntryEnd, Bool.or_eq_true, beq_iff_eq, beq_iff_eq] at hstop
      rcases hstop with rfl | rfl <;> decide
  | cons c rest => exact hrest

/-- A literal, blanks apart, is read up to the end of the entry. -/
theorem readLiteral_takes {v : Value}
    (h : Takes (fun text => Padded (LiteralText limit.toNat) text v) value []) (more : List Char) :
    ∃ left, TypeExpr.readLiteral limit limit.toNat (Text.skipBlanks value ++ stop :: more) =
      .ok (some v, left) ∧ Text.skipBlanks left = stop :: more := by
  obtain ⟨text, blanks, htext, hblanks, rfl⟩ := h
  obtain ⟨bare, hbare, hskip⟩ := htext.exists_bare (begins_literal limit.toNat)
  have hend : Text.skipBlanks (blanks ++ stop :: more) = stop :: more := by
    rw [hblanks.skipBlanks, TypeText.skipBlanks_cons (isBlank_of_isEntryEnd hstop)]
  obtain ⟨left, hleft, hrest⟩ :=
    readsValues_literal limit limit.toNat hbare
      ⟨stop, more, hend, isLiteralStop_of_isEntryEnd hstop⟩
  refine ⟨left, ?_, hrest.trans hend⟩
  rw [hskip, List.append_nil, List.append_assoc, hleft]

/-- A value is read in front of the end of its entry, or the skipping comes to that end, or a list
in it is nested too deep. -/
theorem readLiteral_cases (hvalue : Passes 0 0 value) (hentry : value? entry = some value)
    (hrecovers : Recovers limit entry) (more : List Char) :
    (∃ v text, TypeExpr.readLiteral limit limit.toNat (value ++ stop :: more) =
        .ok (some v, text ++ stop :: more) ∧ Passes 0 0 text ∧
        Takes (fun text => Padded (LiteralText limit.toNat) text v) value text) ∨
      (∃ after, TypeExpr.readLiteral limit limit.toNat (value ++ stop :: more) = .ok (none, after) ∧
        TypeText.skipEntry 0 .outside after = stop :: more) ∨
      ∃ f, TypeExpr.readLiteral limit limit.toNat (value ++ stop :: more) = .error (.fault f) ∧
        (stop :: more).length ≤ f.left ∧ f.left ≤ (value ++ stop :: more).length := by
  have hsplit : value ++ stop :: more = value ++ [stop] ++ more := by
    rw [List.append_assoc, List.singleton_append]
  have htracks : TypeExpr.TracksText more (value ++ [stop])
      (TypeExpr.readLiteral limit limit.toNat (value ++ [stop]))
      (TypeExpr.readLiteral limit limit.toNat (value ++ stop :: more)) :=
    hsplit ▸ TypeExpr.tracks_readLiteral limit limit.toNat (value ++ [stop])
  cases hread : TypeExpr.readLiteral limit limit.toNat (value ++ [stop]) with
  | ok r =>
      obtain ⟨v, rest⟩ := r
      cases v with
      | none =>
          have hskip := hrecovers.ends value stop rest hentry hstop hread
          have hne : rest ≠ [] := by
            rintro rfl
            cases hskip
          obtain ⟨after, hafter, hrest⟩ := htracks.ok none rest hread hne
          obtain rfl : after = rest ++ more := hrest
          refine .inr (.inl ⟨rest ++ more, hafter, ?_⟩)
          rw [TypeText.skipEntry_more (by rw [hskip]; exact List.cons_ne_nil _ _), hskip]
          rfl
      | some v =>
          obtain ⟨text, blanks, htext, hblanks, hcs⟩ := yieldsValues_literal limit _ hread
          have hbefore : Passes 0 0 (text ++ blanks) :=
            (htext.passes (passedOver_literal _) 0).append (passes_blanks hblanks 0)
          rw [← List.append_assoc] at hcs
          obtain ⟨left, rfl, rfl⟩ := hbefore.exists_left hvalue hstop hcs.symm
          obtain ⟨after, hafter, hrest⟩ := htracks.ok (some v) _ hread (by simp)
          obtain rfl : after = left ++ [stop] ++ more := hrest
          rw [List.append_assoc left, List.singleton_append] at hafter
          refine .inl ⟨v, left, hafter, hvalue.cancel hbefore, text, blanks, htext, hblanks, ?_⟩
          rw [List.append_assoc]
  | error e =>
      cases e with
      | failure e => exact absurd hread (hrecovers.reads value stop e hentry hstop)
      | fault f =>
          obtain ⟨-, f', hfault, -⟩ := htracks.fault f hread trivial
          obtain ⟨before, after, n, hcs, hleft, hpasses⟩ :=
            faultsAtBrackets_literal limit limit.toNat hfault
          obtain ⟨left, rfl, hopen⟩ := (hpasses 0 (Nat.le_refl 0)).exists_left hvalue hstop hcs.symm
          have hlength := congrArg List.length hopen
          refine .inr (.inr ⟨f', hfault, ?_⟩)
          simp only [List.length_append, List.length_cons] at hlength ⊢
          omega

end Reading

/-! ### What becomes of an entry -/

/-- The entry is read up to its end, whatever becomes of it. -/
def ReadsEntry (limit : Int) (entry tail : List Char) (found : Constraints)
    (issues : List TypeIssue) : Prop :=
  ∃ block new s,
    TypeExpr.readConstraint limit ⟨Text.skipBlanks entry ++ tail, issues⟩ found =
      .ok (found ++ block, s) ∧
    TypeExpr.endConstraint s = ⟨behindComma tail, issues ++ new⟩ ∧
    Outcome limit entry tail block new

theorem Within.longer {whole whole' : List Char} {issues : List TypeIssue}
    (h : Within tail whole issues) (hwhole : whole <:+ whole') : Within tail whole' issues :=
  fun issue hissue => ⟨(h issue hissue).1, (h issue hissue).2.trans hwhole.length_le⟩

theorem within_singleton {whole : List Char} {kind : TypeIssueKind} (htail : tail <:+ whole) :
    Within tail whole [⟨kind, whole.length⟩] :=
  List.forall_mem_singleton.mpr ⟨htail.length_le, Nat.le_refl _⟩

theorem passes_skipBlanks {cs : List Char} (h : Passes 0 0 cs) :
    Passes 0 0 (Text.skipBlanks cs) := by
  obtain ⟨blanks, hblanks, hsplit⟩ := Text.exists_skipBlanks cs
  rw [hsplit] at h
  exact h.cancel (passes_blanks hblanks 0)

theorem passes_head {head : List Char} (hname : IsIdentifier name)
    (hhead : Token name.toList head) : Passes 0 0 head := by
  obtain ⟨c, cs, hchars, hc, hcs⟩ := hname
  refine hhead.passes (.plains 0 fun d hd => Literal.isMark_of_isAtom ?_)
  refine TypeText.isAtom_of_isWordChar (TypeText.isWordChar_of_isNameChar ?_)
  rw [hchars] at hd
  rcases List.mem_cons.mp hd with rfl | hd
  · exact TypeText.isNameChar_of_isNameStart hc
  · exact hcs d hd

/-- What stands behind the colon is the end of the entry, and is passed over like the entry. -/
theorem value_suffix (hentry : Passes 0 0 entry) (h : named? entry = some (name, rest))
    (hcolon : Text.skipBlanks rest = ':' :: value) :
    Text.skipBlanks value <:+ entry ∧ Passes 0 0 (Text.skipBlanks value) := by
  obtain ⟨hname, -, head, htoken, rfl⟩ := exists_head h
  constructor
  · exact (Text.skipBlanks_suffix value).trans <| (List.suffix_cons ':' value).trans <|
      hcolon ▸ (Text.skipBlanks_suffix rest).trans (List.suffix_append _ _)
  · have hrest := passes_skipBlanks (hentry.cancel (passes_head hname htoken))
    rw [hcolon] at hrest
    have hchar : Passes 0 0 [':'] := .plain 0 (by decide)
    exact passes_skipBlanks (Passes.cancel (show Passes 0 0 ([':'] ++ value) from hrest) hchar)

section Outcomes

variable {stop : Char} (hstop : isEntryEnd stop = true) (hentry : Passes 0 0 entry)

include hstop hentry

theorem readsEntry_nameless (hblank : ¬ AllBlank entry) (h : named? entry = none) (more : List Char)
    (found : Constraints) (issues : List TypeIssue) :
    ReadsEntry limit entry (stop :: more) found issues := by
  obtain ⟨c, cs, hbare⟩ := List.exists_cons_of_ne_nil (mt skipBlanks_eq_nil.mp hblank)
  have hskip := hbare ▸ passes_skipBlanks hentry (stop :: more)
  rw [TypeText.skipEntry_end hstop] at hskip
  refine ⟨[], [⟨.expectedConstraintName (some c), (c :: cs ++ stop :: more).length⟩], _, ?_,
    endConstraint_stop hstop more _, ?_⟩
  · rw [hbare, readConstraint_nameless limit h found issues hbare, hskip, List.append_nil]
  · refine ⟨fun name v hwritten => ?_, fun _ => List.cons_ne_nil _ _, .inl rfl, ?_⟩
    · obtain ⟨rest, hnamed, -⟩ := hwritten.exists_named
      rw [h] at hnamed
      cases hnamed
    · refine (within_singleton (List.suffix_append _ _)).longer ?_
      rw [← hbare]
      exact append_suffix (Text.skipBlanks_suffix entry) _

variable (h : named? entry = some (name, rest)) {found : Constraints}

include h

omit hentry in
theorem readConstraint_entry (hcolon : Text.skipBlanks rest = ':' :: value) (more : List Char)
    (found : Constraints) (issues : List TypeIssue) :
    TypeExpr.readConstraint limit ⟨Text.skipBlanks entry ++ stop :: more, issues⟩ found =
      match TypeExpr.readLiteral limit limit.toNat (Text.skipBlanks value ++ stop :: more) with
      | .error (.fault fault) =>
          .ok (found, ⟨TypeText.skipEntry 0 .outside (Text.skipBlanks value ++ stop :: more),
            issues ++ [⟨.constraintFault name fault.kind, fault.left⟩]⟩)
      | .error (.failure failure) => .error (.failure failure)
      | .ok (some v, after) => .ok (found.set name v, ⟨after, issues⟩)
      | .ok (none, after) =>
          .ok (found, ⟨TypeText.skipEntry 0 .outside after,
            issues ++ [⟨.notLiteral name, (Text.skipBlanks value ++ stop :: more).length⟩]⟩) := by
  obtain ⟨hname, hhead, head, htoken, rfl⟩ := exists_head h
  have hblank := isBlank_of_isEntryEnd hstop
  have hcolon' : Text.skipBlanks (rest ++ stop :: more) = ':' :: (value ++ stop :: more) := by
    rw [skipBlanks_append hblank, hcolon]
    rfl
  rw [htoken.skipBlanks_name hname, List.append_assoc, ← skipBlanks_append hblank value,
    readConstraint_colon limit hname (noNameHead_append hstop hhead more) hcolon']

omit hentry in
/-- A literal that the entry writes is the one that is read. -/
theorem EntryText.readLiteral (hcolon : Text.skipBlanks rest = ':' :: value) {key : String}
    {v : Value} (hwritten : EntryText limit entry key v) (more : List Char) : key = name ∧
      ∃ left, TypeExpr.readLiteral limit limit.toNat (Text.skipBlanks value ++ stop :: more) =
        .ok (some v, left) ∧ Text.skipBlanks left = stop :: more := by
  obtain ⟨rest', hnamed, hcases⟩ := hwritten.exists_named
  cases h.symm.trans hnamed
  rcases hcases with ⟨hblanks, -⟩ | ⟨value', heq, htakes⟩
  · rw [skipBlanks_eq_nil.mpr hblanks] at hcolon
    cases hcolon
  · cases hcolon.symm.trans heq
    exact ⟨rfl, readLiteral_takes hstop htakes more⟩

variable (hnew : Named.has found name = false)

include hnew

theorem readsEntry_flag (hcolon : ∀ value, Text.skipBlanks rest ≠ ':' :: value) (more : List Char)
    (issues : List TypeIssue) : ReadsEntry limit entry (stop :: more) found issues := by
  obtain ⟨hname, hhead, head, htoken, rfl⟩ := exists_head h
  have hrest : Passes 0 0 rest := hentry.cancel (passes_head hname htoken)
  have hcolon' (value : List Char) : Text.skipBlanks (rest ++ stop :: more) ≠ ':' :: value := by
    rw [skipBlanks_append (isBlank_of_isEntryEnd hstop)]
    cases hbare : Text.skipBlanks rest with
    | nil =>
        intro heq
        obtain ⟨rfl, -⟩ := List.cons.inj heq
        cases hstop
    | cons c cs => exact fun heq => hcolon cs (hbare.trans (by rw [(List.cons.inj heq).1]))
  obtain ⟨new, hend, hblank, hwithin⟩ := endConstraint_passes hstop hrest more issues
  refine ⟨[(name, .bool true)], new, ⟨Text.skipBlanks (rest ++ stop :: more), issues⟩, ?_,
    (endConstraint_skipBlanks _ _).trans hend, ?_⟩
  · rw [htoken.skipBlanks_name hname, List.append_assoc,
      readConstraint_flag limit hname (noNameHead_append hstop hhead more) hcolon',
      Named.set_of_not_has _ hnew]
  · refine ⟨fun key v hwritten => ?_, fun hnot hnil => ?_, .inr ⟨name, _, ?_, rfl⟩, ?_⟩
    · obtain ⟨rest', hnamed, hcases⟩ := hwritten.exists_named
      cases h.symm.trans hnamed
      rcases hcases with ⟨hblanks, rfl⟩ | ⟨value, heq, -⟩
      · exact ⟨rfl, hblank.mpr hblanks⟩
      · exact absurd heq (hcolon value)
    · exact hnot _ _ (entryText_flag h (hblank.mp hnil))
    · rw [leadingName, h]
      rfl
    · rw [List.append_assoc]
      exact hwithin.longer (List.suffix_append _ _)

theorem readsEntry_value (hcolon : Text.skipBlanks rest = ':' :: value)
    (hrecovers : Recovers limit entry) (more : List Char) (issues : List TypeIssue) :
    ReadsEntry limit entry (stop :: more) found issues := by
  obtain ⟨hsuffix, hpasses⟩ := value_suffix hentry h hcolon
  have htail : Text.skipBlanks value ++ stop :: more <:+ entry ++ stop :: more :=
    append_suffix hsuffix _
  rw [ReadsEntry, readConstraint_entry hstop h hcolon]
  rcases readLiteral_cases hstop hpasses (value?_eq h hcolon) hrecovers more with
    ⟨v, text, hliteral, htext, htakes⟩ | ⟨after, hliteral, hskip⟩ | ⟨f, hliteral, hf⟩
  · obtain ⟨new, hend, hleft, hwithin⟩ := endConstraint_passes hstop htext more issues
    refine ⟨[(name, v)], new, ⟨text ++ stop :: more, issues⟩, ?_, hend, ?_⟩
    · simp only [hliteral, Named.set_of_not_has _ hnew]
    · refine ⟨fun key v' hwritten => ?_, fun hnot hnil => ?_, .inr ⟨name, v, ?_, rfl⟩, ?_⟩
      · obtain ⟨rfl, left, hread, hrest⟩ := hwritten.readLiteral hstop h hcolon more
        cases hliteral.symm.trans hread
        rw [skipBlanks_append (isBlank_of_isEntryEnd hstop)] at hrest
        exact ⟨rfl, hleft.mpr (skipBlanks_eq_nil.mp (List.append_left_eq_self.mp hrest))⟩
      · obtain ⟨literal, blanks, hpadded, hblanks, hvalue⟩ := htakes
        refine hnot name v (entryText_value h hcolon (takes_skipped
          ⟨literal, blanks ++ text, hpadded, hblanks.append (hleft.mp hnil), ?_⟩
          fun _ _ hblanks htext => htext.prepend hblanks))
        rw [List.append_nil]
        exact hvalue
      · rw [leadingName, h]
        rfl
      · exact hwithin.longer (append_suffix (htakes.suffix.trans hsuffix) _)
  · refine ⟨[], [⟨.notLiteral name, (Text.skipBlanks value ++ stop :: more).length⟩],
      ⟨stop :: more, _⟩, ?_, endConstraint_stop hstop more _, ?_⟩
    · simp only [hliteral, hskip, List.append_nil]
    · refine ⟨fun key v hwritten => ?_, fun _ => List.cons_ne_nil _ _, .inl rfl,
        (within_singleton (List.suffix_append _ _)).longer htail⟩
      obtain ⟨-, left, hread, -⟩ := hwritten.readLiteral hstop h hcolon more
      cases hliteral.symm.trans hread
  · refine ⟨[], [⟨.constraintFault name f.kind, f.left⟩], ⟨stop :: more, _⟩, ?_,
      endConstraint_stop hstop more _, ?_⟩
    · have hskip := hpasses (stop :: more)
      rw [TypeText.skipEntry_end hstop] at hskip
      simp only [hliteral, hskip, List.append_nil]
    · refine ⟨fun key v hwritten => ?_, fun _ => List.cons_ne_nil _ _, .inl rfl,
        List.forall_mem_singleton.mpr ⟨hf.1, hf.2.trans htail.length_le⟩⟩
      obtain ⟨-, left, hread, -⟩ := hwritten.readLiteral hstop h hcolon more
      cases hliteral.symm.trans hread

end Outcomes

theorem readsEntry {stop : Char} (hstop : isEntryEnd stop = true) (hentry : Balanced false entry)
    (hblank : ¬ AllBlank entry) (hrecovers : Recovers limit entry) {found : Constraints}
    (hnew : ∀ name, leadingName entry = some name → Named.has found name = false)
    (more : List Char) (issues : List TypeIssue) :
    ReadsEntry limit entry (stop :: more) found issues := by
  have hpasses : Passes 0 0 entry := hentry.passes 0 nofun
  cases h : named? entry with
  | none => exact readsEntry_nameless hstop hpasses hblank h more found issues
  | some r =>
      obtain ⟨name, rest⟩ := r
      have hnew : Named.has found name = false := hnew name (by rw [leadingName, h]; rfl)
      by_cases hcolon : ∃ value, Text.skipBlanks rest = ':' :: value
      · obtain ⟨value, hcolon⟩ := hcolon
        exact readsEntry_value hstop hpasses h hnew hcolon hrecovers more issues
      · exact readsEntry_flag hstop hpasses h hnew (not_exists.mp hcolon) more issues

end AppSpec.TypeGrammar
