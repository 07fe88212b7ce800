import AppSpec.Proofs.TypeExpr.Place

/-!
The repetitions of a type's text: each is given so many steps that it never runs out of them, since
each pass takes something of the text. With that, how reading a text comes out: a type with what is
wrong in its constraints, or one fault and no type.
-/

namespace AppSpec

theorem bind_congr_ok {ε α β : Type} {x : Except ε α} {f g : α → Except ε β}
    (h : ∀ a, x = .ok a → f a = g a) : (x >>= f) = (x >>= g) := by
  cases x with
  | error e => rfl
  | ok a => exact h a rfl

namespace TypeExpr

variable {σ ρ : Type} {enough : σ → Nat} {loop : Nat → σ → ρ}

/-- From a number of steps on that depends on the state alone, more of them make no difference. -/
def Settles (enough : σ → Nat) (loop : Nat → σ → ρ) : Prop :=
  ∀ s steps, enough s ≤ steps → loop steps s = loop (enough s) s

theorem Settles.of_succ (h : ∀ steps s, enough s ≤ steps → loop (steps + 1) s = loop steps s) :
    Settles enough loop := by
  intro s steps hsteps
  induction steps, hsteps using Nat.le_induction with
  | base => rfl
  | succ steps hsteps ih => rw [h steps s hsteps, ih]

/-! ### Blocks -/

section

variable {limit : Int} {openLeft : Nat} {s : TypeCursor}

/-- One pass over a block: its end, or an entry and what is left behind it. -/
def blockPass (limit : Int) (openLeft : Nat) (s : TypeCursor) (found : Constraints) :
    Except TypeStop (ForInStep (Constraints × TypeCursor)) :=
  let s := s.skipBlanks
  match s.rest with
  | '\x7d' :: rest => .ok (.done (found, { s with rest }))
  | _ :: _ => do
      let (found, s) ← readConstraint limit s found
      return .yield (found, endConstraint s)
  | [] => .ok (.done (found, s.note .unclosedBlock openLeft))

theorem readBlock_succ (limit : Int) (openLeft steps : Nat) (s : TypeCursor) (found : Constraints) :
    readBlock limit openLeft (steps + 1) s found =
      blockPass limit openLeft s found >>= fun
        | .done r => .ok r
        | .yield r => readBlock limit openLeft steps r.2 r.1 := by
  rw [readBlock.eq_def, blockPass]
  dsimp only
  generalize s.skipBlanks = t
  obtain ⟨cs, issues⟩ := t
  rcases cs with _ | ⟨c, cs⟩
  · rfl
  by_cases hc : c = '\x7d'
  · subst hc
    rfl
  · split
    · next heq => exact absurd (List.cons.inj heq).1 hc
    · next heq hsteps =>
        cases heq
        cases hsteps
        split
        · next heq => exact absurd (List.cons.inj heq).1 hc
        · cases readConstraint limit ⟨c :: cs, issues⟩ found <;> rfl
        · next heq => cases heq
    · next hnone => exact absurd rfl (hnone c cs steps rfl)

theorem blockPass_advances {found : Constraints} {r : Constraints × TypeCursor}
    (h : blockPass limit openLeft s found = .ok (.yield r)) :
    r.2.rest <:+ s.rest ∧ r.2.left < s.left := by
  have hskip := skipBlanks_suffix s
  unfold blockPass at h
  dsimp only at h
  generalize s.skipBlanks = t at h hskip
  obtain ⟨cs, issues⟩ := t
  split at h
  · cases h
  · next c cs hother heq =>
      obtain rfl : _ = c :: cs := heq
      obtain ⟨⟨found', e⟩, hentry, h⟩ := bind_eq_ok.mp h
      cases h
      have hconsumed := readConstraint_consumes hother hentry
      exact ⟨(hconsumed.trans (List.suffix_cons _ _)).trans hskip,
        (Nat.lt_succ_of_le hconsumed.length_le).trans_le hskip.length_le⟩
  · cases h

theorem readBlock_settles (limit : Int) (openLeft : Nat) (found : Constraints) :
    Settles TypeCursor.left fun steps s => readBlock limit openLeft steps s found := by
  refine .of_succ fun steps s h => ?_
  induction steps generalizing s found with
  | zero =>
      have hnil : s.skipBlanks.rest = [] := by
        rw [TypeCursor.skipBlanks, List.length_eq_zero_iff.mp (Nat.le_zero.mp h)]
        rfl
      unfold readBlock
      dsimp only
      rw [hnil]
  | succ steps ih =>
      rw [readBlock_succ, readBlock_succ]
      refine bind_congr_ok fun r hr => ?_
      cases r with
      | done r => rfl
      | yield r =>
          have hadvance := (blockPass_advances hr).2
          exact ih r.1 r.2 (by omega)

theorem readSuffixes_settles (limit : Int) (depth : Nat) (t : TypeExpr) :
    Settles TypeCursor.left fun steps => readSuffixes limit steps depth t := by
  refine .of_succ fun steps s h => ?_
  induction steps generalizing depth t s with
  | zero =>
      have hnil : s.skipBlanks.rest = [] := by
        rw [TypeCursor.skipBlanks, List.length_eq_zero_iff.mp (Nat.le_zero.mp h)]
        rfl
      unfold readSuffixes
      dsimp only
      rw [hnil]
  | succ steps ih =>
      have hskip := (skipBlanks_suffix s).length_le
      have hleft : s.skipBlanks.rest.length ≤ steps + 1 := hskip.trans h
      rw [readSuffixes.eq_def, readSuffixes.eq_def limit (steps + 1)]
      dsimp only
      generalize s.skipBlanks = e at hleft
      obtain ⟨cs, issues⟩ := e
      rcases cs with _ | ⟨c, cs⟩
      · rfl
      dsimp only at hleft ⊢
      rw [List.length_cons] at hleft
      by_cases hmark : c = '?'
      · subst hmark
        cases depth with
        | zero => rfl
        | succ depth => exact ih depth _ ⟨cs, issues⟩ (Nat.le_of_succ_le_succ hleft)
      by_cases hbrace : c = '\x7b'
      · subst hbrace
        refine bind_congr_ok ?_
        rintro ⟨block, e⟩ hblock
        have hrest := (readBlock_suffix (s := ⟨cs, issues⟩) (Nat.le_succ _) hblock).length_le
        exact ih depth _ e (hrest.trans (Nat.le_of_succ_le_succ hleft))
      · split
        · next heq _ => exact absurd (List.cons.inj heq).1 hmark
        · next heq _ => exact absurd (List.cons.inj heq).1 hbrace
        · split
          · next heq _ => exact absurd (List.cons.inj heq).1 hmark
          · next heq _ => exact absurd (List.cons.inj heq).1 hbrace
          · rfl

end

/-! ### Lists -/

section

variable {item : TypeReader TypeExpr} (hitem : Bounded item)

include hitem

theorem readArguments_settles : Settles (TypeCursor.left · + 1) (readArguments item) := by
  refine .of_succ fun steps s h => ?_
  induction steps generalizing s with
  | zero => exact absurd h (Nat.not_succ_le_zero _)
  | succ steps ih =>
      rw [readArguments, readArguments]
      refine bind_congr_ok ?_
      rintro ⟨t, e⟩ hread
      have hleft := ((skipBlanks_suffix e).trans (hitem.onward hread).suffix).length_le
      dsimp only
      split
      · next rest hcomma =>
          rw [hcomma, List.length_cons] at hleft
          rw [ih ⟨rest, _⟩ (Nat.le_of_succ_le_succ ((Nat.succ_le_succ hleft).trans h))]
      · rfl

theorem readFields_settles (found : List (String × TypeExpr)) :
    Settles (TypeCursor.left · + 1) fun steps => readFields item steps found := by
  refine .of_succ fun steps s h => ?_
  induction steps generalizing s found with
  | zero => exact absurd h (Nat.not_succ_le_zero _)
  | succ steps ih =>
      rw [readFields, readFields]
      have hname := (TypeText.splitName_suffix _).trans (skipBlanks_suffix s)
      dsimp only
      split
      · rfl
      · next name rest _ hsplit =>
          rw [hsplit] at hname
          refine bind_congr_ok fun e hcolon => bind_congr_ok ?_
          rintro ⟨t, b⟩ hread
          have hfront := (hitem.onward hread).suffix.trans ((expect_suffix hcolon).trans hname)
          have hleft := ((skipBlanks_suffix b).trans hfront).length_le
          dsimp only
          split
          · rfl
          · split
            · next rest hcomma =>
                rw [hcomma, List.length_cons] at hleft
                exact ih _ ⟨rest, _⟩ (Nat.le_of_succ_le_succ ((Nat.succ_le_succ hleft).trans h))
            · rfl

end

theorem readEnumValues_settles (found : List String) :
    Settles (TypeCursor.left · + 1) fun steps => readEnumValues steps found := by
  refine .of_succ fun steps s h => ?_
  induction steps generalizing s found with
  | zero => exact absurd h (Nat.not_succ_le_zero _)
  | succ steps ih =>
      rw [readEnumValues, readEnumValues]
      refine bind_congr_ok ?_
      rintro ⟨text, rest⟩ hread
      have hvalue := ends_readEnumValue (s := s.skipBlanks) le_rfl
      rw [hread] at hvalue
      have hrest : rest <:+ s.rest := hvalue.trans (skipBlanks_suffix s)
      have hleft := ((Text.skipBlanks_suffix rest).trans hrest).length_le
      dsimp only
      split
      · next rest hcomma =>
          rw [hcomma, List.length_cons] at hleft
          exact ih _ ⟨rest, _⟩ (Nat.le_of_succ_le_succ ((Nat.succ_le_succ hleft).trans h))
      · rfl

theorem readItems_settles {item : LiteralReader} (hitem : BoundedText item) :
    Settles (List.length · + 1) (readItems item) := by
  refine .of_succ fun steps cs h => ?_
  induction steps generalizing cs with
  | zero => exact absurd h (Nat.not_succ_le_zero _)
  | succ steps ih =>
      rw [readItems, readItems]
      refine bind_congr_ok ?_
      rintro ⟨value, rest⟩ hread
      have hvalue := hitem _ (Text.skipBlanks cs) le_rfl
      rw [hread] at hvalue
      have hrest : rest <:+ cs := hvalue.trans (Text.skipBlanks_suffix cs)
      have hleft := ((Text.skipBlanks_suffix rest).trans hrest).length_le
      cases value with
      | none => rfl
      | some value =>
          dsimp only
          split
          · next after hcomma =>
              rw [hcomma, List.length_cons] at hleft
              rw [ih after (Nat.le_of_succ_le_succ ((Nat.succ_le_succ hleft).trans h))]
          · rfl
          · rfl

/-- No repetition is ever cut short: each is given at least so many steps by whom it is started. -/
structure StepsSuffice (limit : Int) : Prop where
  block (openLeft : Nat) (found : Constraints) :
    Settles TypeCursor.left fun steps s => readBlock limit openLeft steps s found
  suffixes (depth : Nat) (t : TypeExpr) :
    Settles TypeCursor.left fun steps => readSuffixes limit steps depth t
  arguments (levels : Nat) :
    Settles (TypeCursor.left · + 1) (readArguments (readType limit levels))
  fields (levels : Nat) (found : List (String × TypeExpr)) :
    Settles (TypeCursor.left · + 1) fun steps => readFields (readType limit levels) steps found
  enumValues (found : List String) :
    Settles (TypeCursor.left · + 1) fun steps => readEnumValues steps found
  items (depth : Nat) : Settles (List.length · + 1) (readItems (readLiteral limit depth))

theorem stepsSuffice (limit : Int) : StepsSuffice limit where
  block := readBlock_settles limit
  suffixes := readSuffixes_settles limit
  arguments levels := readArguments_settles (bounded_readType limit levels)
  fields levels := readFields_settles (bounded_readType limit levels)
  enumValues := readEnumValues_settles
  items depth := readItems_settles (bounded_readLiteral limit depth)

/-- How a text that is so long comes out: without a type and with one fault, or with a type and its
issues. -/
structure Outcome (length : Nat) (r : TypeReading) : Prop where
  shape : (r.expression = none ∧
      ∃ d, r.diagnostics = [d] ∧ d.category = .syntaxError ∧ d.severity = .error) ∨
    (∃ t, r.expression = some t) ∧
      ∀ d ∈ r.diagnostics, d.category = .schema ∧ d.severity = .error
  columns : ∀ d ∈ r.diagnostics, ∃ column : Nat,
    d.location.column = some (column : Int) ∧ 1 ≤ column ∧ column ≤ length + 1

theorem columnAt_bounds (total left : Nat) :
    1 ≤ columnAt total left ∧ columnAt total left ≤ total + 1 := by
  unfold columnAt
  omega

theorem outcome_ofFault (path text : String) (length : Nat) (fault : TypeFault) :
    Outcome length (TypeReading.ofFault path text length fault) where
  shape := .inl ⟨rfl, _, rfl, rfl, rfl⟩
  columns := List.forall_mem_singleton.mpr ⟨_, rfl, columnAt_bounds length fault.left⟩

theorem outcome_ofIssues (path text : String) (length : Nat) (t : TypeExpr)
    (issues : List TypeIssue) :
    Outcome length ⟨some t, issues.map (TypeReading.ofIssue path text length)⟩ where
  shape := .inr ⟨⟨t, rfl⟩, List.forall_mem_map.mpr fun _ _ => ⟨rfl, rfl⟩⟩
  columns := List.forall_mem_map.mpr fun issue _ => ⟨_, rfl, columnAt_bounds length issue.left⟩

/-- Reading a text comes to an end without any repetition being cut short: a pass over a block
returns or leaves less of the text, no reader goes back or beyond the end of the text, and the
result is a type with its issues, or one fault, each at a place of the text. -/
theorem parse_outcome {text : String} (path : String) (limit : Int)
    (h : ¬ Text.HasLongNumber text.toList) :
    StepsSuffice limit ∧
    (∀ openLeft steps s found, readBlock limit openLeft (steps + 1) s found =
      blockPass limit openLeft s found >>= fun
        | .done r => .ok r
        | .yield r => readBlock limit openLeft steps r.2 r.1) ∧
    (∀ openLeft s found r, blockPass limit openLeft s found = .ok (.yield r) →
      r.2.rest <:+ s.rest ∧ r.2.left < s.left) ∧
    (∀ levels, Bounded (readType limit levels)) ∧
    AppSpec.Ends (StopsWithin text.length) (fun r => ∀ issue ∈ r.2, issue.left ≤ text.length)
      (readWhole limit text.toList) ∧
    ∃ r, parse text path limit = .ok r ∧ Outcome text.length r := by
  refine ⟨stepsSuffice limit, readBlock_succ limit, fun _ _ _ _ => blockPass_advances,
    bounded_readType limit, String.length_toList ▸ readWhole_within limit text.toList, ?_⟩
  unfold parse
  dsimp only
  rw [← String.length_toList]
  cases hread : readWhole limit text.toList with
  | ok r => exact ⟨_, rfl, outcome_ofIssues path text _ r.1 r.2⟩
  | error stop =>
      cases stop with
      | fault fault => exact ⟨_, rfl, outcome_ofFault path text _ fault⟩
      | failure e => exact absurd (hasLongNumber_of_readWhole hread) h

/-- Entries without a name, one without its colon, and a block that is never closed. -/
theorem parse_outcome_garbled :
    ¬ Text.HasLongNumber "int \x7b: ,, min 5 ?".toList ∧
      (∃ r, blockPass 1 13 ⟨": ,, min 5 ?".toList, []⟩ [] = .ok (.yield r) ∧
        r.2.rest = ", min 5 ?".toList ∧ r.2.left < 12) ∧
      ∃ r, parse "int \x7b: ,, min 5 ?" "" 1 = .ok r ∧ Outcome 17 r := by
  have hshort : ¬ Text.HasLongNumber "int \x7b: ,, min 5 ?".toList :=
    Text.not_hasLongNumber (by decide)
  obtain ⟨-, -, hadvance, -, -, hparse⟩ := parse_outcome "" 1 hshort
  refine ⟨hshort, ⟨_, by cbv, by cbv, ?_⟩, hparse⟩
  exact (hadvance 13 ⟨": ,, min 5 ?".toList, []⟩ [] _ (by cbv)).2

end TypeExpr

end AppSpec
