import AppSpec.Json.Reader
import AppSpec.Proofs.TypeExpr.Tracks

/-!
Reading JSON fails only at a number that is too long, and such a number stands in the text.
-/

namespace AppSpec.Json

/-- A stop in reading a text: a fault, or a number in it that is too long. -/
structure Stop.StandsIn (cs : List Char) (stop : Stop) : Prop where
  failure : ∀ f, stop = .failure f → f = .integerTooLong ∧ Text.HasLongNumber cs

variable {α : Type} {cs ds : List Char}

theorem Stop.StandsIn.of_suffix {stop : Stop} (h : stop.StandsIn ds) (hds : ds <:+ cs) :
    stop.StandsIn cs :=
  ⟨fun f hf => (h.failure f hf).imp_right fun hlong => hlong.of_isInfix hds.isInfix⟩

/-- What a reading leaves over stands at the end of what it was given. -/
structure Leaves (rest : α → List Char) (cs : List Char) (x : Except Stop α) : Prop where
  ends : Ends (Stop.StandsIn cs) (fun a => rest a <:+ cs) x

namespace Leaves

variable {β : Type} {rest : α → List Char} {left : β → List Char} {x : Except Stop α}

theorem ok {a : α} (h : rest a <:+ cs) : Leaves rest cs (.ok a) := ⟨h⟩

theorem fault {f : Fault} : Leaves rest cs (.error (.fault f)) := ⟨⟨nofun⟩⟩

theorem expecting {cause : Cause} : Leaves rest cs (Json.expecting cause ds) := fault

theorem of_suffix (h : Leaves rest ds x) (hds : ds <:+ cs) : Leaves rest cs x :=
  ⟨h.ends.mono (fun _ he => he.of_suffix hds) fun _ ha => ha.trans hds⟩

theorem bind {f : α → Except Stop β} (hx : Leaves rest cs x)
    (hf : ∀ a, Leaves left (rest a) (f a)) : Leaves left cs (x >>= f) :=
  ⟨hx.ends.bind fun a ha => ((hf a).of_suffix ha).ends⟩

end Leaves

theorem skip_suffix (cs : List Char) : skip cs <:+ cs := List.dropWhile_suffix _

theorem suffix_of_skip {c : Char} {rest : List Char} (h : skip cs = c :: rest) : rest <:+ cs :=
  (List.suffix_cons c rest).trans (h ▸ skip_suffix cs)

/-! ### Quoted text -/

theorem leaves_codeUnit : Leaves (fun _ => cs) cs (codeUnit cs) := by
  rw [codeUnit]
  split
  · exact .ok (List.suffix_refl _)
  · exact .fault

theorem leaves_lowHalf? : Leaves (fun _ => cs) cs (lowHalf? cs) := by
  rw [lowHalf?.eq_def]
  split
  · next ds =>
      have hds : ds <:+ '\\' :: 'u' :: ds := (List.suffix_cons ..).trans (List.suffix_cons ..)
      split
      · exact .ok (List.suffix_refl _)
      · exact ⟨Ends.bind (leaves_codeUnit.of_suffix hds).ends fun _ _ => List.suffix_refl _⟩
  · exact .ok (List.suffix_refl _)

theorem leaves_codePoint (cs : List Char) : Leaves Prod.snd cs (codePoint cs) := by
  rw [codePoint]
  refine leaves_codeUnit.bind fun unit => ?_
  have hdrop : cs.drop 4 <:+ cs := List.drop_suffix ..
  dsimp only
  split
  · refine .of_suffix (leaves_lowHalf?.bind fun low => ?_) hdrop
    split
    · exact .ok (List.drop_suffix ..)
    · exact .ok (List.suffix_refl _)
  · exact .ok hdrop

theorem leaves_readText (start steps : Nat) (cs done : List Char) :
    Leaves Prod.snd cs (readText start steps cs done) := by
  induction steps generalizing cs done with
  | zero => exact .fault
  | succ steps ih =>
      rw [readText.eq_def]
      dsimp only
      split
      · exact .fault
      · exact .ok (List.suffix_cons ..)
      · exact .fault
      · next rest =>
          have hrest : rest <:+ '\\' :: 'u' :: rest :=
            (List.suffix_cons ..).trans (List.suffix_cons ..)
          exact .of_suffix ((leaves_codePoint rest).bind fun _ => ih ..) hrest
      · next rest _ _ =>
          split
          · exact (ih ..).of_suffix ((List.suffix_cons ..).trans (List.suffix_cons ..))
          · exact .fault
      · split
        · exact .fault
        · exact (ih ..).of_suffix (List.suffix_cons ..)

theorem leaves_text (cs : List Char) : Leaves Prod.snd cs (text cs) := leaves_readText ..

/-! ### Numbers -/

theorem afterDigits_suffix (cs : List Char) : afterDigits cs <:+ cs := List.dropWhile_suffix _

theorem isAsciiDigit_of_mem_digits {c : Char} (hc : c ∈ digits cs) :
    Literal.isAsciiDigit c = true := by
  rw [digits] at hc
  exact List.mem_takeWhile_imp hc

theorem wholeDigits_append (cs : List Char) : (wholeDigits cs).1 ++ (wholeDigits cs).2 = cs := by
  rw [wholeDigits.eq_def]
  split
  · rfl
  · exact digits_append_afterDigits _

theorem isAsciiDigit_of_mem_wholeDigits {c : Char} (hc : c ∈ (wholeDigits cs).1) :
    Literal.isAsciiDigit c = true := by
  rw [wholeDigits.eq_def] at hc
  split at hc
  · obtain rfl := List.mem_singleton.mp hc
    decide
  · exact isAsciiDigit_of_mem_digits hc

theorem decimals_suffix (cs : List Char) : (decimals cs).2 <:+ cs := by
  rw [decimals.eq_def]
  split
  · split
    · exact List.suffix_refl _
    · exact (afterDigits_suffix _).trans (List.suffix_cons ..)
  · exact List.suffix_refl _

theorem exponent_suffix (cs : List Char) : (exponent cs).2 <:+ cs := by
  rw [exponent.eq_def]
  split
  · exact List.suffix_refl _
  · next e cs =>
      dsimp only
      split
      · exact (afterDigits_suffix _).trans
          ((Numeral.splitSign_suffix cs).trans (List.suffix_cons ..))
      · exact List.suffix_refl _

theorem scalar_numeral_eq_error {negative : Bool} {whole places : List Char} {power : Option Int}
    {f : Failure} (h : (numeral negative whole places power).scalar = .error f) :
    f = .integerTooLong ∧ Text.maxIntegerDigits < whole.length := by
  rw [numeral.eq_def] at h
  split at h
  · cases h
  · split at h
    · rw [Numeral.scalar] at h
      split at h
      · next hlong =>
          cases h
          exact ⟨rfl, hlong⟩
      · cases h
    · cases h

/-- A number behind its sign. -/
theorem leaves_unsigned {negative : Bool} (hds : ds <:+ cs) :
    Leaves Reading.rest cs
      (if (wholeDigits ds).1.isEmpty then Json.expecting .value cs
      else
        match (numeral negative (wholeDigits ds).1 (decimals (wholeDigits ds).2).1
          (exponent (decimals (wholeDigits ds).2).2).1).scalar with
        | .ok s => .ok ⟨.scalar s, [], (exponent (decimals (wholeDigits ds).2).2).2⟩
        | .error f => .error (.failure f)) := by
  have hwhole := wholeDigits_append ds
  split
  · exact .expecting
  · split
    · have hrest : (wholeDigits ds).2 <:+ ds := ⟨_, hwhole⟩
      exact .ok ((exponent_suffix _).trans ((decimals_suffix _).trans (hrest.trans hds)))
    · next hscalar =>
        obtain ⟨rfl, hlong⟩ := scalar_numeral_eq_error hscalar
        have hrun : (wholeDigits ds).1 <+: ds := ⟨_, hwhole⟩
        have hfound := Text.hasLongNumber_of_ascii (hrun.isInfix.trans hds.isInfix)
          (fun _ => isAsciiDigit_of_mem_wholeDigits) hlong
        refine ⟨⟨fun f hf => ?_⟩⟩
        cases hf
        exact ⟨rfl, hfound⟩

theorem leaves_number (cs : List Char) : Leaves Reading.rest cs (number cs) := by
  rw [number.eq_def]
  dsimp only
  split
  · exact leaves_unsigned (List.suffix_cons ..)
  · exact leaves_unsigned (List.suffix_refl _)

theorem leaves_scalar (cs : List Char) : Leaves Reading.rest cs (scalar cs) := by
  rw [scalar]
  split
  · exact .ok (List.drop_suffix ..)
  · exact leaves_number cs

/-! ### Objects and arrays -/

theorem leaves_memberName (cs : List Char) : Leaves Prod.snd cs (memberName cs) := by
  rw [memberName.eq_def]
  split
  · refine .of_suffix ((leaves_text _).bind fun named => ?_) (List.suffix_cons ..)
    dsimp only
    split
    · next hskip => exact .ok ((skip_suffix _).trans (suffix_of_skip hskip))
    · exact .expecting
  · exact .expecting

/-- What reading values, members and items leaves over, in such a number of steps. -/
structure LeavesAt (steps : Nat) : Prop where
  value : ∀ cs, Leaves Reading.rest cs (value steps cs)
  members : ∀ cs done repeated, Leaves Reading.rest cs (members steps cs done repeated)
  items : ∀ cs done repeated, Leaves Reading.rest cs (items steps cs done repeated)

variable {steps : Nat}

theorem LeavesAt.value_succ (h : LeavesAt steps) (cs : List Char) :
    Leaves Reading.rest cs (Json.value (steps + 1) cs) := by
  rw [Json.value.eq_def]
  split
  · exact .expecting
  · exact .of_suffix ((leaves_text _).bind fun _ => .ok (List.suffix_refl _)) (List.suffix_cons ..)
  · next heq =>
      cases heq
      split
      · next hskip => exact .ok ((suffix_of_skip hskip).trans (List.suffix_cons ..))
      · exact (h.members ..).of_suffix ((skip_suffix _).trans (List.suffix_cons ..))
  · next heq =>
      cases heq
      split
      · next hskip => exact .ok ((suffix_of_skip hskip).trans (List.suffix_cons ..))
      · exact (h.items ..).of_suffix ((skip_suffix _).trans (List.suffix_cons ..))
  · exact leaves_scalar _

theorem LeavesAt.members_succ (h : LeavesAt steps) (cs : List Char) (done : List (String × Value))
    (repeated : List String) : Leaves Reading.rest cs (Json.members (steps + 1) cs done repeated) := by
  rw [Json.members]
  refine (leaves_memberName cs).bind fun named => (h.value _).bind fun r => ?_
  dsimp only
  split
  · next hskip => exact .ok (suffix_of_skip hskip)
  · next hskip =>
      exact (h.members ..).of_suffix ((skip_suffix _).trans (suffix_of_skip hskip))
  · exact .expecting

theorem LeavesAt.items_succ (h : LeavesAt steps) (cs : List Char) (done : List Value)
    (repeated : List String) : Leaves Reading.rest cs (Json.items (steps + 1) cs done repeated) := by
  rw [Json.items]
  refine (h.value cs).bind fun r => ?_
  dsimp only
  split
  · next hskip => exact .ok (suffix_of_skip hskip)
  · next hskip => exact (h.items ..).of_suffix ((skip_suffix _).trans (suffix_of_skip hskip))
  · exact .expecting

theorem leavesAt (steps : Nat) : LeavesAt steps := by
  induction steps with
  | zero =>
      refine ⟨fun cs => ?_, fun _ _ _ => .expecting, fun _ _ _ => .expecting⟩
      rw [Json.value.eq_def]
      exact .expecting
  | succ steps ih => exact ⟨ih.value_succ, ih.members_succ, ih.items_succ⟩

/-- A text fails to be read only where it has a number that is too long. -/
theorem hasLongNumber_of_read {f : Failure} (h : read cs = .error (.failure f)) :
    f = .integerTooLong ∧ Text.HasLongNumber cs := by
  have hread : Leaves (fun _ => []) cs (read cs) := by
    rw [read]
    split
    · exact .expecting
    · refine .of_suffix (((leavesAt _).value _).bind fun r => ?_) (skip_suffix cs)
      split
      · exact .ok List.nil_suffix
      · exact .expecting
  have hends := hread.ends
  rw [h] at hends
  exact hends.failure f rfl

end AppSpec.Json
