import AppSpec.Proofs.Outcome
import AppSpec.Proofs.TypeExpr.Literal
import AppSpec.Proofs.TypeExpr.Prefix

/-!
Reading a text, and reading it with more behind it. A result that leaves some of the shorter text is
a result of the longer one, a fault that is kept is a fault of the longer one, and reading fails only
where the text has a run of digits that is too long.
-/

namespace AppSpec

namespace Text

def HasLongNumber (cs : List Char) : Prop :=
  ∃ ds, ds <:+: cs ∧ ds.all isDigit = true ∧ maxIntegerDigits < ds.length

theorem HasLongNumber.of_isInfix {cs ds : List Char} (h : HasLongNumber ds) (hds : ds <:+: cs) :
    HasLongNumber cs := by
  obtain ⟨run, hrun, hdigits, hlong⟩ := h
  exact ⟨run, hrun.trans hds, hdigits, hlong⟩

theorem not_hasLongNumber {cs : List Char} (h : cs.length ≤ maxIntegerDigits) :
    ¬ HasLongNumber cs := by
  rintro ⟨ds, hds, -, hlong⟩
  have hle := hds.length_le
  omega

theorem hasLongNumber_of_ascii {cs ds : List Char} (hds : ds <:+: cs)
    (hdigits : ∀ c ∈ ds, Literal.isAsciiDigit c = true) (hlong : maxIntegerDigits < ds.length) :
    HasLongNumber cs := by
  refine ⟨ds, hds, List.all_eq_true.mpr fun c hc => isDigit_of_isDigit ?_, hlong⟩
  have h := hdigits c hc
  rw [Literal.isAsciiDigit, Bool.and_eq_true, decide_eq_true_eq, decide_eq_true_eq] at h
  rw [Char.isDigit, Bool.and_eq_true, decide_eq_true_eq, decide_eq_true_eq]
  exact h

end Text

theorem Numeral.splitSign_suffix (cs : List Char) : (splitSign cs).2 <:+ cs := by
  unfold splitSign
  split
  · exact List.suffix_cons _ _
  · exact List.suffix_cons _ _
  · exact List.suffix_refl _

theorem Literal.hasLongNumber_of_read {cs : List Char} {e : Failure} (h : read cs = .error e) :
    Text.HasLongNumber cs := by
  by_contra hshort
  have hint : ¬ IsLongInteger cs := by
    rintro ⟨negative, digits, hint, hlong⟩
    refine hshort ⟨digits, ?_, ?_, hlong⟩
    · have hdigits : digits <:+ upToLineEnd cs := by
        rw [Numeral.integer?] at hint
        dsimp only at hint
        split at hint
        · cases hint
          exact Numeral.splitSign_suffix _
        · cases hint
      have hline : upToLineEnd cs <+: cs := by
        rcases upToLineEnd_cases cs with ⟨line, hcs, hup⟩ | ⟨hup, -⟩
        · rw [hup, hcs]
          exact List.prefix_append _ _
        · rw [hup]
      exact hdigits.isInfix.trans hline.isInfix
    · rw [Numeral.integer?] at hint
      dsimp only at hint
      split at hint
      · next hall =>
          cases hint
          rw [Bool.and_eq_true] at hall
          exact hall.2
      · cases hint
  obtain ⟨r, hr⟩ := exists_read hint
  rw [hr] at h
  cases h

namespace TypeExpr

variable {α β σ τ : Type} {r : σ → List Char} {q : τ → List Char}
  {keep : TypeFault → Prop} {more cs ds : List Char} {x x' : Except TypeStop (α × σ)}

structure Tracks (r : σ → List Char) (keep : TypeFault → Prop) (more cs : List Char)
    (x x' : Except TypeStop (α × σ)) : Prop where
  suffix : ∀ a s, x = .ok (a, s) → r s <:+ cs
  ok : ∀ a s, x = .ok (a, s) → r s ≠ [] → ∃ s', x' = .ok (a, s') ∧ r s' = r s ++ more
  fault : ∀ f, x = .error (.fault f) → keep f → cs ≠ [] ∧ ∃ f', x' = .error (.fault f') ∧ keep f'
  failure : ∀ e, x = .error (.failure e) → Text.HasLongNumber cs

namespace Tracks

theorem ne_nil_of_suffix (h : ds <:+ cs) (hne : ds ≠ []) : cs ≠ [] := by
  rintro rfl
  exact hne (List.suffix_nil.mp h)

theorem weaken (h : Tracks r keep more ds x x') (hds : ds <:+ cs) :
    Tracks r keep more cs x x' where
  suffix a s hx := (h.suffix a s hx).trans hds
  ok := h.ok
  fault f hx hk := (h.fault f hx hk).imp_left (ne_nil_of_suffix hds)
  failure e hx := (h.failure e hx).of_isInfix hds.isInfix

theorem result {a : α} {s s' : σ} (hs : r s <:+ cs)
    (hmore : r s ≠ [] → r s' = r s ++ more) :
    Tracks r keep more cs (.ok (a, s)) (.ok (a, s')) where
  suffix _ _ h := by
    cases h
    exact hs
  ok _ _ h hne := by
    cases h
    exact ⟨s', rfl, hmore hne⟩
  fault := nofun
  failure := nofun

theorem atEnd {a : α} {s : σ} (hs : r s = []) : Tracks r keep more cs (.ok (a, s)) x' where
  suffix _ _ h := by
    cases h
    exact hs ▸ List.nil_suffix
  ok _ _ h hne := by
    cases h
    exact absurd hs hne
  fault := nofun
  failure := nofun

theorem dropped {f : TypeFault} (hf : ¬ keep f) :
    Tracks r keep more cs (.error (.fault f)) x' where
  suffix := nofun
  ok := nofun
  fault _ h hk := by
    cases h
    exact absurd hk hf
  failure := nofun

theorem bind (hleft : ∀ s : σ, ∃ s', r s' = r s ++ more)
    (hx : Tracks r keep more cs x x') {f f' : α × σ → Except TypeStop (β × τ)}
    (hf : ∀ a s s', x = .ok (a, s) → r s <:+ cs → r s' = r s ++ more →
      Tracks q keep more (r s) (f (a, s)) (f' (a, s'))) :
    Tracks q keep more cs (x >>= f) (x' >>= f') := by
  cases hxs : x with
  | error stop =>
      refine ⟨nofun, nofun, ?_, ?_⟩
      · intro fault h hk
        cases h
        obtain ⟨hne, f₂, hx', hk'⟩ := hx.fault fault hxs hk
        exact ⟨hne, f₂, by rw [hx']; rfl, hk'⟩
      · intro e h
        cases h
        exact hx.failure e hxs
  | ok p =>
      obtain ⟨a, s⟩ := p
      have hsuffix := hx.suffix a s hxs
      obtain ⟨s₀, hs₀⟩ := hleft s
      have hstep : ∀ s', r s' = r s ++ more →
          Tracks q keep more (r s) (f (a, s)) (f' (a, s')) := fun s' => hf a s s' hxs hsuffix
      refine ⟨?_, ?_, ?_, ?_⟩
      · exact fun b t h => ((hstep s₀ hs₀).suffix b t h).trans hsuffix
      · intro b t h hne
        have hne' := ne_nil_of_suffix ((hstep s₀ hs₀).suffix b t h) hne
        obtain ⟨s', hx', hs'⟩ := hx.ok a s hxs hne'
        rw [hx']
        exact (hstep s' hs').ok b t h hne
      · intro fault h hk
        have hne' := ((hstep s₀ hs₀).fault fault h hk).1
        obtain ⟨s', hx', hs'⟩ := hx.ok a s hxs hne'
        rw [hx']
        exact ⟨ne_nil_of_suffix hsuffix hne', ((hstep s' hs').fault fault h hk).2⟩
      · exact fun e h => ((hstep s₀ hs₀).failure e h).of_isInfix hsuffix.isInfix

/-- Where the shorter text has come to its end, all that counts is what it gives. -/
theorem of_nil {x₀ : Except TypeStop (α × σ)} (h : Tracks r keep more [] x x₀) :
    Tracks r keep more cs x x' where
  suffix a s hx := (h.suffix a s hx).trans List.nil_suffix
  ok a s hx hne := absurd (List.suffix_nil.mp (h.suffix a s hx)) hne
  fault f hx hk := absurd rfl (h.fault f hx hk).1
  failure e hx := (h.failure e hx).of_isInfix List.nil_suffix.isInfix

/-- What is split off in front may come out otherwise only where nothing is left behind it. -/
theorem split (hleft : ∀ s : σ, ∃ s', r s' = r s ++ more) {a a' : α} {s s' : σ}
    (f f' : α → σ → Except TypeStop (β × τ))
    (hf : ∀ s', r s' = r s ++ more → Tracks q keep more (r s) (f a s) (f' a s'))
    (hs : r s <:+ cs) (hmore : r s ≠ [] → a' = a ∧ r s' = r s ++ more) :
    Tracks q keep more cs (f a s) (f' a' s') := by
  by_cases hnil : r s = []
  · obtain ⟨s₀, hs₀⟩ := hleft s
    have h := hf s₀ hs₀
    rw [hnil] at h
    exact h.of_nil
  · obtain ⟨rfl, hrest⟩ := hmore hnil
    exact (hf s' hrest).weaken hs

theorem follow (hleft : ∀ s : σ, ∃ s', r s' = r s ++ more) {s s' : σ}
    (f f' : σ → Except TypeStop (β × τ))
    (hf : ∀ s', r s' = r s ++ more → Tracks q keep more (r s) (f s) (f' s'))
    (hs : r s <:+ cs) (hmore : r s ≠ [] → r s' = r s ++ more) :
    Tracks q keep more cs (f s) (f' s') :=
  split hleft (fun _ : Unit => f) (fun _ => f') hf hs fun hne => ⟨(rfl : () = ()), hmore hne⟩

end Tracks

/-! ### Literals -/

abbrev TracksText (more cs : List Char) (x x' : Except TypeStop (α × List Char)) : Prop :=
  Tracks id (fun _ => True) more cs x x'

theorem text_more (cs : List Char) : ∃ ds, id ds = id cs ++ more := ⟨cs ++ more, rfl⟩

theorem tracks_afterBlanks {after after' : List Char} (ha : Text.skipBlanks cs = after)
    (ha' : Text.skipBlanks (cs ++ more) = after') {f f' : List Char → Except TypeStop (α × τ)}
    (hf : ∀ ds, ds <:+ cs → Tracks q keep more ds (f ds) (f' (ds ++ more))) :
    Tracks q keep more cs (f after) (f' after') := by
  subst ha ha'
  have hskip := Text.skipBlanks_suffix cs
  refine Tracks.follow (r := id) text_more f f' ?_ hskip fun hne => Text.skipBlanks_more hne more
  rintro ds rfl
  exact hf _ hskip

def TracksLiteral (more : List Char) (read : LiteralReader) : Prop :=
  ∀ cs, TracksText more cs (read cs) (read (cs ++ more))

theorem tracks_readItems {item : LiteralReader} (hitem : TracksLiteral more item)
    (steps steps' : Nat) {cs : List Char} (h : cs.length < steps)
    (h' : (cs ++ more).length < steps') :
    TracksText more cs (readItems item steps cs) (readItems item steps' (cs ++ more)) := by
  induction steps generalizing steps' cs with
  | zero => omega
  | succ steps ih =>
      obtain ⟨steps', rfl⟩ : ∃ n, steps' = n + 1 := ⟨steps' - 1, by omega⟩
      rw [readItems, readItems]
      refine (tracks_afterBlanks rfl rfl fun ds _ => hitem ds).bind text_more ?_
      rintro (_ | value) rest rest' - hrest hmore
      · exact Tracks.result (List.suffix_refl _) fun _ => hmore
      · obtain rfl : rest' = rest ++ more := hmore
        have hrest : rest <:+ cs := hrest
        dsimp only
        generalize ha : Text.skipBlanks rest = after
        generalize ha' : Text.skipBlanks (rest ++ more) = after'
        apply tracks_afterBlanks ha ha'
        intro after hafter
        have hlen := (hafter.trans hrest).length_le
        rcases after with _ | ⟨c, after⟩
        · exact Tracks.atEnd rfl
        · rw [List.length_append] at h'
          rw [List.length_cons] at hlen
          rw [List.cons_append]
          split
          · next tail heq =>
              cases heq
              have hlater : TracksText more after (readItems item steps after)
                  (readItems item steps' (after ++ more)) :=
                ih steps' (by omega) (by rw [List.length_append]; omega)
              refine (hlater.bind text_more ?_).weaken (List.suffix_cons _ _)
              rintro values left left' - - hmore
              exact Tracks.result (List.suffix_refl _) fun _ => hmore
          · next tail heq =>
              cases heq
              exact Tracks.result (List.suffix_cons _ _) fun _ => rfl
          · next hcomma hclose =>
              split
              · next heq => exact absurd (congrArg (· :: after) (List.cons.inj heq).1) (hcomma _)
              · next heq => exact absurd (congrArg (· :: after) (List.cons.inj heq).1) (hclose _)
              · exact Tracks.result (List.suffix_refl _) fun _ => rfl

theorem tracks_readList {item : LiteralReader} (hitem : TracksLiteral more item) :
    TracksLiteral more (readList item) := by
  intro cs
  rw [readList, readList]
  generalize ha : Text.skipBlanks cs = after
  generalize ha' : Text.skipBlanks (cs ++ more) = after'
  apply tracks_afterBlanks ha ha'
  intro after _
  have hitems (after : List Char) : TracksText more after
      (do
        let read ← readItems item (after.length + 1) after
        return (read.1.map Value.list, read.2))
      (do
        let read ← readItems item ((after ++ more).length + 1) (after ++ more)
        return (read.1.map Value.list, read.2)) := by
    refine (tracks_readItems hitem _ _ (by omega) (by omega)).bind text_more ?_
    rintro values left left' - - hmore
    exact Tracks.result (List.suffix_refl _) fun _ => hmore
  rcases after with _ | ⟨c, after⟩
  · exact (hitems []).of_nil
  · split
    · next tail heq =>
        cases heq
        exact Tracks.result (List.suffix_cons _ _) fun _ => rfl
    · next hclose =>
        split
        · next heq => exact absurd (congrArg (· :: after) (List.cons.inj heq).1) (hclose _)
        · exact hitems (c :: after)

theorem tracks_splitQuoted (quote : Char) (rest : List Char) :
    TracksText more rest
      (.ok ((TypeText.splitQuoted quote rest).1.map fun cs => Value.str (String.ofList cs),
        (TypeText.splitQuoted quote rest).2))
      (.ok ((TypeText.splitQuoted quote (rest ++ more)).1.map fun cs => Value.str (String.ofList cs),
        (TypeText.splitQuoted quote (rest ++ more)).2)) := by
  refine Tracks.split (r := id) text_more
    (fun (text : Option (List Char)) after =>
      .ok (text.map fun cs => Value.str (String.ofList cs), after))
    (fun text after => .ok (text.map fun cs => Value.str (String.ofList cs), after)) ?_
    (TypeText.splitQuoted_suffix quote rest) fun hne => ?_
  · rintro after rfl
    exact Tracks.result (List.suffix_refl _) fun _ => rfl
  · rw [TypeText.splitQuoted_more hne]
    exact ⟨rfl, rfl⟩

theorem tracks_bare {raw left : List Char} (raw' left' : List Char) (hcs : raw ++ left = cs)
    (hmore : left ≠ [] → raw' = raw ∧ left' = left ++ more) :
    TracksText more cs
      (match Literal.read (Text.trim raw) with
        | .ok value => .ok (value.map Value.scalar, left)
        | .error failure => .error (.failure failure))
      (match Literal.read (Text.trim raw') with
        | .ok value => .ok (value.map Value.scalar, left')
        | .error failure => .error (.failure failure)) := by
  cases h : Literal.read (Text.trim raw) with
  | error e =>
      refine ⟨nofun, nofun, nofun, fun _ _ => ?_⟩
      have hraw : raw <+: cs := hcs ▸ List.prefix_append raw left
      exact (Literal.hasLongNumber_of_read h).of_isInfix ((Text.trim_infix raw).trans hraw.isInfix)
  | ok value =>
      by_cases hnil : left = []
      · exact Tracks.atEnd hnil
      · obtain ⟨hraw, hleft⟩ := hmore hnil
        rw [hraw, h]
        exact Tracks.result (hcs ▸ List.suffix_append raw left) fun _ => hleft

theorem readLiteralWith_unquoted (list : LiteralReader) {cs : List Char}
    (hlist : ∀ rest, cs ≠ '[' :: rest) (hsingle : ∀ rest, cs ≠ '\'' :: rest)
    (hdouble : ∀ rest, cs ≠ '"' :: rest) :
    readLiteralWith list cs =
      match Literal.read (Text.trim (TypeText.splitBare isLiteralStop 0 cs).1) with
      | .ok value => .ok (value.map Value.scalar, (TypeText.splitBare isLiteralStop 0 cs).2)
      | .error failure => .error (.failure failure) := by
  unfold readLiteralWith
  split
  · exact absurd rfl (hlist _)
  · exact absurd rfl (hsingle _)
  · exact absurd rfl (hdouble _)
  · rfl

theorem tracks_readLiteralWith {list : LiteralReader}
    (hlist : ∀ cs, TracksText more ('[' :: cs) (list cs) (list (cs ++ more))) :
    TracksLiteral more (readLiteralWith list) := by
  intro cs
  have hbare (hlist : ∀ rest, cs ≠ '[' :: rest) (hsingle : ∀ rest, cs ≠ '\'' :: rest)
      (hdouble : ∀ rest, cs ≠ '"' :: rest) :
      TracksText more cs (readLiteralWith list cs) (readLiteralWith list (cs ++ more)) := by
    rw [readLiteralWith_unquoted list hlist hsingle hdouble]
    have hcs := TypeText.splitBare_append isLiteralStop 0 cs
    cases cs with
    | nil => exact (tracks_bare [] [] hcs fun hne => absurd rfl hne).of_nil
    | cons c cs =>
        have hother {d : Char} (hd : ∀ rest, c :: cs ≠ d :: rest) (rest : List Char) :
            c :: cs ++ more ≠ d :: rest := by
          intro heq
          obtain ⟨rfl, -⟩ := List.cons.inj heq
          exact hd cs rfl
        rw [readLiteralWith_unquoted list (hother hlist) (hother hsingle) (hother hdouble)]
        refine tracks_bare _ _ hcs fun hne => ?_
        rw [TypeText.splitBare_more hne]
        exact ⟨rfl, rfl⟩
  by_cases hopen : ∃ rest, cs = '[' :: rest
  · obtain ⟨rest, rfl⟩ := hopen
    exact hlist rest
  by_cases hsingle : ∃ rest, cs = '\'' :: rest
  · obtain ⟨rest, rfl⟩ := hsingle
    exact (tracks_splitQuoted _ rest).weaken (List.suffix_cons _ _)
  by_cases hdouble : ∃ rest, cs = '"' :: rest
  · obtain ⟨rest, rfl⟩ := hdouble
    exact (tracks_splitQuoted _ rest).weaken (List.suffix_cons _ _)
  exact hbare (not_exists.mp hopen) (not_exists.mp hsingle) (not_exists.mp hdouble)

theorem tracks_readLiteral (limit : Int) (depth : Nat) :
    TracksLiteral more (readLiteral limit depth) := by
  induction depth with
  | zero =>
      refine tracks_readLiteralWith fun cs => ⟨nofun, nofun, ?_, nofun⟩
      exact fun f _ _ => ⟨List.cons_ne_nil _ _, _, rfl, trivial⟩
  | succ depth ih =>
      exact tracks_readLiteralWith fun cs => (tracks_readList ih cs).weaken (List.suffix_cons _ _)

end TypeExpr

end AppSpec
