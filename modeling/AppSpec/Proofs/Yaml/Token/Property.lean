import AppSpec.Proofs.TypeExpr.Tracks
import AppSpec.Proofs.Yaml.Grammar
import AppSpec.Yaml.Token.Scalar

/-!
Reading tokens fails only at a number that is too long, or at an escape for a character that there
is not. Either stands in the text.
-/

namespace AppSpec.Yaml

/-- An escape in the text gives such a code. -/
def EscapesTo (text : List Char) (code : Nat) : Prop :=
  ∃ letter digits, codeLength? letter = some digits.length ∧ '\\' :: letter :: digits <:+: text ∧
    (Json.hexNumber? digits).getD 0 = code

/-- What reading the tokens of a text may fail at. -/
inductive TextHurdle (text : List Char) : Failure → Prop
  | number (h : Text.HasLongNumber text) : TextHurdle text .integerTooLong
  | word {code : Nat} (h : EscapesTo text code) (hlarge : maxWord < code) :
      TextHurdle text .codeTooLarge
  | character {code : Nat} (h : EscapesTo text code) (hlarge : maxCode < code) :
      TextHurdle text .noSuchCharacter

variable {text : List Char} {α β : Type}

theorem not_textHurdle (hshort : ¬ Text.HasLongNumber text) (hplain : '\\' ∉ text) (f : Failure) :
    ¬ TextHurdle text f := by
  have hescape (code : Nat) : ¬ EscapesTo text code := fun ⟨_, _, _, hstands, _⟩ =>
    hplain (hstands.subset List.mem_cons_self)
  rintro (h | ⟨h, -⟩ | ⟨h, -⟩)
  · exact hshort h
  · exact hescape _ h
  · exact hescape _ h

/-! ### Places in the text -/

namespace Cursor

/-- A place in the text. -/
def Within (text : List Char) (c : Cursor) : Prop := c.rest <:+ text

variable {c : Cursor}

theorem Within.of_suffix {d : Cursor} (h : c.Within text) (hd : d.rest <:+ c.rest) :
    d.Within text := hd.trans h

theorem next_suffix (c : Cursor) : c.next.rest <:+ c.rest := by
  rw [next]
  split
  · exact List.suffix_refl _
  · next hrest =>
      rw [hrest]
      exact List.suffix_cons _ _

theorem rest_eq_cons {ch : Char} (h : c.peek = ch) (hch : ch ≠ endOfText) :
    c.rest = ch :: c.next.rest := by
  obtain ⟨cs, mark⟩ := c
  cases cs with
  | nil => exact absurd h.symm hch
  | cons d cs =>
      obtain rfl : d = ch := h
      rfl

theorem advance_suffix (n : Nat) (c : Cursor) : (advance n c).rest <:+ c.rest := by
  induction n generalizing c with
  | zero => exact List.suffix_refl _
  | succ n ih => exact (ih c.next).trans c.next_suffix

theorem span_suffix (p : Char → Bool) (c : Cursor) : (c.span p).2.rest <:+ c.rest :=
  ⟨_, spanFrom_append p c.rest c.mark⟩

theorem all_span (p : Char → Bool) (c : Cursor) : ∀ d ∈ (c.span p).1, p d = true := by
  obtain ⟨cs, mark⟩ := c
  show ∀ d ∈ (spanFrom p cs mark).1, p d = true
  induction cs generalizing mark with
  | nil => nofun
  | cons c cs ih =>
      rw [spanFrom]
      split
      · next hc => exact List.forall_mem_cons.mpr ⟨hc, ih _⟩
      · nofun

theorem skip_suffix (p : Char → Bool) (c : Cursor) : (c.skip p).rest <:+ c.rest := c.span_suffix p

theorem skipComment_suffix (c : Cursor) : c.skipComment.rest <:+ c.rest := by
  rw [skipComment]
  split
  · exact (skip_suffix _ _).trans (c.skip_suffix isSpace)
  · exact c.skip_suffix isSpace

theorem lineBreak?_suffix {b : Char} {d : Cursor} (h : c.lineBreak? = some (b, d)) :
    d.rest <:+ c.rest := by
  rw [lineBreak?] at h
  split at h
  · cases h
  · cases h
    exact (next_suffix _).trans c.next_suffix
  · split at h
    · cases h
      exact c.next_suffix
    · split at h
      · cases h
        exact c.next_suffix
      · cases h

theorem emptyLines_suffix {skip : Cursor → Cursor} (hskip : ∀ c, (skip c).rest <:+ c.rest)
    (stop : Cursor → Bool) (steps : Nat) (c : Cursor) :
    (emptyLines skip stop steps c).2.1.rest <:+ c.rest := by
  induction steps generalizing c with
  | zero => exact List.suffix_refl _
  | succ steps ih =>
      rw [emptyLines]
      split
      · exact List.suffix_refl _
      · dsimp only
        split
        · exact hskip c
        · next hbreak => exact (ih _).trans ((lineBreak?_suffix hbreak).trans (hskip c))

end Cursor

/-- Reading in the text ends in the text, or fails at a hurdle of the text. -/
structure Scans (text : List Char) (place : α → Cursor) (x : Except Stop α) : Prop where
  ends : Ends (Stop.FailsIn (TextHurdle text)) (fun a => (place a).Within text) x

namespace Scans

variable {place : α → Cursor} {place' : β → Cursor}

theorem bind {x : Except Stop α} {f : α → Except Stop β} (hx : Scans text place x)
    (hf : ∀ a, (place a).Within text → Scans text place' (f a)) : Scans text place' (x >>= f) :=
  ⟨hx.ends.bind fun a ha => (hf a ha).ends⟩

theorem ok {a : α} (h : (place a).Within text) : Scans text place (.ok a) := ⟨h⟩

theorem stop {level : Level} {activity : Activity} {since mark : Mark} {problem : Problem} :
    Scans text place (stopIn level activity since problem mark) := ⟨ends_stopIn⟩

theorem wanted {activity : Activity} {since : Mark} {what : Wanted} {c : Cursor} :
    Scans text place (Yaml.wanted activity since what c) := stop

end Scans

variable {c : Cursor} (h : c.Within text)

/-! ### Properties and directives -/

include h

theorem scans_anchor : Scans text Prod.snd (anchor c) := by
  rw [anchor]
  dsimp only
  split
  · exact .wanted
  · exact .ok (h.of_suffix ((Cursor.span_suffix _ _).trans c.next_suffix))

theorem scans_escapedBytes {activity : Activity} {since : Mark} (steps : Nat) :
    Scans text Prod.snd (escapedBytes activity since steps c) := by
  induction steps generalizing c with
  | zero => exact .ok h
  | succ steps ih =>
      rw [escapedBytes]
      split
      · exact .ok h
      · dsimp only
        split
        · exact (ih (h.of_suffix ((Cursor.advance_suffix 2 _).trans c.next_suffix))).bind
            fun r hr => .ok hr
        · exact .stop

theorem scans_escapedText {activity : Activity} {since : Mark} :
    Scans text Prod.snd (escapedText activity since c) := by
  refine (scans_escapedBytes h _).bind fun ⟨bytes, d⟩ hd => ?_
  dsimp only
  split
  · exact .ok hd
  · exact .stop

theorem scans_uriText {activity : Activity} {since : Mark} (steps : Nat) :
    Scans text Prod.snd (uriText activity since steps c) := by
  induction steps generalizing c with
  | zero => exact .ok h
  | succ steps ih =>
      have hspan := h.of_suffix (c.span_suffix isUriChar)
      rw [uriText]
      dsimp only
      split
      · exact .ok hspan
      · exact (scans_escapedText hspan).bind fun r hr => (ih hr).bind fun r hr => .ok hr

theorem scans_uri {activity missing : Activity} {since : Mark} :
    Scans text Prod.snd (uri activity missing since c) := by
  rw [uri]
  split
  · exact (scans_uriText h _).bind fun r hr => .ok hr
  · exact .wanted

theorem scans_handle {activity : Activity} {since : Mark} :
    Scans text Prod.snd (handle activity since c) := by
  have hnext := h.of_suffix c.next_suffix
  rw [handle]
  split
  · exact .wanted
  · split
    · exact .ok hnext
    · dsimp only
      split
      · exact .wanted
      · exact .ok (hnext.of_suffix ((Cursor.next_suffix _).trans (Cursor.span_suffix _ _)))

omit h in
/-- What is behind the handle of a tag names it. -/
theorem scans_handled {since : Mark} {x : Except Stop (String × Cursor)}
    (hx : Scans text Prod.snd x) :
    Scans text (·.2.2) (x >>= fun own => do
      let r ← uri .tag .tagUri since own.2
      return (some own.1, r.1, r.2)) :=
  hx.bind fun _ hown => (scans_uri hown).bind fun _ hr => .ok hr

theorem scans_tagParts : Scans text (·.2.2) (tagParts c) := by
  have hnext := h.of_suffix c.next_suffix
  rw [tagParts]
  split
  · refine (scans_uri (h.of_suffix (c.advance_suffix 2))).bind fun ⟨rest, d⟩ hd => ?_
    dsimp only
    split
    · exact .wanted
    · exact .ok (hd.of_suffix d.next_suffix)
  · split
    · exact .ok hnext
    · dsimp only
      split
      · exact scans_handled (scans_handle h)
      · exact scans_handled (.ok hnext)

theorem scans_tag : Scans text Prod.snd (tag c) := by
  refine (scans_tagParts h).bind fun ⟨own, rest, d⟩ hd => ?_
  dsimp only
  split
  · exact .ok hd
  · exact .wanted

theorem scans_versionNumber {since : Mark} : Scans text Prod.snd (versionNumber since c) := by
  rw [versionNumber]
  dsimp only
  split
  · exact .wanted
  · split
    · next hlong =>
        refine ⟨?_⟩
        rintro f ⟨⟩
        refine .number (Text.hasLongNumber_of_ascii ?_ (Cursor.all_span _ c) hlong)
        have hprefix : (c.span Literal.isAsciiDigit).1 <+: c.rest :=
          ⟨_, Cursor.spanFrom_append _ c.rest c.mark⟩
        exact hprefix.isInfix.trans h.isInfix
    · exact .ok (h.of_suffix (c.span_suffix _))

theorem scans_version {since : Mark} : Scans text Prod.snd (version since c) := by
  rw [version]
  refine (scans_versionNumber (h.of_suffix (c.skip_suffix _))).bind fun ⟨major, d⟩ hd => ?_
  dsimp only
  split
  · exact .wanted
  · refine (scans_versionNumber (hd.of_suffix d.next_suffix)).bind fun ⟨minor, e⟩ he => ?_
    dsimp only
    split
    · exact .ok he
    · exact .wanted

theorem scans_tagDirective {since : Mark} : Scans text Prod.snd (tagDirective since c) := by
  rw [tagDirective]
  refine (scans_handle (h.of_suffix (c.skip_suffix _))).bind fun ⟨own, d⟩ hd => ?_
  dsimp only
  split
  · exact .wanted
  · refine (scans_uri (hd.of_suffix (d.skip_suffix _))).bind fun ⟨rest, e⟩ he => ?_
    dsimp only
    split
    · exact .ok he
    · exact .wanted

theorem scans_endLine {activity : Activity} {since : Mark} :
    Scans text id (endLine activity since c) := by
  have hcomment := h.of_suffix c.skipComment_suffix
  rw [endLine]
  split
  · cases hbreak : c.skipComment.lineBreak? with
    | none => exact .ok hcomment
    | some r => exact .ok (hcomment.of_suffix (Cursor.lineBreak?_suffix hbreak))
  · exact .wanted

omit h in
/-- After what a directive says, its line ends. -/
theorem scans_directed {start : Mark} {x : Except Stop (Directive × Cursor)}
    (hx : Scans text Prod.snd x) :
    Scans text Prod.snd (x >>= fun content => do
      let e ← endLine .directive start content.2
      return (Token.mk (.directive content.1) start content.2.mark, e)) :=
  hx.bind fun _ hcontent => (scans_endLine hcontent).bind fun _ he => .ok he

theorem scans_directive : Scans text Prod.snd (directive c) := by
  have hname := h.of_suffix ((Cursor.span_suffix isNameChar _).trans c.next_suffix)
  rw [directive]
  dsimp only
  split
  · exact .wanted
  · split
    · exact scans_directed (scans_version hname)
    · split
      · exact scans_directed (scans_tagDirective hname)
      · exact scans_directed (Scans.ok (hname.of_suffix (Cursor.skip_suffix _ _)))

end AppSpec.Yaml
