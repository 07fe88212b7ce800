import AppSpec.Proofs.Yaml.Token.Property

/-!
Reading scalars stays in the text, and fails only at an escape for a character that there is not.
-/

namespace AppSpec.Yaml

variable {text : List Char} {c : Cursor}

section Failing

variable (h : c.Within text)

include h

theorem scans_quotedBreaks {since : Mark} : Scans text Prod.snd (quotedBreaks since c) := by
  have hlines := h.of_suffix
    (Cursor.emptyLines_suffix (Cursor.skip_suffix isSpaceOrTab) Cursor.atDocumentMarker
      (c.rest.length + 1) c)
  rw [quotedBreaks]
  dsimp only
  split
  · exact .stop
  · exact .ok hlines

theorem scans_quotedGap {since : Mark} : Scans text Prod.snd (quotedGap since c) := by
  have hspan := h.of_suffix (c.span_suffix isSpaceOrTab)
  rw [quotedGap]
  dsimp only
  split
  · exact .stop
  · split
    · exact .ok hspan
    · next hbreak =>
        refine (scans_quotedBreaks (hspan.of_suffix (Cursor.lineBreak?_suffix hbreak))).bind
          fun ⟨breaks, d⟩ hd => ?_
        exact .ok hd

omit h in
theorem scans_codeEscape {since : Mark} {letter : Char} {length : Nat}
    (hletter : codeLength? letter = some length) (h : '\\' :: letter :: c.rest <:+ text) :
    Scans text Prod.snd (codeEscape since length c) := by
  have hrest : c.Within text :=
    ((List.suffix_cons _ _).trans (List.suffix_cons _ _)).trans h
  rw [codeEscape]
  dsimp only
  split
  · exact .stop
  · split
    · exact .stop
    · next hshort =>
        have hlength : (c.rest.take length).length = length := by
          have := List.length_take_le length c.rest
          omega
        have hinfix : '\\' :: letter :: c.rest.take length <:+: text := by
          have hprefix : '\\' :: letter :: c.rest.take length <+: '\\' :: letter :: c.rest :=
            List.cons_prefix_cons.mpr ⟨rfl, List.cons_prefix_cons.mpr ⟨rfl, List.take_prefix _ _⟩⟩
          exact hprefix.isInfix.trans h.isInfix
        have hescape : EscapesTo text ((Json.hexNumber? (c.rest.take length)).getD 0) :=
          ⟨letter, c.rest.take length, hletter.trans (congrArg some hlength.symm), hinfix, rfl⟩
        split
        · next hlarge =>
            refine ⟨?_⟩
            rintro f ⟨⟩
            exact .word hescape hlarge
        · split
          · next hlarge =>
              refine ⟨?_⟩
              rintro f ⟨⟩
              exact .character hescape hlarge
          · exact .ok (hrest.of_suffix ((Cursor.advance_suffix _ _).trans (c.advance_suffix length)))

omit h in
theorem scans_escape {since : Mark} (h : '\\' :: c.rest <:+ text) :
    Scans text Prod.snd (escape since c) := by
  have hrest : c.Within text := (List.suffix_cons _ _).trans h
  rw [escape]
  split
  · exact .ok (hrest.of_suffix c.next_suffix)
  · next length hlength =>
      refine scans_codeEscape hlength ?_
      obtain ⟨cs, mark⟩ := c
      cases cs with
      | nil => cases hlength
      | cons letter cs => exact h
  · split
    · next hbreak => exact scans_quotedBreaks (hrest.of_suffix (Cursor.lineBreak?_suffix hbreak))
    · exact .stop

theorem scans_quotedFrom {double : Bool} {since : Mark} (steps : Nat) (done : List Char) :
    Scans text Prod.snd (quotedFrom double since steps done c) := by
  induction steps generalizing c done with
  | zero => exact .stop
  | succ steps ih =>
      have hnext := h.of_suffix c.next_suffix
      rw [quotedFrom]
      dsimp only
      split
      · exact (scans_quotedGap h).bind fun r hr => ih hr _
      · split
        · next hback =>
            have hpeek : c.peek = '\\' := eq_of_beq (Bool.and_eq_true_iff.mp hback).2
            refine (scans_escape ?_).bind fun r hr => ih hr _
            rw [← Cursor.rest_eq_cons hpeek (by decide)]
            exact h
        · split
          · exact .ok hnext
          · split
            · split
              · exact ih (h.of_suffix (c.advance_suffix 2)) _
              · exact .ok hnext
            · exact ih hnext _

theorem scans_quotedScalar : Scans text Prod.snd (quotedScalar c) := by
  refine (scans_quotedFrom (h.of_suffix c.next_suffix) _ _).bind fun ⟨cs, d⟩ hd => ?_
  exact .ok hd

theorem scans_indentation? {since : Mark} : Scans text Prod.snd (indentation? since c) := by
  rw [indentation?]
  split
  · exact .stop
  · split
    · exact .ok (h.of_suffix c.next_suffix)
    · exact .ok h

theorem scans_blockIndicators {since : Mark} : Scans text Prod.snd (blockIndicators since c) := by
  rw [blockIndicators]
  split
  · refine (scans_indentation? (h.of_suffix c.next_suffix)).bind fun ⟨n, d⟩ hd => ?_
    exact .ok hd
  · refine (scans_indentation? h).bind fun ⟨n, d⟩ hd => ?_
    dsimp only
    split
    · exact .ok (hd.of_suffix d.next_suffix)
    · exact .ok hd

theorem scans_blockHeader {since : Mark} : Scans text Prod.snd (blockHeader since c) := by
  rw [blockHeader]
  refine (scans_blockIndicators h).bind fun ⟨header, d⟩ hd => ?_
  dsimp only
  split
  · exact (scans_endLine hd).bind fun e he => .ok he
  · exact .wanted

end Failing

theorem skipTo_suffix (indent : Int) (steps : Nat) (c : Cursor) :
    (skipTo indent steps c).rest <:+ c.rest := by
  induction steps generalizing c with
  | zero => exact List.suffix_refl _
  | succ steps ih =>
      rw [skipTo]
      split
      · exact (ih _).trans c.next_suffix
      · exact List.suffix_refl _

theorem blockBreaks_suffix (indent : Int) (c : Cursor) : (blockBreaks indent c).2.rest <:+ c.rest :=
  Cursor.emptyLines_suffix (skipTo_suffix indent indent.toNat) (fun _ => false)
    (c.rest.length + 1) c

theorem leadingLines_suffix (steps : Nat) (c : Cursor) :
    (leadingLines steps c).2.2.rest <:+ c.rest := by
  induction steps generalizing c with
  | zero => exact List.suffix_refl _
  | succ steps ih =>
      rw [leadingLines]
      dsimp only
      split
      · exact c.span_suffix isSpace
      · next hbreak =>
          exact (ih _).trans ((Cursor.lineBreak?_suffix hbreak).trans (c.span_suffix isSpace))

theorem blockLines_suffix (isFolded : Bool) (indent : Int) (steps : Nat) (r : BlockReading) :
    (blockLines isFolded indent steps r).rest.rest <:+ r.rest.rest := by
  induction steps generalizing r with
  | zero => exact List.suffix_refl _
  | succ steps ih =>
      have hbreaks (e : Cursor) (he : e.rest <:+ (r.rest.span fun ch => !isBreak ch).2.rest) :
          (blockBreaks indent e).2.rest <:+ r.rest.rest :=
        (blockBreaks_suffix indent e).trans (he.trans (r.rest.span_suffix _))
      rw [blockLines]
      dsimp only
      split
      · exact List.suffix_refl _
      · split
        · next hbreak =>
            have hrest := hbreaks _ (Cursor.lineBreak?_suffix hbreak)
            split
            · exact (ih _).trans hrest
            · exact hrest
        · have hrest := hbreaks _ (List.suffix_refl _)
          split
          · exact (ih _).trans hrest
          · exact hrest

theorem plainFrom_suffix (inFlow : Bool) (cs : List Char) (m : Mark) :
    (plainFrom inFlow cs m).2.rest <:+ cs := by
  induction cs generalizing m with
  | nil => exact List.suffix_refl _
  | cons c cs ih =>
      rw [plainFrom]
      split
      · exact List.suffix_refl _
      · exact (ih _).trans (List.suffix_cons _ _)

theorem separation_suffix (c : Cursor) : (separation c).rest.rest <:+ c.rest := by
  rw [separation]
  dsimp only
  split
  · exact c.span_suffix isSpace
  · next hbreak =>
      exact (Cursor.emptyLines_suffix (Cursor.skip_suffix isSpace) _ _ _).trans
        ((Cursor.lineBreak?_suffix hbreak).trans (c.span_suffix isSpace))

theorem plainRuns_suffix (inFlow : Bool) (indent : Int) (steps : Nat) (r : PlainReading)
    (spaces : List Char) : (plainRuns inFlow indent steps r spaces).rest.rest <:+ r.rest.rest := by
  induction steps generalizing r spaces with
  | zero => exact List.suffix_refl _
  | succ steps ih =>
      rw [plainRuns]
      dsimp only
      split
      · exact List.suffix_refl _
      · split
        · exact List.suffix_refl _
        · next run d hne hrun =>
            have hd : d.rest <:+ r.rest.rest := by
              have h := plainFrom_suffix inFlow r.rest.rest r.rest.mark
              rwa [hrun] at h
            have hrest := (separation_suffix d).trans hd
            split
            · exact hrest
            · exact (ih _ _).trans hrest

theorem plainScalar_suffix (inFlow : Bool) (indent : Int) (c : Cursor) :
    (plainScalar inFlow indent c).rest.rest <:+ c.rest := plainRuns_suffix inFlow indent _ _ _

theorem scans_blockScalar (h : c.Within text) (outer : Int) :
    Scans text Prod.snd (blockScalar outer c) := by
  rw [blockScalar]
  refine (scans_blockHeader (h.of_suffix c.next_suffix)).bind fun ⟨header, d⟩ hd => ?_
  dsimp only
  split
  · exact .ok (hd.of_suffix ((blockLines_suffix _ _ _ _).trans (blockBreaks_suffix _ d)))
  · exact .ok (hd.of_suffix ((blockLines_suffix _ _ _ _).trans (leadingLines_suffix _ d)))

end AppSpec.Yaml
