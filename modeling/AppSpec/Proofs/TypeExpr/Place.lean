import AppSpec.Proofs.TypeExpr.Nesting

/-!
Where reading gets to, and where what it reports stands. No reader goes back: what it leaves is an
end of the text that it was given, its issues come behind those that were there, and neither a
fault nor a new issue stands further from the end than the text is long.
-/

namespace AppSpec

namespace TypeExpr

variable {α β : Type} {n : Nat} {s s' : TypeCursor}

structure Onward (n : Nat) (s s' : TypeCursor) : Prop where
  suffix : s'.rest <:+ s.rest
  added : ∃ added, s'.issues = s.issues ++ added ∧ ∀ issue ∈ added, issue.left ≤ n

namespace Onward

theorem of_suffix {cs : List Char} (h : cs <:+ s.rest) : Onward n s { s with rest := cs } :=
  ⟨h, [], (List.append_nil _).symm, nofun⟩

theorem refl (s : TypeCursor) : Onward n s s := of_suffix (List.suffix_refl _)

theorem trans {t : TypeCursor} (h : Onward n s s') (h' : Onward n s' t) : Onward n s t := by
  obtain ⟨added, hadded, hleft⟩ := h.added
  obtain ⟨added', hadded', hleft'⟩ := h'.added
  refine ⟨h'.suffix.trans h.suffix, added ++ added', ?_, fun issue hissue => ?_⟩
  · rw [hadded', hadded, List.append_assoc]
  · exact (List.mem_append.mp hissue).elim (hleft issue) (hleft' issue)

theorem note {kind : TypeIssueKind} {left : Nat} {cs : List Char} (h : cs <:+ s.rest)
    (hleft : left ≤ n) : Onward n s { s.note kind left with rest := cs } :=
  ⟨h, _, rfl, List.forall_mem_singleton.mpr hleft⟩

theorem left_le (h : Onward n s s') : s'.left ≤ s.left := h.suffix.length_le

theorem issues (h : Onward n s s') : s.issues <+: s'.issues := by
  obtain ⟨added, hadded, -⟩ := h.added
  exact ⟨added, hadded.symm⟩

theorem skipBlanks (s : TypeCursor) : Onward n s s.skipBlanks :=
  of_suffix (Text.skipBlanks_suffix _)

end Onward

def StopsWithin (n : Nat) : TypeStop → Prop
  | .fault f => f.left ≤ n
  | .failure _ => True

abbrev Within (n : Nat) (s : TypeCursor) (x : Except TypeStop (α × TypeCursor)) : Prop :=
  AppSpec.Ends (StopsWithin n) (fun r => Onward n s r.2) x

def Bounded (read : TypeReader α) : Prop := ∀ n s, s.left ≤ n → Within n s (read s)

namespace Within

variable {x : Except TypeStop (α × TypeCursor)}

/-- What is read at a later place is read from an earlier one on. -/
theorem after (h : Onward n s s') (hx : Within n s' x) : Within n s x := hx.result fun _ => h.trans

theorem bind (hx : Within n s x) {f : α × TypeCursor → Except TypeStop (β × TypeCursor)}
    (hf : ∀ a s', Onward n s s' → Within n s' (f (a, s'))) : Within n s (x >>= f) :=
  AppSpec.Ends.bind hx fun r h => (hf r.1 r.2 h).after h

end Within

theorem Within.onward {x : Except TypeStop (α × TypeCursor)} (hx : Within n s x) {a : α}
    (h : x = .ok (a, s')) : Onward n s s' := by
  rw [h] at hx
  exact hx

theorem Bounded.onward {read : TypeReader α} (h : Bounded read) {a : α}
    (hread : read s = .ok (a, s')) : Onward s.left s s' :=
  (h s.left s le_rfl).onward hread

/-! ### Literals -/

def BoundedText (read : LiteralReader) : Prop :=
  ∀ n cs, cs.length ≤ n → AppSpec.Ends (StopsWithin n) (fun r => r.2 <:+ cs) (read cs)

theorem bounded_readItems {item : LiteralReader} (hitem : BoundedText item) (steps : Nat)
    {cs : List Char} (h : cs.length ≤ n) :
    AppSpec.Ends (StopsWithin n) (fun r => r.2 <:+ cs) (readItems item steps cs) := by
  induction steps generalizing cs with
  | zero => exact List.suffix_refl cs
  | succ steps ih =>
      have hskip := Text.skipBlanks_suffix cs
      rw [readItems]
      refine (hitem n _ (hskip.length_le.trans h)).bind ?_
      rintro ⟨value, rest⟩ hvalue
      replace hvalue : rest <:+ cs := hvalue.trans hskip
      have hblanks := (Text.skipBlanks_suffix rest).trans hvalue
      cases value with
      | none => exact hvalue
      | some value =>
          dsimp only
          split
          · next after heq =>
              have hafter : after <:+ cs := (heq ▸ List.suffix_cons _ _ : after <:+ _).trans hblanks
              refine (ih (hafter.length_le.trans h)).bind fun r hr => ?_
              exact hr.trans hafter
          · next after heq => exact (heq ▸ List.suffix_cons _ _ : after <:+ _).trans hblanks
          · exact hblanks

theorem bounded_readList {item : LiteralReader} (hitem : BoundedText item) :
    BoundedText (readList item) := by
  intro n cs h
  have hskip := Text.skipBlanks_suffix cs
  unfold readList
  split
  · next rest heq => exact (heq ▸ List.suffix_cons _ _ : rest <:+ _).trans hskip
  · refine (bounded_readItems hitem _ (hskip.length_le.trans h)).bind fun r hr => ?_
    exact hr.trans hskip

theorem bounded_readLiteralWith {list : LiteralReader}
    (hlist : ∀ n rest, rest.length < n →
      AppSpec.Ends (StopsWithin n) (fun r => r.2 <:+ rest) (list rest)) :
    BoundedText (readLiteralWith list) := by
  intro n cs h
  unfold readLiteralWith
  split
  · next rest => exact (hlist n rest h).result fun _ hr => hr.trans (List.suffix_cons _ _)
  · exact (TypeText.splitQuoted_suffix _ _).trans (List.suffix_cons _ _)
  · exact (TypeText.splitQuoted_suffix _ _).trans (List.suffix_cons _ _)
  · have hbare := TypeText.splitBare_append isLiteralStop 0 cs
    dsimp only
    split
    · exact ⟨_, hbare⟩
    · trivial

theorem bounded_readLiteral (limit : Int) (depth : Nat) :
    BoundedText (readLiteral limit depth) := by
  induction depth with
  | zero => exact bounded_readLiteralWith fun _ _ h => h
  | succ depth ih => exact bounded_readLiteralWith fun n rest h => bounded_readList ih n rest h.le

/-! ### Blocks -/

theorem within_readConstraint (limit : Int) (found : Constraints) (h : s.left ≤ n) :
    Within n s (readConstraint limit s found) := by
  have hname := TypeText.splitName_suffix s.rest
  unfold readConstraint
  dsimp only
  split
  · exact Onward.note (TypeText.skipEntry_suffix _ _ _) h
  · next name rest _ hsplit =>
      rw [hsplit] at hname
      have hskip := (Text.skipBlanks_suffix rest).trans hname
      split
      · next value heq =>
          have hvalue : Text.skipBlanks value <:+ s.rest :=
            ((Text.skipBlanks_suffix value).trans (heq ▸ List.suffix_cons _ _)).trans hskip
          have hread := bounded_readLiteral limit limit.toNat n _ (hvalue.length_le.trans h)
          split
          · next fault hstop =>
              rw [hstop] at hread
              exact Onward.note ((TypeText.skipEntry_suffix _ _ _).trans hvalue) hread
          · trivial
          · next after hok =>
              rw [hok] at hread
              exact Onward.of_suffix (hread.trans hvalue)
          · next after hok =>
              rw [hok] at hread
              exact Onward.note ((TypeText.skipEntry_suffix _ _ _).trans (hread.trans hvalue))
                (hvalue.length_le.trans h)
      · exact Onward.of_suffix hskip

theorem onward_endConstraint (h : s.left ≤ n) : Onward n s (endConstraint s) := by
  have hskip := Onward.skipBlanks (n := n) s
  refine hskip.trans ?_
  have hleft := hskip.left_le.trans h
  unfold endConstraint
  generalize s.skipBlanks = t at hleft
  dsimp only
  split
  · next heq => exact Onward.of_suffix (heq ▸ List.suffix_cons _ _)
  · exact Onward.refl t
  · exact Onward.refl t
  · have hentry := TypeText.skipEntry_suffix 0 .outside t.rest
    refine Onward.note ?_ hleft
    split
    · next heq => exact (List.suffix_cons _ _).trans (heq ▸ hentry)
    · exact hentry

theorem within_readBlock (limit : Int) {openLeft : Nat} (hopen : openLeft ≤ n) (steps : Nat)
    (found : Constraints) (h : s.left ≤ n) :
    Within n s (readBlock limit openLeft steps s found) := by
  induction steps using Nat.strongRecOn generalizing s found with
  | ind steps ih =>
      have hskip := Onward.skipBlanks (n := n) s
      refine Within.after hskip ?_
      have hleft := hskip.left_le.trans h
      rw [readBlock.eq_def]
      dsimp only
      split
      · next heq => exact Onward.of_suffix (heq ▸ List.suffix_cons _ _)
      · next m _ _ =>
          refine (within_readConstraint limit found hleft).bind fun found t ht => ?_
          have hentry := onward_endConstraint (n := n) (ht.left_le.trans hleft)
          exact Within.after hentry
            (ih m (Nat.lt_succ_self m) _ ((hentry.left_le.trans ht.left_le).trans hleft))
      · exact Onward.note (List.suffix_refl _) hopen

/-! ### Types -/

theorem within_readSuffixes (limit : Int) (steps depth : Nat) (t : TypeExpr) (h : s.left ≤ n) :
    Within n s (readSuffixes limit steps depth t s) := by
  induction steps using Nat.strongRecOn generalizing depth t s with
  | ind steps ih =>
      have hskip := Onward.skipBlanks (n := n) s
      refine Within.after hskip ?_
      have hleft := hskip.left_le.trans h
      rw [readSuffixes.eq_def]
      dsimp only
      generalize s.skipBlanks = e at hleft
      split
      · next rest m hmark =>
          split
          · exact hleft
          · have hnext : Onward n e { e with rest } :=
              Onward.of_suffix (hmark ▸ List.suffix_cons _ _)
            exact Within.after hnext (ih m (Nat.lt_succ_self m) _ _ (hnext.left_le.trans hleft))
      · next rest m hbrace =>
          have hnext : Onward n e { e with rest } :=
            Onward.of_suffix (hbrace ▸ List.suffix_cons _ _)
          have hblock := within_readBlock limit hleft e.left [] (hnext.left_le.trans hleft)
          refine Within.after hnext (hblock.bind fun block e' he' => ?_)
          exact ih m (Nat.lt_succ_self m) _ _ (he'.left_le.trans (hnext.left_le.trans hleft))
      · exact Onward.refl e

theorem ends_expect {c : Char} {context : Expecting} (h : s.left ≤ n) :
    AppSpec.Ends (StopsWithin n) (Onward n s) (expect c context s) := by
  have hskip := Onward.skipBlanks (n := n) s
  have hleft := hskip.left_le.trans h
  unfold expect
  dsimp only
  split
  · next heq =>
      split
      · exact hskip.trans (Onward.of_suffix (heq ▸ List.suffix_cons _ _))
      · exact hleft
  · exact hleft

theorem Within.expect {c : Char} {context : Expecting} (h : s.left ≤ n)
    {f : TypeCursor → Except TypeStop (α × TypeCursor)}
    (hf : ∀ s', Onward n s s' → Within n s' (f s')) :
    Within n s (TypeExpr.expect c context s >>= f) :=
  (ends_expect h).bind fun s' h => (hf s' h).after h

section

variable {item : TypeReader TypeExpr} (hitem : Bounded item)

include hitem

theorem within_readArguments (steps : Nat) (h : s.left ≤ n) :
    Within n s (readArguments item steps s) := by
  induction steps generalizing s with
  | zero => exact Onward.refl s
  | succ steps ih =>
      rw [readArguments]
      refine Within.bind (hitem n s h) fun t e he => ?_
      have hleft := he.left_le.trans h
      refine Within.after (Onward.skipBlanks e) ?_
      dsimp only
      have hskip := (Onward.skipBlanks (n := n) e).left_le.trans hleft
      generalize e.skipBlanks = b at hskip
      split
      · next rest hcomma =>
          have hnext : Onward n b { b with rest } :=
            Onward.of_suffix (hcomma ▸ List.suffix_cons _ _)
          refine Within.after hnext ?_
          exact (ih (hnext.left_le.trans hskip)).bind fun ts e' _ => Onward.refl e'
      · exact Onward.refl b

theorem within_readFields (steps : Nat) (found : List (String × TypeExpr)) (h : s.left ≤ n) :
    Within n s (readFields item steps found s) := by
  induction steps generalizing s found with
  | zero => exact Onward.refl s
  | succ steps ih =>
      have hskip := Onward.skipBlanks (n := n) s
      refine Within.after hskip ?_
      have hleft := hskip.left_le.trans h
      have hname := TypeText.splitName_suffix s.skipBlanks.rest
      rw [readFields]
      dsimp only
      generalize s.skipBlanks = a at hleft hname
      split
      · exact hleft
      · next name rest _ hsplit =>
          rw [hsplit] at hname
          have hnamed : Onward n a { a with rest } := Onward.of_suffix hname
          refine Within.after hnamed ?_
          refine Within.expect (hnamed.left_le.trans hleft) fun e he => ?_
          have heleft := (he.left_le.trans hnamed.left_le).trans hleft
          refine Within.bind (hitem n e heleft) fun t b hb => ?_
          have hbleft := hb.left_le.trans heleft
          dsimp only
          split
          · exact hleft
          · have hblanks := Onward.skipBlanks (n := n) b
            refine Within.after hblanks ?_
            split
            · next rest hcomma =>
                have hnext : Onward n b.skipBlanks { b.skipBlanks with rest } :=
                  Onward.of_suffix (hcomma ▸ List.suffix_cons _ _)
                refine Within.after hnext (ih _ ?_)
                exact (hnext.left_le.trans hblanks.left_le).trans hbleft
            · exact Onward.refl _

end

theorem ends_quotedEnumValue (h : s.left ≤ n) {quote : Char} {rest : List Char}
    (hrest : s.rest = quote :: rest) :
    AppSpec.Ends (StopsWithin n) (fun r => r.2 <:+ s.rest)
      (match TypeText.splitQuoted quote rest with
        | (none, _) => faultAt s .unterminatedEnumText
        | (some text, rest) => .ok (text, rest)) := by
  have hsuffix := TypeText.splitQuoted_suffix quote rest
  split
  · exact h
  · next heq =>
      rw [heq] at hsuffix
      exact hsuffix.trans (hrest ▸ List.suffix_cons _ _)

theorem ends_readEnumValue (h : s.left ≤ n) :
    AppSpec.Ends (StopsWithin n) (fun r => r.2 <:+ s.rest) (readEnumValue s) := by
  have hbare := TypeText.splitBare_append isEnumStop 0 s.rest
  unfold readEnumValue
  split
  · next heq => exact ends_quotedEnumValue h heq
  · next heq => exact ends_quotedEnumValue h heq
  · have hsuffix : (TypeText.splitBare isEnumStop 0 s.rest).2 <:+ s.rest := ⟨_, hbare⟩
    dsimp only
    split
    · exact hsuffix.length_le.trans h
    · split
      · exact h
      · exact hsuffix

/-- Behind a value stands a comma and the values after it, or they end there. -/
theorem within_laterEnumValues {steps : Nat} {found : List String} {b : TypeCursor}
    (hs : s.left ≤ n) (hb : Onward n s b)
    (hlater : ∀ {e : TypeCursor}, e.left ≤ n → Within n e (readEnumValues steps found e)) :
    Within n s (match b.rest with
      | ',' :: rest => readEnumValues steps found { b with rest }
      | _ => .ok (found, b)) := by
  refine Within.after hb ?_
  split
  · next rest hcomma =>
      have hnext : Onward n b { b with rest } := Onward.of_suffix (hcomma ▸ List.suffix_cons _ _)
      exact Within.after hnext (hlater ((hnext.left_le.trans hb.left_le).trans hs))
  · exact Onward.refl b

theorem within_readEnumValues (steps : Nat) (found : List String) (h : s.left ≤ n) :
    Within n s (readEnumValues steps found s) := by
  induction steps generalizing s found with
  | zero => exact Onward.refl s
  | succ steps ih =>
      have hskip := Onward.skipBlanks (n := n) s
      refine Within.after hskip ?_
      have hleft := hskip.left_le.trans h
      rw [readEnumValues]
      dsimp only
      generalize s.skipBlanks = a at hleft
      refine (ends_readEnumValue hleft).bind ?_
      rintro ⟨text, rest⟩ hrest
      dsimp only at hrest ⊢
      have hrest : Text.skipBlanks rest <:+ a.rest := (Text.skipBlanks_suffix rest).trans hrest
      by_cases hknown : found.contains (String.ofList text) = true
      · simp only [if_pos hknown]
        have hnoted : Onward n a { a.note (.duplicateEnumValue (String.ofList text)) a.left with
            rest := Text.skipBlanks rest } := Onward.note hrest hleft
        exact within_laterEnumValues hleft hnoted (ih found)
      · simp only [if_neg hknown]
        exact within_laterEnumValues hleft (Onward.of_suffix hrest) (ih _)

theorem within_readComposite {item : TypeReader TypeExpr} (hitem : Bounded item)
    (composite : Composite) (name : String) {nameLeft : Nat} (hname : nameLeft ≤ n)
    (h : s.left ≤ n) : Within n s (readComposite item composite name nameLeft s) := by
  have hclose (t : TypeExpr) {e : TypeCursor} (he : Onward n s e) :
      Within n e (do return (t, ← expect ']' (.closing name nameLeft) e)) :=
    Within.expect (he.left_le.trans h) fun e' _ => Onward.refl e'
  have harguments (hcomposite : composite = .map ∨ composite = .array ∨ composite = .optional) :
      Within n s (readComposite item composite name nameLeft s) := by
    rw [readComposite_arguments item s name nameLeft hcomposite]
    refine (within_readArguments hitem (s.left + 1) h).bind fun arguments e he => ?_
    dsimp only
    split
    · exact hclose _ he
    · exact hname
  have hskip := Onward.skipBlanks (n := n) s
  have hleft := hskip.left_le.trans h
  cases composite with
  | enum =>
      exact (within_readEnumValues _ [] h).bind fun values e he => hclose (.enum values []) he
  | reference =>
      have hsplit := TypeText.splitName_suffix s.skipBlanks.rest
      unfold readComposite
      dsimp only
      split
      · exact hleft
      · next target rest _ heq =>
          rw [heq] at hsplit
          have hnext := hskip.trans (Onward.of_suffix hsplit)
          exact Within.after hnext (hclose (.reference _ []) hnext)
  | object =>
      refine Within.after hskip ?_
      unfold readComposite
      dsimp only
      split
      · exact hclose (.object [] []) hskip
      · refine (within_readFields hitem _ [] hleft).bind fun fields e he => ?_
        exact hclose (.object fields []) (hskip.trans he)
  | map => exact harguments (.inl rfl)
  | array => exact harguments (.inr (.inl rfl))
  | optional => exact harguments (.inr (.inr rfl))

theorem bounded_readForm {item : TypeReader TypeExpr} (hitem : Bounded item) :
    Bounded (readForm item) := by
  intro n s h
  have hskip := Onward.skipBlanks (n := n) s
  refine Within.after hskip ?_
  have hleft := hskip.left_le.trans h
  have hsplit := TypeText.splitName_suffix s.skipBlanks.rest
  rw [readForm_eq]
  generalize s.skipBlanks = a at hleft hsplit
  split
  · exact hleft
  · next c cs rest heq =>
      rw [heq] at hsplit
      have hblanks := (Text.skipBlanks_suffix rest).trans hsplit
      split
      · next inner hbracket =>
          have hinner : Onward n a ⟨inner, a.issues⟩ :=
            Onward.of_suffix ((hbracket ▸ List.suffix_cons _ _ : inner <:+ _).trans hblanks)
          split
          · exact Within.after hinner
              (within_readComposite hitem _ _ hleft (hinner.left_le.trans hleft))
          · exact (hbracket ▸ hblanks).length_le.trans hleft
      · have halone : Onward n a ⟨Text.skipBlanks rest, a.issues⟩ := Onward.of_suffix hblanks
        unfold readAlone
        split
        · exact halone
        · exact halone.left_le.trans hleft
        · exact halone

theorem bounded_readType (limit : Int) (levels : Nat) : Bounded (readType limit levels) := by
  induction levels with
  | zero => exact fun _ _ h => h
  | succ levels ih =>
      intro n s h
      refine Within.bind (bounded_readForm ih n s h) fun t e he => ?_
      exact within_readSuffixes limit _ _ t (he.left_le.trans h)

/-! ### Whole texts -/

theorem ends_readTrailing {cs : List Char} {issues : List TypeIssue} (h : cs.length ≤ n)
    (hissues : ∀ issue ∈ issues, issue.left ≤ n) :
    AppSpec.Ends (StopsWithin n) (fun issues => ∀ issue ∈ issues, issue.left ≤ n)
      (readTrailing cs issues) := by
  induction cs generalizing issues with
  | nil => exact hissues
  | cons c cs ih =>
      have hcs : cs.length ≤ n := (Nat.le_succ _).trans h
      rw [readTrailing]
      split
      · exact ih hcs hissues
      · split
        · refine ih hcs (List.forall_mem_append.mpr ⟨hissues, ?_⟩)
          exact List.forall_mem_singleton.mpr h
        · exact h

theorem readWhole_within (limit : Int) (cs : List Char) :
    AppSpec.Ends (StopsWithin cs.length) (fun r => ∀ issue ∈ r.2, issue.left ≤ cs.length)
      (readWhole limit cs) := by
  have hskip : (Text.skipBlanks cs).length ≤ cs.length := (Text.skipBlanks_suffix cs).length_le
  unfold readWhole
  dsimp only
  split
  · exact hskip
  · refine AppSpec.Ends.bind (bounded_readType limit _ _ ⟨Text.skipBlanks cs, []⟩ hskip) ?_
    rintro ⟨t, e⟩ he
    obtain ⟨added, hadded, hleft⟩ := he.added
    have hissues : ∀ issue ∈ e.issues, issue.left ≤ cs.length := by
      rw [hadded]
      exact hleft
    exact (ends_readTrailing (he.left_le.trans hskip) hissues).bind fun issues h => h

end TypeExpr

end AppSpec
