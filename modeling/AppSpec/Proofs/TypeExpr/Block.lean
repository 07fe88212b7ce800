import AppSpec.Proofs.TypeExpr.Invariant

/-!
Printed constraint blocks, read back. Each entry comes back under its own name, in the same order.
-/

namespace AppSpec

open TypeText (StopHead NoNameHead)
open Literal (separated)

namespace TypeExpr

theorem isStart_ne {c d : Char} (h : TypeText.isNameStart c = true)
    (hd : TypeText.isNameStart d = false) : c ≠ d := by
  rintro rfl
  rw [h] at hd
  cases hd

theorem IsIdentifier.splitName {name : String} (h : IsIdentifier name) {rest : List Char}
    (hrest : NoNameHead rest) :
    TypeText.splitName (name.toList ++ rest) = (name.toList, rest) := by
  obtain ⟨c, cs, hname, hc, hcs⟩ := h
  rw [hname]
  exact TypeText.splitName_cons hc hcs hrest

theorem IsIdentifier.ne_nil {name : String} (h : IsIdentifier name) : name.toList ≠ [] := by
  obtain ⟨c, cs, hname, -, -⟩ := h
  rw [hname]
  simp

theorem IsIdentifier.skipBlanks {name : String} (h : IsIdentifier name) (rest : List Char) :
    Text.skipBlanks (name.toList ++ rest) = name.toList ++ rest := by
  obtain ⟨c, cs, hname, hc, -⟩ := h
  have hword := TypeText.isWordChar_of_isNameChar (TypeText.isNameChar_of_isNameStart hc)
  rw [hname]
  exact TypeText.skipBlanks_cons
    (TypeText.isBlank_of_isAtom (TypeText.isAtom_of_isWordChar hword)) _

theorem IsIdentifier.splitName_skipBlanks {name : String} (h : IsIdentifier name)
    {rest : List Char} (hrest : NoNameHead rest) :
    TypeText.splitName (Text.skipBlanks (name.toList ++ rest)) = (name.toList, rest) := by
  rw [h.skipBlanks, h.splitName hrest]

theorem noNameHead_cons {c : Char} (h : TypeText.isNameChar c = false) (rest : List Char) :
    NoNameHead (c :: rest) := by
  intro d hd
  cases hd
  exact h

/-! ### Entries -/

theorem readConstraint_value (limit : Int) (issues : List TypeIssue) (found : Constraints)
    {key : String} (hkey : IsIdentifier key) (rest : List Char) :
    readConstraint limit ⟨key.toList ++ ':' :: rest, issues⟩ found =
      match readLiteral limit limit.toNat (Text.skipBlanks rest) with
      | .error (.fault fault) =>
          .ok (found,
            { (TypeCursor.mk (key.toList ++ ':' :: rest) issues).note
                (.constraintFault key fault.kind) fault.left with
              rest := TypeText.skipEntry 0 .outside (Text.skipBlanks rest) })
      | .error (.failure failure) => .error (.failure failure)
      | .ok (some value, after) => .ok (found.set key value, ⟨after, issues⟩)
      | .ok (none, after) =>
          .ok (found,
            { (TypeCursor.mk (key.toList ++ ':' :: rest) issues).note (.notLiteral key)
                (Text.skipBlanks rest).length with
              rest := TypeText.skipEntry 0 .outside after }) := by
  have hsplit := hkey.splitName (noNameHead_cons (by decide : TypeText.isNameChar ':' = false) rest)
  have hne := hkey.ne_nil
  have hcolon := TypeText.skipBlanks_cons (by decide : Text.isBlank ':' = false) rest
  unfold readConstraint
  dsimp only
  rw [hsplit]
  split
  · next heq => exact absurd (Prod.mk.inj heq).1 hne
  · next heq =>
      cases heq
      rw [hcolon, String.ofList_toList]
      rfl

def entryText (key : String) (text : List Char) : List Char := key.toList ++ ':' :: ' ' :: text

structure RereadsEntry (limit : Int) (issues : List TypeIssue) (found : Constraints) (key : String)
    (value : Value) (text rest : List Char) : Prop where
  exact : value.Faithful →
    readConstraint limit ⟨entryText key text ++ rest, issues⟩ found =
      .ok (found.set key value, ⟨rest, issues⟩)
  clean : ∀ found' s',
    readConstraint limit ⟨entryText key text ++ rest, issues⟩ found = .ok (found', s') →
      issues = s'.issues → ∃ value', found' = found.set key value' ∧ s' = ⟨rest, issues⟩ ∧
        (value.same value' = true → value.Faithful)

theorem rereadsEntry {limit : Int} {key : String} {value : Value} {text rest : List Char}
    (issues : List TypeIssue) (found : Constraints) (hkey : IsIdentifier key)
    (hvalue : value.IsLiteral limit.toNat) (hw : Literal.write value = .ok text)
    (hrest : StopHead isLiteralStop rest) :
    RereadsEntry limit issues found key value text rest := by
  have hread := Literal.rereadsItem limit value limit.toNat hvalue text rest hw hrest
  have hskip : Text.skipBlanks (' ' :: (text ++ rest)) = text ++ rest := by
    rw [TypeText.skipBlanks_space, Literal.skipBlanks_text hvalue hw]
  have heq := readConstraint_value limit issues found hkey (' ' :: (text ++ rest))
  rw [hskip] at heq
  have htext : entryText key text ++ rest = key.toList ++ ':' :: ' ' :: (text ++ rest) := by
    rw [entryText, List.append_assoc]
    rfl
  constructor
  · intro hfaithful
    rw [htext, heq, hread.exact hfaithful]
  · intro found' s' h hissues
    rw [htext, heq] at h
    split at h
    · cases h
      exact absurd hissues.symm (issues_ne_note _ _ _)
    · cases h
    · next value' after hresult =>
        obtain ⟨rfl, hsame⟩ := hread.clean _ _ hresult
        cases h
        exact ⟨value', rfl, rfl, hsame⟩
    · cases h
      exact absurd hissues.symm (issues_ne_note _ _ _)

/-! ### Blocks -/

theorem writeConstraints_cons {key : String} {value : Value} {block : Constraints}
    {texts : List (List Char)} (h : writeConstraints ((key, value) :: block) = .ok texts) :
    ∃ text rest, Literal.write value = .ok text ∧ writeConstraints block = .ok rest ∧
      texts = entryText key text :: rest := by
  rw [writeConstraints] at h
  obtain ⟨text, htext, h⟩ := bind_eq_ok.mp h
  obtain ⟨rest, hrest, h⟩ := bind_eq_ok.mp h
  cases h
  exact ⟨text, rest, htext, hrest, rfl⟩

theorem writeConstraints_length {block : Constraints} {texts : List (List Char)}
    (h : writeConstraints block = .ok texts) :
    texts.length = block.length ∧ ∀ text ∈ texts, text ≠ [] := by
  induction block generalizing texts with
  | nil =>
      cases h
      simp
  | cons entry block ih =>
      obtain ⟨text, texts, -, htexts, rfl⟩ := writeConstraints_cons h
      obtain ⟨hlength, hne⟩ := ih htexts
      exact ⟨by rw [List.length_cons, hlength, List.length_cons],
        List.forall_mem_cons.mpr ⟨by simp [entryText], hne⟩⟩

theorem endConstraint_comma (rest : List Char) (issues : List TypeIssue) :
    endConstraint ⟨',' :: rest, issues⟩ = ⟨rest, issues⟩ := rfl

theorem readBlock_brace (limit : Int) (openLeft steps : Nat) (rest : List Char)
    (issues : List TypeIssue) (found : Constraints) :
    readBlock limit openLeft steps ⟨'\x7d' :: rest, issues⟩ found = .ok (found, ⟨rest, issues⟩) := by
  rw [readBlock.eq_def]
  rfl

theorem readBlock_space (limit : Int) (openLeft steps : Nat) (rest : List Char)
    (issues : List TypeIssue) (found : Constraints) :
    readBlock limit openLeft steps ⟨' ' :: rest, issues⟩ found =
      readBlock limit openLeft steps ⟨rest, issues⟩ found := by
  rw [readBlock.eq_def, readBlock.eq_def limit openLeft steps ⟨rest, issues⟩]
  simp only [TypeCursor.skipBlanks, TypeText.skipBlanks_space]

theorem readBlock_entry (limit : Int) (openLeft steps : Nat) {key : String}
    (hkey : IsIdentifier key) (rest : List Char) (issues : List TypeIssue) (found : Constraints) :
    readBlock limit openLeft (steps + 1) ⟨key.toList ++ rest, issues⟩ found =
      (readConstraint limit ⟨key.toList ++ rest, issues⟩ found >>= fun r =>
        readBlock limit openLeft steps (endConstraint r.2) r.1) := by
  have hskip := hkey.skipBlanks rest
  obtain ⟨c, cs, hname, hc, -⟩ := hkey
  have hbrace := isStart_ne hc (by decide : TypeText.isNameStart '\x7d' = false)
  rw [readBlock.eq_def]
  simp only [TypeCursor.skipBlanks, hskip]
  rw [hname, List.cons_append]
  split
  · next heq => exact absurd (List.cons.inj heq).1 hbrace
  · next heq =>
      cases heq
      rfl
  · next hnil hsome => exact absurd rfl (hsome _ _ _ rfl)

theorem issues_eq {a b c : List TypeIssue} (hab : a <+: b) (hbc : b <+: c) (hac : a = c) :
    a = b := by
  subst hac
  exact hab.sublist.antisymm hbc.sublist

structure RereadsBlock (limit : Int) (openLeft steps : Nat) (issues : List TypeIssue)
    (found block : Constraints) (text rest : List Char) : Prop where
  exact : BlockFaithful block →
    readBlock limit openLeft steps ⟨text ++ '\x7d' :: rest, issues⟩ found =
      .ok (found ++ block, ⟨rest, issues⟩)
  clean : ∀ found' s',
    readBlock limit openLeft steps ⟨text ++ '\x7d' :: rest, issues⟩ found = .ok (found', s') →
      issues = s'.issues → s' = ⟨rest, issues⟩ ∧
        (∀ key, key ∉ Named.keys block → Named.get? found' key = Named.get? found key) ∧
        ∀ entry ∈ block, ∃ value, Named.get? found' entry.1 = some value ∧
          (entry.2.same value = true → entry.2.Faithful)

theorem separated_block (limit : Int) (openLeft : Nat) (text : List Char) (texts : List (List Char))
    (rest : List Char) :
    ∃ after, separated (text :: texts) ++ '\x7d' :: rest = text ++ after ∧
      StopHead isLiteralStop after ∧
      ∀ issues steps found, readBlock limit openLeft steps (endConstraint ⟨after, issues⟩) found =
        readBlock limit openLeft steps ⟨separated texts ++ '\x7d' :: rest, issues⟩ found := by
  cases texts with
  | nil => exact ⟨_, rfl, Literal.stopHead_brace rest, fun _ _ _ => rfl⟩
  | cons second texts =>
      refine ⟨_, Literal.separated_cons text second texts _, Literal.stopHead_comma _, ?_⟩
      intro issues steps found
      rw [endConstraint_comma, readBlock_space]

/-- One more entry in front of a block that is read back behind it. -/
theorem RereadsBlock.cons {limit : Int} {openLeft steps : Nat} {issues : List TypeIssue}
    {found block : Constraints} {key : String} {value : Value} {text rest : List Char}
    {texts : List (List Char)} (hkey : IsIdentifier key) (hnew : Named.has found key = false)
    (hnotin : key ∉ Named.keys block) (hfound : BlockWellFormed limit found)
    (hentry : ∀ after, StopHead isLiteralStop after →
      RereadsEntry limit issues found key value text after)
    (hlater : ∀ value', BlockWellFormed limit (Named.set found key value') →
      RereadsBlock limit openLeft steps issues (Named.set found key value') block
        (separated texts) rest) :
    RereadsBlock limit openLeft (steps + 1) issues found ((key, value) :: block)
      (separated (entryText key text :: texts)) rest := by
  obtain ⟨after, hafter, hstop, hnext⟩ :=
    separated_block limit openLeft (entryText key text) texts rest
  replace hentry := hentry after hstop
  have hopen : readBlock limit openLeft (steps + 1) ⟨entryText key text ++ after, issues⟩ found =
      (readConstraint limit ⟨entryText key text ++ after, issues⟩ found >>= fun r =>
        readBlock limit openLeft steps (endConstraint r.2) r.1) := by
    rw [entryText, List.append_assoc]
    exact readBlock_entry limit openLeft steps hkey _ issues found
  constructor
  · intro hfaithful
    obtain ⟨hfirst, hothers⟩ := List.forall_mem_cons.mp hfaithful
    have hread := hentry.exact hfirst
    have hkept := (readConstraint_keeps hread hfound).2
    rw [hafter, hopen, hread]
    refine (hnext issues steps _).trans ?_
    rw [(hlater value hkept).exact hothers, Named.set_of_not_has value hnew, List.append_assoc]
    rfl
  · intro found' s' h hissues
    rw [hafter, hopen] at h
    obtain ⟨⟨found₁, s₁⟩, hfirst, h⟩ := bind_eq_ok.mp h
    obtain ⟨hissues₁, hkept⟩ := readConstraint_keeps hfirst hfound
    obtain ⟨hissues₂, -⟩ := readBlock_keeps _ h hkept
    obtain ⟨value', rfl, rfl, hsame⟩ := hentry.clean _ _ hfirst
      (issues_eq hissues₁ ((endConstraint_keeps s₁).trans hissues₂) hissues)
    replace h := (hnext issues steps _).symm.trans h
    obtain ⟨hs', hframe, hentries⟩ := (hlater value' hkept).clean _ _ h hissues
    refine ⟨hs', fun name hname => ?_, List.forall_mem_cons.mpr ⟨⟨value', ?_, hsame⟩, hentries⟩⟩
    · obtain ⟨hne, hname⟩ := not_or.mp (mt List.mem_cons.mpr hname)
      rw [hframe name hname, Named.get?_set, if_neg fun heq => hne heq.symm]
    · rw [hframe key hnotin, Named.get?_set, if_pos rfl]

theorem rereadsBlock (limit : Int) (openLeft : Nat) (issues : List TypeIssue)
    {block : Constraints} {texts : List (List Char)} (steps : Nat) (found : Constraints)
    (rest : List Char) (hblock : BlockWellFormed limit block)
    (hw : writeConstraints block = .ok texts) (hfound : BlockWellFormed limit found)
    (hfresh : ∀ key ∈ Named.keys block, Named.has found key = false)
    (hsteps : block.length ≤ steps) :
    RereadsBlock limit openLeft steps issues found block (separated texts) rest := by
  obtain ⟨hnodup, hkeys, hliterals⟩ := hblock
  induction block generalizing texts steps found with
  | nil =>
      cases hw
      have hread := readBlock_brace limit openLeft steps rest issues found
      refine ⟨fun _ => by rw [List.append_nil]; exact hread, fun found' s' h _ => ?_⟩
      cases hread.symm.trans h
      exact ⟨rfl, fun _ _ => rfl, by simp⟩
  | cons entry block ih =>
      obtain ⟨key, value⟩ := entry
      obtain ⟨text, texts, htext, htexts, rfl⟩ := writeConstraints_cons hw
      obtain ⟨steps, rfl⟩ : ∃ n, steps = n + 1 := ⟨steps - 1, by simp at hsteps; omega⟩
      obtain ⟨hkey, hkeys⟩ := List.forall_mem_cons.mp hkeys
      obtain ⟨hvalue, hliterals⟩ := List.forall_mem_cons.mp hliterals
      obtain ⟨hnew, hfresh⟩ := List.forall_mem_cons.mp hfresh
      obtain ⟨hnotin, hnodup⟩ := List.nodup_cons.mp hnodup
      refine .cons hkey hnew hnotin hfound
        (fun after hstop => rereadsEntry issues found hkey hvalue htext hstop) fun value' hkept => ?_
      refine ih steps _ htexts hkept (fun name hname => ?_) (by simpa using hsteps) hnodup hkeys
        hliterals
      have hne : key ≠ name := fun heq => hnotin (heq ▸ hname)
      simp [hfresh name hname, hne]

end TypeExpr

end AppSpec
