import AppSpec.Proofs.Yaml.Token.Scalar
import AppSpec.Yaml.Token.Stream

/-!
The tokens of a text end in a failure only at a hurdle of the text.
-/

namespace AppSpec.Yaml

namespace TokenStream

variable {text : List Char} {s : TokenStream}

/-! ### Keys and blocks -/

theorem cursor_unwindTo (column : Int) (indents : List Int) (s : TokenStream) :
    (unwindTo column indents s).cursor = s.cursor := by
  induction indents generalizing s with
  | nil => rfl
  | cons outer rest ih =>
      rw [unwindTo]
      split
      · exact ih _
      · rfl

theorem cursor_unwind (s : TokenStream) (column : Int) : (s.unwind column).cursor = s.cursor := by
  rw [unwind]
  split
  · rfl
  · exact cursor_unwindTo column s.indents s

theorem cursor_openBlock (s : TokenStream) (kind : TokenKind) :
    (s.openBlock kind).cursor = s.cursor := by
  rw [openBlock]
  split
  · rfl
  · rfl

theorem skipFrom_suffix (inComment newLine : Bool) (cs : List Char) (m : Mark) :
    (skipFrom inComment newLine cs m).2.rest <:+ cs := by
  induction cs generalizing inComment newLine m with
  | nil => exact List.suffix_refl _
  | cons c cs ih =>
      have hrest (inComment newLine : Bool) :
          (skipFrom inComment newLine cs (m.after c cs)).2.rest <:+ c :: cs :=
        (ih _ _ _).trans (List.suffix_cons _ _)
      rw [skipFrom]
      split
      · exact hrest ..
      · split
        · exact hrest ..
        · split
          · exact hrest ..
          · exact List.suffix_refl _

section Steps

variable (h : s.cursor.Within text)

include h

theorem scans_dropStale : Scans text cursor s.dropStale := by
  rw [dropStale]
  dsimp only
  split
  · exact .stop
  · exact .ok h

theorem scans_dropKey : Scans text cursor s.dropKey := by
  rw [dropKey]
  split
  · exact .ok h
  · split
    · exact .stop
    · exact .ok h

theorem scans_saveKey : Scans text cursor s.saveKey := by
  rw [saveKey]
  split
  · exact .ok h
  · exact (scans_dropKey h).bind fun _ hs => .ok hs

theorem scans_notAllowed {problem : Problem} : Scans text cursor (s.notAllowed problem) := by
  rw [notAllowed]
  split
  · exact ⟨ends_stopAt⟩
  · exact .ok h

theorem within_unwind (column : Int) : (s.unwind column).cursor.Within text :=
  (cursor_unwind s column).symm ▸ h

theorem within_openBlock (kind : TokenKind) : (s.openBlock kind).cursor.Within text :=
  (cursor_openBlock s kind).symm ▸ h

theorem within_indicator (length : Nat) (kind : TokenKind) :
    (s.indicator length kind).cursor.Within text := h.of_suffix (Cursor.advance_suffix length _)

theorem within_skipToToken : s.skipToToken.cursor.Within text := by
  have hmark : (if s.cursor.mark.index == 0 && s.cursor.peek == byteOrderMark then s.cursor.next
      else s.cursor).rest <:+ s.cursor.rest := by
    split
    · exact s.cursor.next_suffix
    · exact List.suffix_refl _
  exact h.of_suffix ((skipFrom_suffix false false _ _).trans hmark)

/-! ### Tokens -/

theorem scans_endStream : Scans text cursor s.endStream :=
  (scans_dropKey (within_unwind h _)).bind fun _ hs => .ok hs

theorem scans_startDirective : Scans text cursor s.startDirective :=
  (scans_dropKey (within_unwind h _)).bind fun _ hs => (scans_directive hs).bind fun _ hr => .ok hr

theorem scans_documentMarker {kind : TokenKind} : Scans text cursor (s.documentMarker kind) :=
  (scans_dropKey (within_unwind h _)).bind fun _ hs => .ok (within_indicator hs 3 kind)

theorem scans_startFlow {kind : TokenKind} : Scans text cursor (s.startFlow kind) :=
  (scans_saveKey h).bind fun _ hs => .ok (within_indicator hs 1 kind)

theorem scans_endFlow {kind : TokenKind} : Scans text cursor (s.endFlow kind) :=
  (scans_dropKey h).bind fun _ hs => .ok (within_indicator hs 1 kind)

theorem scans_flowEntry : Scans text cursor s.flowEntry :=
  (scans_dropKey h).bind fun _ hs => .ok (within_indicator hs 1 .flowEntry)

theorem scans_blockEntry : Scans text cursor s.blockEntry :=
  (scans_notAllowed h).bind fun _ hs => (scans_dropKey (within_openBlock hs _)).bind fun _ hs =>
    .ok (within_indicator hs 1 .blockEntry)

theorem scans_explicitKey : Scans text cursor s.explicitKey :=
  (scans_notAllowed h).bind fun _ hs => (scans_dropKey (within_openBlock hs _)).bind fun _ hs =>
    .ok (within_indicator hs 1 .key)

theorem within_simpleValue (k : SimpleKey) : (s.simpleValue k).cursor.Within text := by
  rw [simpleValue]
  split
  · exact within_indicator h 1 .value
  · exact within_indicator h 1 .value

theorem scans_value : Scans text cursor s.value := by
  rw [value]
  split
  · exact .ok (within_simpleValue h _)
  · exact (scans_notAllowed h).bind fun _ hs =>
      (scans_dropKey (within_openBlock hs _)).bind fun _ hs => .ok (within_indicator hs 1 .value)

theorem scans_keyToken {read : Cursor → Except Stop (Token × Cursor)}
    (hread : ∀ c : Cursor, c.Within text → Scans text Prod.snd (read c)) :
    Scans text cursor (s.keyToken read) :=
  (scans_saveKey h).bind fun s hs => (hread s.cursor hs).bind fun _ hr => .ok hr

theorem scans_block : Scans text cursor s.block :=
  (scans_dropKey h).bind fun s hs => (scans_blockScalar hs s.indent).bind fun _ hr => .ok hr

theorem scans_plain : Scans text cursor s.plain :=
  (scans_saveKey h).bind fun s hs => .ok (hs.of_suffix (plainScalar_suffix _ _ s.cursor))

theorem scans_other : Scans text cursor (tokenHere.other s) := by
  rw [tokenHere.other]
  split
  · exact scans_plain h
  · exact ⟨nofun⟩

theorem scans_tokenHere : Scans text cursor s.tokenHere := by
  have hother := scans_other h
  rw [tokenHere]
  split
  · split
    · exact scans_startDirective h
    · exact hother
  · split
    · exact scans_documentMarker h
    · split
      · exact scans_blockEntry h
      · exact hother
  · split
    · exact scans_documentMarker h
    · exact hother
  · exact scans_startFlow h
  · exact scans_startFlow h
  · exact scans_endFlow h
  · exact scans_endFlow h
  · exact scans_flowEntry h
  · split
    · exact scans_explicitKey h
    · exact hother
  · split
    · exact scans_value h
    · exact hother
  · exact scans_keyToken h fun _ => scans_anchor
  · exact scans_keyToken h fun _ => scans_anchor
  · exact scans_keyToken h fun _ => scans_tag
  · split
    · exact hother
    · exact scans_block h
  · split
    · exact hother
    · exact scans_block h
  · exact scans_keyToken h fun _ => scans_quotedScalar
  · exact scans_keyToken h fun _ => scans_quotedScalar
  · exact hother

theorem scans_fetch : Scans text cursor s.fetch := by
  refine (scans_dropStale (within_skipToToken h)).bind fun s hs => ?_
  dsimp only
  split
  · exact scans_endStream (within_unwind hs _)
  · exact scans_tokenHere (within_unwind hs _)

end Steps

theorem failsIn_run (steps : Nat) (s : TokenStream) (h : s.cursor.Within text) {stop : Stop}
    (hstop : (run steps s).2 = some stop) : Stop.FailsIn (TextHurdle text) stop := by
  induction steps generalizing s with
  | zero =>
      rw [run] at hstop
      exact absurd hstop (by simp)
  | succ steps ih =>
      have hfetch := (scans_fetch h).ends
      rw [run] at hstop
      cases hs : s.fetch with
      | error e =>
          rw [hs] at hfetch hstop
          exact Option.some.inj hstop ▸ hfetch
      | ok s' =>
          rw [hs] at hfetch hstop
          have hstale := (scans_dropStale hfetch).ends
          dsimp only at hstop
          cases hs' : s'.dropStale with
          | error e =>
              rw [hs'] at hstale hstop
              exact Option.some.inj hstop ▸ hstale
          | ok s'' =>
              rw [hs'] at hstale hstop
              dsimp only at hstop
              split at hstop
              · exact absurd hstop (by simp)
              · exact ih s''.send hstale hstop

end TokenStream

theorem failsIn_tokens (text : List Char) :
    ∀ stop ∈ (tokens text).2, Stop.FailsIn (TextHurdle text) stop := fun _ hstop =>
  TokenStream.failsIn_run (text.length + 1) { cursor := .ofText text } (List.suffix_refl text) hstop

end AppSpec.Yaml
