import AppSpec.Proofs.TypeExpr.Reader
import AppSpec.Proofs.TypeExpr.Tracks

/-!
Reading a type, and reading it with more behind it: a value that no enumeration takes is still none
where the text goes on.
-/

namespace AppSpec

namespace TypeExpr

variable {α τ : Type} {q : τ → List Char} {more cs : List Char}

def InvalidValue (f : TypeFault) : Prop := ∃ value, f.kind = .invalidEnumValue value

abbrev TracksCursor (more : List Char) (s : TypeCursor)
    (x x' : Except TypeStop (α × TypeCursor)) : Prop :=
  Tracks TypeCursor.rest InvalidValue more s.rest x x'

def TracksReader (more : List Char) (read : TypeReader α) : Prop :=
  ∀ s s' : TypeCursor, s'.rest = s.rest ++ more → TracksCursor more s (read s) (read s')

theorem cursor_more (s : TypeCursor) : ∃ s' : TypeCursor, s'.rest = s.rest ++ more :=
  ⟨⟨s.rest ++ more, []⟩, rfl⟩

variable {s s' : TypeCursor}

theorem tracks_faultAt {kind : TypeFaultKind} {x' : Except TypeStop (α × τ)}
    (h : ∀ value, kind ≠ .invalidEnumValue value) :
    Tracks q InvalidValue more cs (faultAt s kind) x' :=
  Tracks.dropped fun ⟨value, hvalue⟩ => h value hvalue

theorem tracks_skipBlanks (h : s'.rest = s.rest ++ more) {t t' : TypeCursor}
    (ht : s.skipBlanks = t) (ht' : s'.skipBlanks = t')
    {f f' : TypeCursor → Except TypeStop (α × TypeCursor)}
    (hf : ∀ t t' : TypeCursor, t.rest <:+ s.rest → t'.rest = t.rest ++ more →
      TracksCursor more t (f t) (f' t')) :
    TracksCursor more s (f t) (f' t') := by
  subst ht ht'
  have hskip : s.skipBlanks.rest <:+ s.rest := Text.skipBlanks_suffix s.rest
  refine Tracks.follow (r := TypeCursor.rest) cursor_more f f' (fun t' => hf _ t' hskip) hskip
    fun hne => ?_
  rw [TypeCursor.skipBlanks, TypeCursor.skipBlanks, h]
  exact Text.skipBlanks_more hne more

theorem tracks_expect {f f' : TypeCursor → Except TypeStop (α × TypeCursor)} (c : Char)
    (context context' : Expecting) (h : s'.rest = s.rest ++ more)
    (hf : ∀ t t' : TypeCursor, t.rest <:+ s.rest → t'.rest = t.rest ++ more →
      TracksCursor more t (f t) (f' t')) :
    TracksCursor more s (expect c context s >>= f) (expect c context' s' >>= f') := by
  unfold expect
  dsimp only
  generalize ht : s.skipBlanks = t
  generalize ht' : s'.skipBlanks = t'
  apply tracks_skipBlanks h ht ht'
  clear ht ht' t t'
  rintro ⟨rest, issues⟩ ⟨_, issues'⟩ hsuffix rfl
  cases rest with
  | nil => exact tracks_faultAt (by simp)
  | cons d rest =>
      dsimp only [List.cons_append]
      split
      · have hrest : rest <:+ s.rest := (List.suffix_cons _ _).trans hsuffix
        exact (hf ⟨rest, issues⟩ ⟨rest ++ more, issues'⟩ hrest rfl).weaken (List.suffix_cons _ _)
      · exact tracks_faultAt (by simp)

theorem tracks_constraintValue (limit : Int) (key : String) (found : Constraints)
    (issues issues' : List TypeIssue) (before before' cs : List Char) :
    Tracks TypeCursor.rest InvalidValue more cs
      (match readLiteral limit limit.toNat (Text.skipBlanks cs) with
        | .error (.fault fault) => .ok (found,
            { (⟨before, issues⟩ : TypeCursor).note (.constraintFault key fault.kind) fault.left with
              rest := TypeText.skipEntry 0 .outside (Text.skipBlanks cs) })
        | .error (.failure failure) => .error (.failure failure)
        | .ok (some v, after) => .ok (found.set key v, ⟨after, issues⟩)
        | .ok (none, after) => .ok (found,
            { (⟨before, issues⟩ : TypeCursor).note (.notLiteral key) (Text.skipBlanks cs).length with
              rest := TypeText.skipEntry 0 .outside after }))
      (match readLiteral limit limit.toNat (Text.skipBlanks (cs ++ more)) with
        | .error (.fault fault) => .ok (found,
            { (⟨before', issues'⟩ : TypeCursor).note (.constraintFault key fault.kind) fault.left with
              rest := TypeText.skipEntry 0 .outside (Text.skipBlanks (cs ++ more)) })
        | .error (.failure failure) => .error (.failure failure)
        | .ok (some v, after) => .ok (found.set key v, ⟨after, issues'⟩)
        | .ok (none, after) => .ok (found,
            { (⟨before', issues'⟩ : TypeCursor).note (.notLiteral key)
                (Text.skipBlanks (cs ++ more)).length with
              rest := TypeText.skipEntry 0 .outside after })) := by
  generalize hv : Text.skipBlanks cs = value
  generalize hv' : Text.skipBlanks (cs ++ more) = value'
  apply tracks_afterBlanks hv hv'
  clear hv hv' value value'
  rintro value -
  have hliteral : TracksText more value (readLiteral limit limit.toNat value)
      (readLiteral limit limit.toNat (value ++ more)) := tracks_readLiteral limit limit.toNat value
  cases hread : readLiteral limit limit.toNat value with
  | error stop =>
      cases stop with
      | fault fault =>
          obtain ⟨-, fault', hread', -⟩ := hliteral.fault fault hread trivial
          rw [hread']
          exact Tracks.result (TypeText.skipEntry_suffix _ _ _) fun hne =>
            TypeText.skipEntry_more hne more
      | failure e => exact ⟨nofun, nofun, nofun, fun _ _ => hliteral.failure e hread⟩
  | ok r =>
      obtain ⟨v, after⟩ := r
      have hafter : after <:+ value := hliteral.suffix v after hread
      by_cases hnil : after = []
      · subst hnil
        cases v <;> exact Tracks.atEnd rfl
      · obtain ⟨_, hread', rfl⟩ := hliteral.ok v after hread hnil
        rw [hread']
        cases v with
        | some v => exact Tracks.result hafter fun _ => rfl
        | none =>
            exact Tracks.result ((TypeText.skipEntry_suffix _ _ _).trans hafter) fun hne =>
              TypeText.skipEntry_more hne more

theorem readConstraint_unnamed (limit : Int) {s : TypeCursor} (found : Constraints)
    (h : (TypeText.splitName s.rest).1 = []) :
    readConstraint limit s found =
      .ok (found, { s.note (.expectedConstraintName s.peek) s.left with
        rest := TypeText.skipEntry 0 .outside s.rest }) := by
  unfold readConstraint
  generalize TypeText.splitName s.rest = split at h
  obtain ⟨name, rest⟩ := split
  obtain rfl : name = [] := h
  rfl

theorem tracks_readConstraint_named (limit : Int) {cs : List Char} (issues issues' : List TypeIssue)
    (found : Constraints) (h : (TypeText.splitName cs).1 ≠ []) :
    Tracks TypeCursor.rest InvalidValue more (TypeText.splitName cs).2
      (readConstraint limit ⟨cs, issues⟩ found) (readConstraint limit ⟨cs ++ more, issues'⟩ found) := by
  have hmore := @TypeText.splitName_more cs
  unfold readConstraint
  dsimp only
  generalize TypeText.splitName cs = split at h hmore
  obtain ⟨_ | ⟨c, name⟩, rest⟩ := split
  · exact absurd rfl h
  dsimp only at hmore ⊢
  cases rest with
  | nil => exact Tracks.atEnd rfl
  | cons d rest =>
      rw [hmore (List.cons_ne_nil _ _) more]
      dsimp only
      generalize ha : Text.skipBlanks (d :: rest) = after
      generalize ha' : Text.skipBlanks (d :: rest ++ more) = after'
      apply tracks_afterBlanks ha ha'
      rintro (_ | ⟨e, after⟩) -
      · exact Tracks.atEnd rfl
      · rw [List.cons_append]
        split
        · next tail heq =>
            cases heq
            exact (tracks_constraintValue limit _ found issues issues' _ _ after).weaken
              (List.suffix_cons _ _)
        · next hcolon =>
            split
            · next heq => exact absurd (congrArg (· :: after) (List.cons.inj heq).1) (hcolon _)
            · exact Tracks.result (List.suffix_refl _) fun _ => rfl

theorem tracks_readConstraint (limit : Int) (found : Constraints) :
    TracksReader more fun s => readConstraint limit s found := by
  rintro ⟨cs, issues⟩ ⟨_, issues'⟩ rfl
  by_cases hname : (TypeText.splitName cs).1 = []
  · dsimp only
    rw [readConstraint_unnamed limit found hname]
    cases cs with
    | nil => exact Tracks.atEnd rfl
    | cons c cs =>
        have hall := TypeText.splitName_append (c :: cs)
        rw [hname, List.nil_append] at hall
        have hmore := TypeText.splitName_more (hall ▸ List.cons_ne_nil c cs) more
        rw [readConstraint_unnamed limit found (by rw [hmore, hname])]
        exact Tracks.result (TypeText.skipEntry_suffix _ _ _) fun hne =>
          TypeText.skipEntry_more hne more
  · exact (tracks_readConstraint_named limit issues issues' found hname).weaken
      (TypeText.splitName_suffix cs)

theorem splitName_suffix_tail {c : Char} {cs : List Char}
    (h : (TypeText.splitName (c :: cs)).1 ≠ []) : (TypeText.splitName (c :: cs)).2 <:+ cs := by
  rw [TypeText.splitName] at h ⊢
  split
  · exact List.dropWhile_suffix _
  · next hc =>
      rw [if_neg hc] at h
      exact absurd rfl h

theorem skipEntry_suffix_tail {c : Char} {cs : List Char} (hcomma : c ≠ ',') (hbrace : c ≠ '\x7d') :
    TypeText.skipEntry 0 .outside (c :: cs) <:+ cs := by
  rw [TypeText.skipEntry]
  split
  · exact TypeText.skipEntry_suffix _ _ _
  · split
    · rw [if_pos rfl, if_neg (by simpa using hbrace)]
      exact TypeText.skipEntry_suffix _ _ _
    · rw [if_neg (by simpa using hcomma)]
      split <;> exact TypeText.skipEntry_suffix _ _ _

theorem endConstraint_suffix (s : TypeCursor) : (endConstraint s).rest <:+ s.rest := by
  have hskip : s.skipBlanks.rest <:+ s.rest := Text.skipBlanks_suffix s.rest
  refine List.IsSuffix.trans ?_ hskip
  unfold endConstraint
  generalize s.skipBlanks = t
  dsimp only
  split
  · next heq => exact heq ▸ List.suffix_cons _ _
  · exact List.suffix_refl _
  · exact List.suffix_refl _
  · have hentry := TypeText.skipEntry_suffix 0 .outside t.rest
    dsimp only
    split
    · next heq => exact (List.suffix_cons _ _).trans (heq ▸ hentry)
    · exact hentry

theorem endConstraint_other {c : Char} {cs : List Char} (h : Text.skipBlanks s.rest = c :: cs)
    (hcomma : c ≠ ',') (hbrace : c ≠ '\x7d') :
    (endConstraint s).rest =
      match TypeText.skipEntry 0 .outside (c :: cs) with
      | ',' :: rest => rest
      | rest => rest := by
  unfold endConstraint TypeCursor.skipBlanks
  dsimp only
  rw [h]
  split
  · next heq => exact absurd (List.cons.inj heq).1 hcomma
  · next heq => exact absurd (List.cons.inj heq).1 hbrace
  · next heq => exact absurd heq (List.cons_ne_nil _ _)
  · next heq =>
      obtain ⟨rfl, rfl⟩ := List.cons.inj heq
      rfl

theorem dropComma_more (cs more : List Char) :
    (match cs with | ',' :: rest => rest | rest => rest) ≠ [] →
      (match cs ++ more with | ',' :: rest => rest | rest => rest) =
        (match cs with | ',' :: rest => rest | rest => rest) ++ more := by
  intro h
  cases cs with
  | nil => exact absurd rfl h
  | cons c cs =>
      by_cases hc : c = ','
      · subst hc
        rfl
      · have hdrop (ds : List Char) :
            (match c :: ds with | ',' :: rest => rest | rest => rest) = c :: ds := by
          split
          · next heq => exact absurd (List.cons.inj heq).1 hc
          · rfl
        rw [hdrop]
        exact hdrop (cs ++ more)

theorem endConstraint_more (h : s'.rest = s.rest ++ more) (hne : (endConstraint s).rest ≠ []) :
    (endConstraint s').rest = (endConstraint s).rest ++ more := by
  have hmore : Text.skipBlanks s.rest ≠ [] →
      Text.skipBlanks s'.rest = Text.skipBlanks s.rest ++ more := by
    rw [h]
    exact fun hskip => Text.skipBlanks_more hskip more
  cases hskip : Text.skipBlanks s.rest with
  | nil =>
      unfold endConstraint TypeCursor.skipBlanks at hne
      dsimp only at hne
      rw [hskip] at hne
      exact absurd rfl hne
  | cons c cs =>
      rw [hskip] at hmore
      replace hmore := hmore (List.cons_ne_nil _ _)
      by_cases hcomma : c = ','
      · unfold endConstraint TypeCursor.skipBlanks
        dsimp only
        rw [hmore, hskip, hcomma]
        rfl
      by_cases hbrace : c = '\x7d'
      · unfold endConstraint TypeCursor.skipBlanks
        dsimp only
        rw [hmore, hskip, hbrace]
        rfl
      rw [endConstraint_other hskip hcomma hbrace] at hne ⊢
      have hentry : TypeText.skipEntry 0 .outside (c :: cs) ≠ [] := fun hnil =>
        hne (by rw [hnil])
      rw [endConstraint_other (hmore.trans (List.cons_append ..)) hcomma hbrace, ← List.cons_append,
        TypeText.skipEntry_more hentry more]
      exact dropComma_more _ more hne

theorem readConstraint_consumes {limit : Int} {c : Char} {cs : List Char} {issues : List TypeIssue}
    {found found' : Constraints} (hc : c ≠ '\x7d')
    (h : readConstraint limit ⟨c :: cs, issues⟩ found = .ok (found', s)) :
    (endConstraint s).rest <:+ cs := by
  by_cases hname : (TypeText.splitName (c :: cs)).1 = []
  · rw [readConstraint_unnamed limit found hname] at h
    cases h
    by_cases hcomma : c = ','
    · subst hcomma
      exact List.suffix_refl cs
    · exact (endConstraint_suffix _).trans (skipEntry_suffix_tail hcomma hc)
  · have hnamed : Tracks TypeCursor.rest InvalidValue [] (TypeText.splitName (c :: cs)).2
        (readConstraint limit ⟨c :: cs, issues⟩ found)
        (readConstraint limit ⟨c :: cs ++ [], issues⟩ found) :=
      tracks_readConstraint_named limit issues issues found hname
    exact (endConstraint_suffix s).trans
      ((hnamed.suffix _ _ h).trans (splitName_suffix_tail hname))

theorem rest_skipBlanks_of_length (h : s.rest.length ≤ 0) : s.skipBlanks.rest = [] := by
  rw [TypeCursor.rest_skipBlanks, List.length_eq_zero_iff.mp (Nat.le_zero.mp h)]
  rfl

theorem tracks_readBlock (limit : Int) (openLeft openLeft' : Nat) (steps steps' : Nat)
    (found : Constraints) (hsteps : s.rest.length ≤ steps) (hsteps' : s'.rest.length ≤ steps')
    (h : s'.rest = s.rest ++ more) :
    TracksCursor more s (readBlock limit openLeft steps s found)
      (readBlock limit openLeft' steps' s' found) := by
  induction steps generalizing steps' s s' found with
  | zero =>
      have hskip := rest_skipBlanks_of_length hsteps
      unfold readBlock
      dsimp only
      rw [hskip]
      exact Tracks.atEnd hskip
  | succ steps ih =>
      unfold readBlock
      dsimp only
      generalize ht : s.skipBlanks = t
      generalize ht' : s'.skipBlanks = t'
      apply tracks_skipBlanks h ht ht'
      clear ht ht' t t'
      rintro ⟨cs, issues⟩ ⟨_, issues'⟩ hsuffix rfl
      have hlen := hsuffix.length_le
      rw [h, List.length_append] at hsteps'
      dsimp only at hlen ⊢
      rcases cs with _ | ⟨c, cs⟩
      · exact Tracks.atEnd rfl
      obtain ⟨steps', rfl⟩ : ∃ n, steps' = n + 1 :=
        ⟨steps' - 1, by rw [List.length_cons] at hlen; omega⟩
      rw [List.length_cons] at hlen
      by_cases hc : c = '\x7d'
      · subst hc
        exact Tracks.result (List.suffix_cons _ _) fun _ => rfl
      rw [List.cons_append]
      split
      · next heq => exact absurd (List.cons.inj heq).1 hc
      · next _ heq hsucc =>
          cases heq
          cases hsucc
          have hentry : TracksCursor more ⟨c :: cs, issues⟩
              (readConstraint limit ⟨c :: cs, issues⟩ found)
              (readConstraint limit ⟨c :: cs ++ more, issues'⟩ found) :=
            tracks_readConstraint limit found ⟨c :: cs, issues⟩ ⟨c :: cs ++ more, issues'⟩ rfl
          refine hentry.bind cursor_more fun found t t' hread _ hmore => ?_
          have hconsumed := (readConstraint_consumes hc hread).length_le
          dsimp only
          refine Tracks.follow (r := TypeCursor.rest) cursor_more
            (fun e => readBlock limit openLeft steps e found)
            (fun e => readBlock limit openLeft' steps' e found) ?_ (endConstraint_suffix t)
            (endConstraint_more hmore)
          intro e he
          refine ih steps' found (by omega) ?_ he
          rw [he, List.length_append]
          omega
      · next hnone => exact absurd rfl (hnone c cs steps rfl)

theorem tracks_readSuffixes (limit : Int) (steps steps' depth : Nat) (t : TypeExpr)
    (hsteps : s.rest.length ≤ steps) (hsteps' : s'.rest.length ≤ steps')
    (h : s'.rest = s.rest ++ more) :
    TracksCursor more s (readSuffixes limit steps depth t s)
      (readSuffixes limit steps' depth t s') := by
  induction steps generalizing steps' depth t s s' with
  | zero =>
      have hskip := rest_skipBlanks_of_length hsteps
      unfold readSuffixes
      dsimp only
      rw [hskip]
      exact Tracks.atEnd hskip
  | succ steps ih =>
      unfold readSuffixes
      dsimp only
      generalize he : s.skipBlanks = e
      generalize he' : s'.skipBlanks = e'
      apply tracks_skipBlanks h he he'
      clear he he' e e'
      rintro ⟨cs, issues⟩ ⟨_, issues'⟩ hsuffix rfl
      have hlen := hsuffix.length_le
      rw [h, List.length_append] at hsteps'
      dsimp only at hlen ⊢
      rcases cs with _ | ⟨c, cs⟩
      · exact Tracks.atEnd rfl
      obtain ⟨steps', rfl⟩ : ∃ n, steps' = n + 1 :=
        ⟨steps' - 1, by rw [List.length_cons] at hlen; omega⟩
      rw [List.length_cons] at hlen
      rw [List.cons_append]
      have hlong : (cs ++ more).length ≤ steps' := by
        rw [List.length_append]
        omega
      split
      · next heq hsucc =>
          cases heq
          cases hsucc
          cases depth with
          | zero => exact tracks_faultAt (by simp)
          | succ depth =>
              have hlater : TracksCursor more ⟨cs, issues⟩
                  (readSuffixes limit steps depth (.optional t []) ⟨cs, issues⟩)
                  (readSuffixes limit steps' depth (.optional t []) ⟨cs ++ more, issues'⟩) :=
                ih steps' depth _ (by dsimp only; omega) hlong rfl
              exact hlater.weaken (List.suffix_cons _ _)
      · next heq hsucc =>
          cases heq
          cases hsucc
          have hblock (openLeft openLeft' : Nat) : TracksCursor more ⟨cs, issues⟩
              (readBlock limit openLeft (cs.length + 1) ⟨cs, issues⟩ [])
              (readBlock limit openLeft' ((cs ++ more).length + 1) ⟨cs ++ more, issues'⟩ []) :=
            tracks_readBlock limit _ _ _ _ [] (Nat.le_succ _) (Nat.le_succ _) rfl
          refine Tracks.weaken ?_ (List.suffix_cons _ _)
          refine (hblock _ _).bind cursor_more fun block e e' _ hsuffix hmore => ?_
          have hleft := hsuffix.length_le
          refine ih steps' depth _ (by dsimp only at hleft ⊢; omega) ?_ hmore
          rw [hmore, List.length_append]
          rw [List.length_append] at hlong
          dsimp only at hleft
          omega
      · next hmark hbrace =>
          split
          · next heq hsucc =>
              cases heq
              exact (hmark _ _ rfl rfl).elim
          · next heq hsucc =>
              cases heq
              exact (hbrace _ _ rfl rfl).elim
          · exact Tracks.result (List.suffix_refl _) fun _ => rfl

theorem tracks_separator {cs : List Char} {issues issues' : List TypeIssue}
    {again again' : List Char → Except TypeStop (α × TypeCursor)} (a : α)
    (hagain : ∀ rest, cs = ',' :: rest →
      Tracks TypeCursor.rest InvalidValue more rest (again rest) (again' (rest ++ more))) :
    Tracks TypeCursor.rest InvalidValue more cs
      (match cs with
        | ',' :: rest => again rest
        | _ => .ok (a, ⟨cs, issues⟩))
      (match cs ++ more with
        | ',' :: rest => again' rest
        | _ => .ok (a, ⟨cs ++ more, issues'⟩)) := by
  rcases cs with _ | ⟨c, cs⟩
  · exact Tracks.atEnd rfl
  by_cases hc : c = ','
  · subst hc
    exact (hagain cs rfl).weaken (List.suffix_cons _ _)
  rw [List.cons_append]
  split
  · next heq => exact absurd (List.cons.inj heq).1 hc
  · split
    · next heq => exact absurd (List.cons.inj heq).1 hc
    · exact Tracks.result (List.suffix_refl _) fun _ => rfl

theorem tracks_readArguments {item : TypeReader TypeExpr} (hitem : TracksReader more item)
    (steps steps' : Nat) (hsteps : s.rest.length < steps) (hsteps' : s'.rest.length < steps')
    (h : s'.rest = s.rest ++ more) :
    TracksCursor more s (readArguments item steps s) (readArguments item steps' s') := by
  induction steps generalizing steps' s s' with
  | zero => omega
  | succ steps ih =>
      obtain ⟨steps', rfl⟩ : ∃ n, steps' = n + 1 := ⟨steps' - 1, by omega⟩
      rw [readArguments, readArguments]
      refine (hitem s s' h).bind cursor_more fun t e e' _ hsuffix hmore => ?_
      rw [h, List.length_append] at hsteps'
      dsimp only
      generalize ha : e.skipBlanks = a
      generalize ha' : e'.skipBlanks = a'
      apply tracks_skipBlanks hmore ha ha'
      clear ha ha' a a'
      rintro ⟨cs, issues⟩ ⟨_, issues'⟩ hskip rfl
      have hlen := (hskip.trans hsuffix).length_le
      refine tracks_separator [t] fun rest hrest => ?_
      dsimp only at hrest hlen
      rw [hrest, List.length_cons] at hlen
      have hlater : TracksCursor more ⟨rest, issues⟩ (readArguments item steps ⟨rest, issues⟩)
          (readArguments item steps' ⟨rest ++ more, issues'⟩) := by
        refine ih steps' (by dsimp only; omega) ?_ rfl
        rw [List.length_append]
        omega
      refine hlater.bind cursor_more fun ts e e' _ _ hmore => ?_
      exact Tracks.result (List.suffix_refl _) fun _ => hmore

theorem tracks_splitName {split split' : List Char × List Char} (hs : TypeText.splitName cs = split)
    (hs' : TypeText.splitName (cs ++ more) = split')
    {f f' : List Char × List Char → Except TypeStop (α × τ)}
    (hf : ∀ name rest, rest <:+ cs → Tracks q keep more rest (f (name, rest)) (f' (name, rest ++ more))) :
    Tracks q keep more cs (f split) (f' split') := by
  subst hs hs'
  refine Tracks.split (r := id) text_more (fun name rest => f (name, rest))
    (fun name rest => f' (name, rest)) ?_ (TypeText.splitName_suffix cs) fun hne => ?_
  · rintro rest rfl
    exact hf _ _ (TypeText.splitName_suffix cs)
  · obtain ⟨hname, hrest⟩ := Prod.ext_iff.mp (TypeText.splitName_more hne more)
    exact ⟨hname, hrest⟩

theorem tracks_readFields {item : TypeReader TypeExpr} (hitem : TracksReader more item)
    (steps steps' : Nat) (found : List (String × TypeExpr)) (hsteps : s.rest.length < steps)
    (hsteps' : s'.rest.length < steps') (h : s'.rest = s.rest ++ more) :
    TracksCursor more s (readFields item steps found s) (readFields item steps' found s') := by
  induction steps generalizing steps' s s' found with
  | zero => omega
  | succ steps ih =>
      obtain ⟨steps', rfl⟩ : ∃ n, steps' = n + 1 := ⟨steps' - 1, by omega⟩
      rw [readFields, readFields]
      rw [h, List.length_append] at hsteps'
      dsimp only
      generalize ha : s.skipBlanks = a
      generalize ha' : s'.skipBlanks = a'
      apply tracks_skipBlanks h ha ha'
      clear ha ha' a a'
      rintro ⟨cs, issues⟩ ⟨_, issues'⟩ hskip rfl
      dsimp only
      generalize hs : TypeText.splitName cs = split
      generalize hs' : TypeText.splitName (cs ++ more) = split'
      apply tracks_splitName hs hs'
      clear hs hs' split split'
      rintro (_ | ⟨c, name⟩) rest hsplit
      · exact tracks_faultAt (by simp)
      dsimp only
      change TracksCursor more ⟨rest, issues⟩ _ _
      refine tracks_expect ':' _ _ rfl fun e e' hcolon hmore => ?_
      refine (hitem e e' hmore).bind cursor_more fun t b b' _ hsuffix hmore => ?_
      dsimp only
      split
      · exact tracks_faultAt (by simp)
      have hleft := ((hsuffix.trans hcolon).trans (hsplit.trans hskip)).length_le
      generalize ha : b.skipBlanks = a
      generalize ha' : b'.skipBlanks = a'
      apply tracks_skipBlanks hmore ha ha'
      clear ha ha' a a'
      rintro ⟨cs, issues⟩ ⟨_, issues'⟩ hskip rfl
      refine tracks_separator _ fun rest hrest => ?_
      dsimp only at hrest hskip
      have hlen := hskip.length_le
      rw [hrest, List.length_cons] at hlen
      refine ih steps' _ (s := ⟨rest, issues⟩) (by dsimp only; omega) ?_ rfl
      rw [List.length_append]
      omega

theorem tracks_quotedValue (quote : Char) (rest : List Char) :
    Tracks id InvalidValue more rest
      (match TypeText.splitQuoted quote rest with
        | (none, _) => faultAt s .unterminatedEnumText
        | (some text, rest) => .ok (text, rest))
      (match TypeText.splitQuoted quote (rest ++ more) with
        | (none, _) => faultAt s' .unterminatedEnumText
        | (some text, rest) => .ok (text, rest)) := by
  have hsuffix := TypeText.splitQuoted_suffix quote rest
  have hmore := @TypeText.splitQuoted_more rest quote
  generalize TypeText.splitQuoted quote rest = split at hsuffix hmore ⊢
  obtain ⟨_ | text, left⟩ := split
  · exact tracks_faultAt (by simp)
  · by_cases hnil : left = []
    · exact Tracks.atEnd hnil
    · rw [hmore hnil more]
      exact Tracks.result hsuffix fun _ => rfl

theorem isEnumWord_of_isPrefix {cs ds : List Char} (h : cs <+: ds) (hne : cs ≠ [])
    (hds : Literal.isEnumWord ds = true) : Literal.isEnumWord cs = true := by
  rw [Literal.isEnumWord, Bool.and_eq_true, List.all_eq_true] at hds ⊢
  refine ⟨by simpa using hne, fun c hc => hds.2 c (h.subset hc)⟩

theorem tracks_bareValue {raw left raw' left' : List Char} (hcs : raw ++ left = cs)
    (hmore : left ≠ [] → raw' = raw ∧ left' = left ++ more) (hend : left = [] → raw <+: raw') :
    Tracks id InvalidValue more cs
      (if (Text.trim raw).isEmpty then faultAt ⟨left, s.issues⟩ (.expectedEnumValue left.head?)
        else if !Literal.isEnumWord (Text.trim raw) then
          faultAt s (.invalidEnumValue (String.ofList (Text.trim raw)))
        else .ok (Text.trim raw, left))
      (if (Text.trim raw').isEmpty then faultAt ⟨left', s'.issues⟩ (.expectedEnumValue left'.head?)
        else if !Literal.isEnumWord (Text.trim raw') then
          faultAt s' (.invalidEnumValue (String.ofList (Text.trim raw')))
        else .ok (Text.trim raw', left')) := by
  by_cases hempty : Text.trim raw = []
  · rw [if_pos (List.isEmpty_iff.mpr hempty)]
    exact tracks_faultAt (by simp)
  rw [if_neg (by simpa using hempty)]
  cases hword : Literal.isEnumWord (Text.trim raw) with
  | true =>
      rw [if_neg (by simp)]
      by_cases hnil : left = []
      · exact Tracks.atEnd hnil
      · obtain ⟨hraw, hleft⟩ := hmore hnil
        rw [hraw, if_neg (by simpa using hempty), if_neg (by simp [hword])]
        exact Tracks.result (hcs ▸ List.suffix_append raw left) fun _ => hleft
  | false =>
      rw [if_pos (by simp)]
      refine ⟨nofun, nofun, fun f _ _ => ⟨?_, ?_⟩, nofun⟩
      · rintro rfl
        obtain ⟨rfl, -⟩ := List.append_eq_nil_iff.mp hcs
        exact hempty rfl
      · have hprefix : Text.trim raw <+: Text.trim raw' := by
          by_cases hnil : left = []
          · obtain ⟨added, rfl⟩ := hend hnil
            exact Text.trim_prefix_more hempty added
          · rw [(hmore hnil).1]
        have hempty' : Text.trim raw' ≠ [] := fun hnil =>
          hempty (List.prefix_nil.mp (hnil ▸ hprefix))
        have hword' : Literal.isEnumWord (Text.trim raw') = false := by
          rw [Bool.eq_false_iff] at hword ⊢
          exact fun htrue => hword (isEnumWord_of_isPrefix hprefix hempty htrue)
        rw [if_neg (by simpa using hempty'), if_pos (by simp [hword'])]
        exact ⟨_, rfl, _, rfl⟩

theorem readEnumValue_unquoted {s : TypeCursor} (hsingle : ∀ rest, s.rest ≠ '\'' :: rest)
    (hdouble : ∀ rest, s.rest ≠ '"' :: rest) :
    readEnumValue s =
      if (Text.trim (TypeText.splitBare isEnumStop 0 s.rest).1).isEmpty then
        faultAt ⟨(TypeText.splitBare isEnumStop 0 s.rest).2, s.issues⟩
          (.expectedEnumValue (TypeText.splitBare isEnumStop 0 s.rest).2.head?)
      else if !Literal.isEnumWord (Text.trim (TypeText.splitBare isEnumStop 0 s.rest).1) then
        faultAt s (.invalidEnumValue
          (String.ofList (Text.trim (TypeText.splitBare isEnumStop 0 s.rest).1)))
      else .ok (Text.trim (TypeText.splitBare isEnumStop 0 s.rest).1,
        (TypeText.splitBare isEnumStop 0 s.rest).2) := by
  unfold readEnumValue
  split
  · next heq => exact absurd heq (hsingle _)
  · next heq => exact absurd heq (hdouble _)
  · rfl

theorem tracks_readEnumValue (h : s'.rest = s.rest ++ more) :
    Tracks id InvalidValue more s.rest (readEnumValue s) (readEnumValue s') := by
  have hbare (hsingle : ∀ rest, s.rest ≠ '\'' :: rest) (hdouble : ∀ rest, s.rest ≠ '"' :: rest) :
      Tracks id InvalidValue more s.rest (readEnumValue s) (readEnumValue s') := by
    rw [readEnumValue_unquoted hsingle hdouble]
    have hcs := TypeText.splitBare_append isEnumStop 0 s.rest
    cases hrest : s.rest with
    | nil => exact tracks_faultAt (by simp)
    | cons c cs =>
        have hother {d : Char} (hd : ∀ rest, s.rest ≠ d :: rest) (rest : List Char) :
            s'.rest ≠ d :: rest := by
          rw [h, hrest]
          intro heq
          obtain ⟨rfl, -⟩ := List.cons.inj heq
          exact hd cs hrest
        rw [readEnumValue_unquoted (hother hsingle) (hother hdouble), ← hrest]
        refine tracks_bareValue hcs (fun hne => ?_) fun hnil => ?_
        · rw [h, TypeText.splitBare_more hne]
          exact ⟨rfl, rfl⟩
        · obtain ⟨added, hadded⟩ := TypeText.splitBare_prefix hnil more
          rw [h, hadded]
          rw [hnil, List.append_nil] at hcs
          rw [hcs]
          exact List.prefix_append _ _
  by_cases hsingle : ∃ rest, s.rest = '\'' :: rest
  · obtain ⟨rest, hrest⟩ := hsingle
    unfold readEnumValue
    rw [h, hrest]
    exact (tracks_quotedValue '\'' rest).weaken (List.suffix_cons _ _)
  by_cases hdouble : ∃ rest, s.rest = '"' :: rest
  · obtain ⟨rest, hrest⟩ := hdouble
    unfold readEnumValue
    rw [h, hrest]
    exact (tracks_quotedValue '"' rest).weaken (List.suffix_cons _ _)
  exact hbare (not_exists.mp hsingle) (not_exists.mp hdouble)

theorem tracks_readEnumValues (steps steps' : Nat) (found : List String)
    (hsteps : s.rest.length < steps) (hsteps' : s'.rest.length < steps')
    (h : s'.rest = s.rest ++ more) :
    TracksCursor more s (readEnumValues steps found s) (readEnumValues steps' found s') := by
  induction steps generalizing steps' s s' found with
  | zero => omega
  | succ steps ih =>
      obtain ⟨steps', rfl⟩ : ∃ n, steps' = n + 1 := ⟨steps' - 1, by omega⟩
      rw [readEnumValues, readEnumValues]
      rw [h, List.length_append] at hsteps'
      dsimp only
      generalize ha : s.skipBlanks = a
      generalize ha' : s'.skipBlanks = a'
      apply tracks_skipBlanks h ha ha'
      clear ha ha' a a'
      intro a a' hskip hmore
      refine (tracks_readEnumValue hmore).bind text_more fun text rest rest' _ hsuffix hmore => ?_
      obtain rfl : rest' = rest ++ more := hmore
      dsimp only
      have hleft := (hsuffix.trans hskip).length_le
      have hlater (found : List String) (issues issues' : List TypeIssue) (after : List Char)
          (hafter : after <:+ rest) :
          Tracks TypeCursor.rest InvalidValue more after
            (match after with
              | ',' :: rest => readEnumValues steps found ⟨rest, issues⟩
              | _ => .ok (found, ⟨after, issues⟩))
            (match after ++ more with
              | ',' :: rest => readEnumValues steps' found ⟨rest, issues'⟩
              | _ => .ok (found, ⟨after ++ more, issues'⟩)) := by
        refine tracks_separator found fun rest hrest => ?_
        have hlen := hafter.length_le
        rw [hrest, List.length_cons] at hlen
        refine ih steps' found (s := ⟨rest, issues⟩) (by dsimp only [id] at hleft ⊢; omega) ?_ rfl
        rw [List.length_append]
        dsimp only [id] at hleft
        omega
      generalize hb : Text.skipBlanks rest = b
      generalize hb' : Text.skipBlanks (rest ++ more) = b'
      by_cases hknown : found.contains (String.ofList text) = true
      · simp only [if_pos hknown]
        apply tracks_afterBlanks hb hb'
        exact fun after hafter => hlater found _ _ after hafter
      · simp only [if_neg hknown]
        apply tracks_afterBlanks hb hb'
        exact fun after hafter => hlater _ _ _ after hafter

section Composites

variable {item : TypeReader TypeExpr} (hitem : TracksReader more item)

theorem tracks_close (t : TypeExpr) (context context' : Expecting) (h : s'.rest = s.rest ++ more) :
    TracksCursor more s (do return (t, ← expect ']' context s))
      (do return (t, ← expect ']' context' s')) :=
  tracks_expect ']' _ _ h fun _ _ _ hmore => Tracks.result (List.suffix_refl _) fun _ => hmore

/-- The name of an entity goes on in the longer text only where it ends the shorter one. -/
theorem tracks_entity (name : String) (nameLeft nameLeft' : Nat) (h : s'.rest = s.rest ++ more) :
    TracksCursor more s (readComposite item .reference name nameLeft s)
      (readComposite item .reference name nameLeft' s') := by
  unfold readComposite
  dsimp only
  generalize ha : s.skipBlanks = a
  generalize ha' : s'.skipBlanks = a'
  apply tracks_skipBlanks h ha ha'
  clear ha ha' a a'
  rintro ⟨cs, issues⟩ ⟨_, issues'⟩ - rfl
  dsimp only
  generalize hs : TypeText.splitName cs = split
  generalize hs' : TypeText.splitName (cs ++ more) = split'
  apply tracks_splitName hs hs'
  rintro (_ | ⟨c, target⟩) rest -
  · exact tracks_faultAt (by simp)
  · change TracksCursor more ⟨rest, issues⟩ _ _
    exact tracks_close (.reference (String.ofList (c :: target)) []) _ _ rfl

include hitem

theorem tracks_fields (name : String) (nameLeft nameLeft' : Nat) (h : s'.rest = s.rest ++ more) :
    TracksCursor more s (readComposite item .object name nameLeft s)
      (readComposite item .object name nameLeft' s') := by
  have hfields {e e' : TypeCursor} (h : e'.rest = e.rest ++ more) : TracksCursor more e
      (do
        let read ← readFields item (e.left + 1) [] e
        return (TypeExpr.object read.1 [], ← expect ']' (.closing name nameLeft) read.2))
      (do
        let read ← readFields item (e'.left + 1) [] e'
        return (TypeExpr.object read.1 [], ← expect ']' (.closing name nameLeft') read.2)) := by
    have hread : TracksCursor more e (readFields item (e.left + 1) [] e)
        (readFields item (e'.left + 1) [] e') :=
      tracks_readFields hitem _ _ [] (Nat.lt_succ_self _) (Nat.lt_succ_self _) h
    exact hread.bind cursor_more fun fields e e' _ _ hmore =>
      tracks_close (.object fields []) _ _ hmore
  unfold readComposite
  dsimp only
  generalize ha : s.skipBlanks = a
  generalize ha' : s'.skipBlanks = a'
  apply tracks_skipBlanks h ha ha'
  clear ha ha' a a'
  rintro ⟨cs, issues⟩ ⟨_, issues'⟩ - rfl
  rcases cs with _ | ⟨c, cs⟩
  · have hnone := @hfields ⟨[], issues⟩ ⟨[] ++ more, issues'⟩ rfl
    exact hnone.of_nil
  by_cases hc : c = ']'
  · subst hc
    exact tracks_close (.object [] []) _ _ rfl
  rw [List.cons_append]
  split
  · next heq => exact absurd (List.cons.inj heq).1 hc
  · split
    · next heq => exact absurd (List.cons.inj heq).1 hc
    · exact hfields rfl

theorem tracks_readComposite (composite : Composite) (name : String) (nameLeft nameLeft' : Nat)
    (h : s'.rest = s.rest ++ more) :
    TracksCursor more s (readComposite item composite name nameLeft s)
      (readComposite item composite name nameLeft' s') := by
  have harguments (hcomposite : composite = .map ∨ composite = .array ∨ composite = .optional) :
      TracksCursor more s (readComposite item composite name nameLeft s)
        (readComposite item composite name nameLeft' s') := by
    rw [readComposite_arguments item s name nameLeft hcomposite,
      readComposite_arguments item s' name nameLeft' hcomposite]
    have hread : TracksCursor more s (readArguments item (s.left + 1) s)
        (readArguments item (s'.left + 1) s') :=
      tracks_readArguments hitem _ _ (Nat.lt_succ_self _) (Nat.lt_succ_self _) h
    refine hread.bind cursor_more fun ts e e' _ _ hmore => ?_
    dsimp only
    split
    · next t _ => exact tracks_close t _ _ hmore
    · exact Tracks.dropped (by simp [InvalidValue])
  cases composite with
  | enum =>
      have hvalues : TracksCursor more s (readEnumValues (s.left + 1) [] s)
          (readEnumValues (s'.left + 1) [] s') :=
        tracks_readEnumValues _ _ [] (Nat.lt_succ_self _) (Nat.lt_succ_self _) h
      exact hvalues.bind cursor_more fun values e e' _ _ hmore =>
        tracks_close (.enum values []) _ _ hmore
  | reference => exact tracks_entity name nameLeft nameLeft' h
  | object => exact tracks_fields hitem name nameLeft nameLeft' h
  | map => exact harguments (.inl rfl)
  | array => exact harguments (.inr (.inl rfl))
  | optional => exact harguments (.inr (.inr rfl))

end Composites

theorem tracks_readAlone (name : String) (after : List Char) (issues issues' : List TypeIssue) :
    Tracks TypeCursor.rest InvalidValue more after (readAlone name ⟨after, issues⟩)
      (readAlone name ⟨after ++ more, issues'⟩) := by
  unfold readAlone
  split
  · exact Tracks.result (List.suffix_refl _) fun _ => rfl
  · exact tracks_faultAt (by simp)
  · exact Tracks.result (List.suffix_refl _) fun _ => rfl

theorem tracks_readForm {item : TypeReader TypeExpr} (hitem : TracksReader more item) :
    TracksReader more (readForm item) := by
  intro s s' h
  rw [readForm_eq, readForm_eq]
  generalize ha : s.skipBlanks = a
  generalize ha' : s'.skipBlanks = a'
  apply tracks_skipBlanks h ha ha'
  clear ha ha' a a'
  rintro ⟨cs, issues⟩ ⟨_, issues'⟩ - rfl
  dsimp only
  generalize hs : TypeText.splitName cs = split
  generalize hs' : TypeText.splitName (cs ++ more) = split'
  apply tracks_splitName hs hs'
  clear hs hs' split split'
  rintro (_ | ⟨c, name⟩) rest -
  · exact tracks_faultAt (by simp)
  dsimp only
  generalize hb : Text.skipBlanks rest = b
  generalize hb' : Text.skipBlanks (rest ++ more) = b'
  apply tracks_afterBlanks hb hb'
  clear hb hb' b b'
  rintro after -
  generalize String.ofList (c :: name) = name
  have halone : Tracks TypeCursor.rest InvalidValue more after (readAlone name ⟨after, issues⟩)
      (readAlone name ⟨after ++ more, issues'⟩) := tracks_readAlone name after issues issues'
  rcases after with _ | ⟨d, after⟩
  · exact halone.of_nil
  by_cases hd : d = '['
  · subst hd
    cases keyword? name with
    | none => exact tracks_faultAt (by simp)
    | some composite =>
        refine Tracks.weaken ?_ (List.suffix_cons '[' after)
        change TracksCursor more ⟨after, issues⟩ _ _
        exact tracks_readComposite hitem composite name _ _ rfl
  rw [List.cons_append] at halone ⊢
  split
  · next heq => exact absurd (List.cons.inj heq).1 hd
  · split
    · next heq => exact absurd (List.cons.inj heq).1 hd
    · exact halone

theorem tracks_readType (limit : Int) (depth : Nat) : TracksReader more (readType limit depth) := by
  induction depth with
  | zero => exact fun _ _ _ => tracks_faultAt (by simp)
  | succ depth ih =>
      intro s s' h
      refine (tracks_readForm ih s s' h).bind cursor_more fun t e e' _ _ hmore => ?_
      exact tracks_readSuffixes limit _ _ depth t le_rfl le_rfl hmore

/-! ### Whole texts -/

theorem readTrailing_fault {issues : List TypeIssue} {stop : TypeStop}
    (h : readTrailing cs issues = .error stop) :
    ∃ f, stop = .fault f ∧ ¬ InvalidValue f := by
  induction cs generalizing issues with
  | nil => cases h
  | cons c cs ih =>
      rw [readTrailing] at h
      split at h
      · exact ih h
      · split at h
        · exact ih h
        · cases h
          exact ⟨_, rfl, nofun⟩

theorem readWhole_error {limit : Int} {stop : TypeStop} (h : readWhole limit cs = .error stop) :
    (∃ f, stop = .fault f ∧ ¬ InvalidValue f) ∨ Text.skipBlanks cs ≠ [] ∧
      readType limit (limit + 1).toNat ⟨Text.skipBlanks cs, []⟩ = .error stop := by
  unfold readWhole at h
  dsimp only at h
  split at h
  · cases h
    exact .inl ⟨_, rfl, nofun⟩
  · next hne =>
      rcases bind_eq_error.mp h with h | ⟨r, -, h⟩
      · exact .inr ⟨by simpa using hne, h⟩
      · rcases bind_eq_error.mp h with h | ⟨_, -, h⟩
        · exact .inl (readTrailing_fault h)
        · cases h

theorem hasLongNumber_of_readWhole {limit : Int} {e : Failure}
    (h : readWhole limit cs = .error (.failure e)) : Text.HasLongNumber cs := by
  rcases readWhole_error h with ⟨_, h, -⟩ | ⟨-, h⟩
  · cases h
  · have htype : TracksReader [] (readType limit (limit + 1).toNat) := tracks_readType limit _
    have hsame := htype ⟨Text.skipBlanks cs, []⟩ ⟨Text.skipBlanks cs, []⟩ (List.append_nil _).symm
    exact (hsame.failure e h).of_isInfix (Text.skipBlanks_suffix cs).isInfix

theorem readWhole_invalid_more {limit : Int} {f : TypeFault}
    (h : readWhole limit cs = .error (.fault f)) (hf : InvalidValue f) (more : List Char) :
    ∃ f', readWhole limit (cs ++ more) = .error (.fault f') ∧ InvalidValue f' := by
  rcases readWhole_error h with ⟨_, heq, hnot⟩ | ⟨hne, h⟩
  · cases heq
    exact absurd hf hnot
  · have hmore := Text.skipBlanks_more hne more
    have htype : TracksReader more (readType limit (limit + 1).toNat) := tracks_readType limit _
    have hlong := htype ⟨Text.skipBlanks cs, []⟩ ⟨Text.skipBlanks (cs ++ more), []⟩ hmore
    obtain ⟨-, f', hread, hf'⟩ := hlong.fault f h hf
    refine ⟨f', ?_, hf'⟩
    have hne' : (Text.skipBlanks (cs ++ more)).isEmpty = false := by
      rw [hmore]
      simp [hne]
    unfold readWhole
    dsimp only
    rw [hne', hread]
    rfl

end TypeExpr

end AppSpec
