import AppSpec.Proofs.TypeExpr.Constraint.Recovery

/-!
A constraint block whose entries are partly malformed. What is wrong with one of them leaves the
others as they are, and nothing is found that no entry begins with.
-/

namespace AppSpec

namespace TypeGrammar

open Text (AllBlank)
open TypeText (isEntryEnd isMark)

variable {limit : Int} {entry tail more : List Char} {entries : List (List Char)}

/-- What stands behind an entry with these others behind it. -/
def behind (tail : List Char) : List (List Char) → List Char
  | [] => tail
  | entry :: entries => ',' :: (entry ++ behind tail entries)

/-- What becomes of the entries of a block, one after the other. -/
inductive Outcomes (limit : Int) (tail : List Char) :
    List (List Char) → Constraints → List TypeIssue → Prop
  | nil : Outcomes limit tail [] [] []
  | cons {entry : List Char} {entries : List (List Char)} {first block : Constraints}
      {issues later : List TypeIssue} (h : Outcome limit entry (behind tail entries) first issues)
      (hmore : Outcomes limit tail entries block later) :
      Outcomes limit tail (entry :: entries) (first ++ block) (issues ++ later)

theorem intercalate_cons (entry : List Char) (entries : List (List Char)) (tail : List Char) :
    [','].intercalate (entry :: entries) ++ tail = entry ++ behind tail entries := by
  induction entries generalizing entry with
  | nil => rw [List.intercalate_singleton, behind]
  | cons second entries ih =>
      rw [List.intercalate_cons_cons, List.append_assoc, List.append_assoc, ih second, behind]
      rfl

/-- An entry ends with the comma in front of the next one, or with the block. -/
theorem behind_end (tail : List Char) (entries : List (List Char)) :
    ∃ stop rest, behind ('\x7d' :: tail) entries = stop :: rest ∧ isEntryEnd stop = true ∧
      behindComma (stop :: rest) = [','].intercalate entries ++ '\x7d' :: tail := by
  cases entries with
  | nil => exact ⟨_, _, rfl, rfl, rfl⟩
  | cons entry entries =>
      refine ⟨_, _, rfl, rfl, ?_⟩
      rw [intercalate_cons]
      rfl

theorem readBlock_step (limit : Int) (openLeft steps : Nat) {c : Char} {cs rest : List Char}
    (hskip : Text.skipBlanks cs = c :: rest) (hc : c ≠ '\x7d') (issues : List TypeIssue)
    (found : Constraints) :
    TypeExpr.readBlock limit openLeft (steps + 1) ⟨cs, issues⟩ found =
      (TypeExpr.readConstraint limit ⟨c :: rest, issues⟩ found >>= fun r =>
        TypeExpr.readBlock limit openLeft steps (TypeExpr.endConstraint r.2) r.1) := by
  rw [TypeExpr.readBlock.eq_def]
  simp only [TypeCursor.skipBlanks, hskip]

theorem Outcome.keys {first : Constraints} {issues : List TypeIssue} {names : List String}
    (h : Outcome limit entry tail first issues) {found : Constraints}
    (hnames : (Named.keys found ++ ((leadingName entry).toList ++ names)).Nodup) :
    (Named.keys (found ++ first) ++ names).Nodup := by
  rw [Named.keys, List.map_append]
  rcases h.own with rfl | ⟨name, v, hname, rfl⟩
  · refine List.Nodup.sublist ?_ hnames
    rw [List.map_nil, List.append_nil]
    exact (List.Sublist.refl _).append (List.sublist_append_right _ _)
  · rw [hname] at hnames
    rw [List.append_assoc]
    exact hnames

theorem readBlock_entries (limit : Int) (openLeft : Nat) (tail : List Char)
    (hbalanced : ∀ entry ∈ entries, Balanced false entry)
    (hblank : ∀ entry ∈ entries, ¬ AllBlank entry)
    (hrecovers : ∀ entry ∈ entries, Recovers limit entry) (found : Constraints)
    (hnames : (Named.keys found ++ entries.filterMap leadingName).Nodup)
    (issues : List TypeIssue) (steps : Nat) (hsteps : entries.length ≤ steps) :
    ∃ block new, TypeExpr.readBlock limit openLeft steps
        ⟨[','].intercalate entries ++ '\x7d' :: tail, issues⟩ found =
          .ok (found ++ block, ⟨tail, issues ++ new⟩) ∧
      (Named.keys (found ++ block)).Nodup ∧ Outcomes limit ('\x7d' :: tail) entries block new := by
  induction entries generalizing found issues steps with
  | nil =>
      refine ⟨[], [], ?_, by simpa using hnames, .nil⟩
      rw [List.append_nil, List.append_nil]
      exact TypeExpr.readBlock_brace limit openLeft steps tail issues found
  | cons entry entries ih =>
      obtain ⟨hfirst, hbalanced⟩ := List.forall_mem_cons.mp hbalanced
      obtain ⟨hwritten, hblank⟩ := List.forall_mem_cons.mp hblank
      obtain ⟨hends, hrecovers⟩ := List.forall_mem_cons.mp hrecovers
      obtain ⟨steps, rfl⟩ : ∃ n, steps = n + 1 := ⟨steps - 1, by simp at hsteps; omega⟩
      obtain ⟨stop, rest, hbehind, hstop, hnext⟩ := behind_end tail entries
      have hnames : (Named.keys found ++
          ((leadingName entry).toList ++ entries.filterMap leadingName)).Nodup := by
        cases hname : leadingName entry with
        | none => simpa [List.filterMap_cons, hname] using hnames
        | some name => simpa [List.filterMap_cons, hname] using hnames
      have hnew (name : String) (hname : leadingName entry = some name) :
          Named.has found name = false := by
        rw [← Bool.not_eq_true, Named.has_iff_mem_keys]
        rw [hname, List.nodup_append] at hnames
        exact fun hmem => hnames.2.2 _ hmem _ (by simp) rfl
      rw [intercalate_cons, hbehind]
      obtain ⟨first, here, s, hread, hend, houtcome⟩ :=
        readsEntry hstop hfirst hwritten hends hnew rest issues
      obtain ⟨c, cs, hbare⟩ := List.exists_cons_of_ne_nil (mt skipBlanks_eq_nil.mp hwritten)
      have hc : c ≠ '\x7d' := by
        have hpasses := passes_skipBlanks (hfirst.passes 0 nofun)
        rw [hbare] at hpasses
        rintro rfl
        exact Bool.false_ne_true (hpasses.not_end.symm.trans rfl)
      have hskip : Text.skipBlanks (entry ++ stop :: rest) = c :: (cs ++ stop :: rest) := by
        rw [skipBlanks_append (isBlank_of_isEntryEnd hstop), hbare]
        rfl
      rw [hbare] at hread
      rw [hnext] at hend
      obtain ⟨block, later, hblock, hnodup, houtcomes⟩ := ih hbalanced hblank hrecovers
        (found ++ first) (houtcome.keys hnames) (issues ++ here) steps (by simpa using hsteps)
      rw [List.append_assoc] at hblock hnodup
      refine ⟨first ++ block, here ++ later, ?_, hnodup, .cons (hbehind ▸ houtcome) houtcomes⟩
      rw [readBlock_step limit openLeft steps hskip hc, ← List.cons_append, hread]
      show TypeExpr.readBlock limit openLeft steps (TypeExpr.endConstraint s) (found ++ first) = _
      rw [hend, hblock, List.append_assoc]

/-! ### What is found -/

theorem Outcomes.get? {block : Constraints} {issues : List TypeIssue}
    (h : Outcomes limit tail entries block issues) (hnodup : (Named.keys block).Nodup)
    (hentry : entry ∈ entries) {name : String} {v : Value}
    (hwritten : EntryText limit entry name v) : Named.get? block name = some v := by
  refine Named.get?_of_mem hnodup ?_
  clear hnodup
  induction h with
  | nil => cases hentry
  | cons h _ ih =>
      rcases List.mem_cons.mp hentry with rfl | hentry
      · rw [(h.kept name v hwritten).1]
        exact List.mem_cons_self
      · exact List.mem_append_right _ (ih hentry)

theorem Outcomes.exists_leadingName {block : Constraints} {issues : List TypeIssue}
    (h : Outcomes limit tail entries block issues) :
    ∀ key ∈ Named.keys block, ∃ entry ∈ entries, leadingName entry = some key := by
  induction h with
  | nil => exact fun key hkey => absurd hkey List.not_mem_nil
  | cons h _ ih =>
      intro key hkey
      rw [Named.keys, List.map_append] at hkey
      rcases List.mem_append.mp hkey with hkey | hkey
      · rcases h.own with rfl | ⟨name, v, hname, rfl⟩
        · cases hkey
        · obtain rfl := List.mem_singleton.mp hkey
          exact ⟨_, List.mem_cons_self, hname⟩
      · obtain ⟨entry, hentry, hname⟩ := ih key hkey
        exact ⟨entry, List.mem_cons_of_mem _ hentry, hname⟩

/-! ### Types with a block -/

/-- A type without other types in it. -/
def Leaf : List Char → TypeExpr → Prop := Form fun _ _ => False

theorem Leaf.constraints {head : List Char} {t : TypeExpr} (h : Leaf head t) :
    t.constraints = [] := by
  cases h with
  | primitive => rfl
  | custom => rfl
  | object => rfl
  | bracketed _ _ _ _ hinner _ => cases hinner <;> rfl

/-- An issue of a value that an enumeration has already. -/
def IsRepeated (issue : TypeIssue) : Prop := ∃ value, issue.kind = .duplicateEnumValue value

theorem EnumValueTaken.repeated {found found' : List String} {value : String} {s : TypeCursor}
    {issues : List TypeIssue} (h : TypeExpr.EnumValueTaken found value s found' issues)
    (hs : ∀ issue ∈ s.issues, IsRepeated issue) : ∀ issue ∈ issues, IsRepeated issue := by
  rcases h with ⟨-, -, rfl⟩ | ⟨-, -, rfl⟩
  · exact List.forall_mem_append.mpr ⟨hs, List.forall_mem_singleton.mpr ⟨value, rfl⟩⟩
  · exact hs

theorem readEnumValues_issues {steps : Nat} {found values : List String} {s s' : TypeCursor}
    (h : TypeExpr.readEnumValues steps found s = .ok (values, s'))
    (hs : ∀ issue ∈ s.issues, IsRepeated issue) : ∀ issue ∈ s'.issues, IsRepeated issue := by
  induction steps generalizing found s with
  | zero =>
      cases h
      exact hs
  | succ steps ih =>
      obtain ⟨text, rest, found₁, issues₁, -, htaken, hcases⟩ := TypeExpr.readEnumValues_eq_ok.mp h
      have hissues := EnumValueTaken.repeated htaken hs
      rcases hcases with ⟨tail, -, hlater⟩ | ⟨-, -, rfl⟩
      · exact ih hlater hissues
      · exact hissues

theorem Inner.repeated {item : TypeReader TypeExpr} {composite : Composite}
    {inner close : List Char} {t : TypeExpr} (h : Inner (fun _ _ => False) composite inner t)
    (hclose : Token [']'] close) {rest : List Char} {name : String} {nameLeft : Nat}
    {r : TypeExpr × TypeCursor} (hread : TypeExpr.readComposite item composite name nameLeft
      ⟨inner ++ (close ++ rest), []⟩ = .ok r) : ∀ issue ∈ r.2.issues, IsRepeated issue := by
  obtain ⟨t', s'⟩ := r
  obtain ⟨s, hcontents, hexpect⟩ := TypeExpr.contents_of_readComposite hread
  rw [(TypeExpr.expect_eq_ok.mp hexpect).2]
  cases h with
  | array h => exact h.elim
  | optional h => exact h.elim
  | map hkey _ _ => exact hkey.elim
  | fields h _ =>
      cases h with
      | last h =>
          cases h with
          | mk _ _ _ hbody => exact hbody.elim
      | next h _ _ =>
          cases h with
          | mk _ _ _ hbody => exact hbody.elim
  | reference _ _ =>
      cases hcontents with
      | reference _ _ => exact nofun
      | arguments _ ht => cases ht
  | noFields =>
      cases hcontents with
      | noFields _ => exact nofun
      | fields hne _ => exact absurd (hclose.skipBlanks (by decide) rest) (hne rest)
      | arguments _ ht => cases ht
  | enum _ =>
      cases hcontents with
      | enum hvalues => exact readEnumValues_issues hvalues nofun
      | arguments _ ht => cases ht

/-- All that is reported of such a type is that a value of it is repeated. -/
theorem Leaf.repeated {item : TypeReader TypeExpr} {head rest : List Char} {t t' : TypeExpr}
    (h : Leaf head t) (hrest : FormEnds rest) {s : TypeCursor}
    (hread : TypeExpr.readForm item ⟨head ++ rest, []⟩ = .ok (t', s)) :
    ∀ issue ∈ s.issues, IsRepeated issue := by
  cases h with
  | primitive hname htext hkeyword _ =>
      cases (readForm_noKeyword hname htext hkeyword hrest []).symm.trans hread
      simp
  | custom hname htext hkeyword _ =>
      cases (readForm_noKeyword hname htext hkeyword hrest []).symm.trans hread
      simp
  | object hname htext hkeyword =>
      cases (readForm_object hname htext hkeyword hrest []).symm.trans hread
      simp
  | bracketed hname hhead hkeyword hbracket hinner hclose =>
      simp only [List.append_assoc] at hread
      obtain ⟨nameLeft, heq⟩ := readForm_bracket hname hhead hkeyword hbracket []
      exact hinner.repeated hclose (heq.symm.trans hread)

theorem length_le_intercalate (entries : List (List Char)) :
    entries.length ≤ ([','].intercalate entries).length + 1 := by
  induction entries with
  | nil => exact Nat.zero_le _
  | cons entry entries ih =>
      cases entries with
      | nil => simp
      | cons second entries =>
          rw [List.intercalate_cons_cons, List.length_append, List.length_append]
          simp only [List.length_cons, List.length_nil] at ih ⊢
          omega

theorem readSuffixes_entries (limit : Int) (depth : Nat) {t : TypeExpr} (ht : t.constraints = [])
    {blanks : List Char} (hblanks : AllBlank blanks)
    (hbalanced : ∀ entry ∈ entries, Balanced false entry)
    (hblank : ∀ entry ∈ entries, ¬ AllBlank entry)
    (hrecovers : ∀ entry ∈ entries, Recovers limit entry)
    (hnames : (entries.filterMap leadingName).Nodup) {s : TypeCursor}
    (hs : Text.skipBlanks s.rest = '\x7b' :: ([','].intercalate entries ++ '\x7d' :: blanks)) :
    ∃ block new, TypeExpr.readSuffixes limit s.left depth t s =
        .ok (t.withConstraints block, ⟨[], s.issues ++ new⟩) ∧
      (Named.keys block).Nodup ∧ Outcomes limit ('\x7d' :: blanks) entries block new := by
  have hsteps : 0 < s.left := by
    have hle := Text.skipBlanks_length_le s.rest
    rw [hs, List.length_cons] at hle
    exact Nat.lt_of_lt_of_le (Nat.succ_pos _) hle
  obtain ⟨steps, hsteps⟩ : ∃ n, s.left = n + 1 := ⟨s.left - 1, by omega⟩
  have hcount := length_le_intercalate entries
  obtain ⟨block, new, hblock, hnodup, houtcomes⟩ := readBlock_entries limit
    (([','].intercalate entries ++ '\x7d' :: blanks).length + 1) blanks hbalanced hblank hrecovers
    [] hnames s.issues (([','].intercalate entries ++ '\x7d' :: blanks).length + 1)
    (by rw [List.length_append]; omega)
  rw [List.nil_append] at hblock hnodup
  refine ⟨block, new, ?_, hnodup, houtcomes⟩
  have hskip := TypeText.skipBlanks_cons (by decide : Text.isBlank '\x7b' = false)
    ([','].intercalate entries ++ '\x7d' :: blanks)
  have hends : TypeEnds blanks := by
    rw [TypeEnds, Heads, skipBlanks_eq_nil.mpr hblanks]
    simp
  rw [hsteps, readSuffixes_skipBlanks limit _ depth t s.issues (hs.trans hskip.symm),
    TypeExpr.readSuffixes_block, hblock]
  show TypeExpr.readSuffixes limit steps depth
    (t.withConstraints (t.constraints.setAll block)) _ = _
  rw [ht, Named.setAll_nil hnodup, readSuffixes_ends limit steps depth _ hends,
    skipBlanks_eq_nil.mpr hblanks]

end TypeGrammar

open TypeGrammar in
/-- In a block behind a type without other types in it, what is wrong with an entry is reported
there and changes nothing elsewhere, as long as every value is read without failing and, where it is
no literal, is given up where its entry can still be told from the next. -/
theorem TypeExpr.parse_block (text path : String) {limit : Int} (hlimit : 0 ≤ limit)
    {head brace blanks : List Char} {t : TypeExpr} {entries : List (List Char)}
    (hhead : Leaf head t) (hbrace : Token ['\x7b'] brace) (hblanks : Text.AllBlank blanks)
    (htext : text.toList = head ++ (brace ++ ([','].intercalate entries ++ '\x7d' :: blanks)))
    (hbalanced : ∀ entry ∈ entries, Balanced false entry)
    (hblank : ∀ entry ∈ entries, ¬ Text.AllBlank entry)
    (hnames : (entries.filterMap leadingName).Nodup)
    (hrecovers : ∀ entry ∈ entries, Recovers limit entry) :
    ∃ block before issues, Outcomes limit ('\x7d' :: blanks) entries block issues ∧
      (∀ entry ∈ entries, ∀ name v, EntryText limit entry name v →
        Named.get? block name = some v) ∧
      (∀ key ∈ Named.keys block, ∃ entry ∈ entries, leadingName entry = some key) ∧
      (∀ issue ∈ before, IsRepeated issue) ∧
      TypeExpr.parse text path limit = .ok ⟨some (t.withConstraints block),
        (before ++ issues).map (TypeReading.ofIssue path text text.toList.length)⟩ := by
  have hends : TypeGrammar.FormEnds (brace ++ ([','].intercalate entries ++ '\x7d' :: blanks)) :=
    (hbrace.heads (by decide) _).mono (by simp)
  have hitem : ReadsTypes (fun _ _ => False) (TypeExpr.readType limit limit.toNat) :=
    fun h => h.elim
  obtain ⟨s, hs, hrest⟩ := hhead.read hitem hends []
  rw [hbrace.skipBlanks (by decide)] at hrest
  obtain ⟨block, new, hsuffixes, hnodup, houtcomes⟩ := readSuffixes_entries limit limit.toNat
    hhead.constraints hblanks hbalanced hblank hrecovers hnames hrest
  refine ⟨block, s.issues, new, houtcomes, fun entry hentry name v => houtcomes.get? hnodup hentry,
    houtcomes.exists_leadingName, hhead.repeated hends hs, ?_⟩
  have hread : TypeExpr.readType limit (limit + 1).toNat ⟨text.toList, []⟩ =
      .ok (t.withConstraints block, ⟨[], s.issues ++ new⟩) := by
    have hlevels : (limit + 1).toNat = limit.toNat + 1 := by omega
    rw [hlevels, htext, TypeExpr.readType, hs]
    exact hsuffixes
  have hbare := readType_skipBlanks limit _ _ [] hread
  have hne : (Text.skipBlanks text.toList).isEmpty = false := by
    rw [List.isEmpty_eq_false_iff]
    intro hempty
    rw [hempty] at hbare
    exact readType_nil limit _ [] _ hbare
  have hwhole : TypeExpr.readWhole limit text.toList =
      .ok (t.withConstraints block, s.issues ++ new) := by
    simp only [TypeExpr.readWhole, hne, Bool.false_eq_true, if_false, hbare, bind, Except.bind]
    rfl
  rw [TypeExpr.parse]
  simp only [hwhole]

open TypeGrammar in
theorem TypeExpr.parse_block_integer : ∃ block before issues,
    Outcomes 128 ['\x7d'] [['m', ':', '1'], [' ', 'n'], [' ', 's', ':', '@'],
      [' ', 't', ':', '[', '@', ']'], [' ', '7']] block issues ∧
    Named.get? block "m" = some (.scalar (.int 1)) ∧ Named.get? block "n" = some (.bool true) ∧
    TypeExpr.parse "integer \x7bm:1, n, s:@, t:[@], 7\x7d" = .ok ⟨some (.primitive "integer" block),
      (before ++ issues).map (TypeReading.ofIssue "" "integer \x7bm:1, n, s:@, t:[@], 7\x7d"
        "integer \x7bm:1, n, s:@, t:[@], 7\x7d".toList.length)⟩ := by
  have hspace : Text.AllBlank [' '] := List.forall_mem_singleton.mpr (by decide)
  have hhead : Leaf "integer".toList (.primitive "integer" []) := by
    have hname : IsIdentifier "integer" :=
      ⟨'i', "nteger".toList, by rfl, by rfl, List.all_eq_true.mp (by rfl)⟩
    have hlower : "integer".toLower = "integer" := by decide +kernel
    have hform : Leaf "integer".toList (.primitive "integer".toLower []) :=
      .primitive hname ⟨[], Text.allBlank_nil, by rfl⟩ (by decide +kernel) (by decide +kernel)
    rwa [hlower] at hform
  have htext : "integer \x7bm:1, n, s:@, t:[@], 7\x7d".toList =
      "integer".toList ++ ([' ', '\x7b'] ++ ([','].intercalate [['m', ':', '1'], [' ', 'n'],
        [' ', 's', ':', '@'], [' ', 't', ':', '[', '@', ']'], [' ', '7']] ++ '\x7d' :: [])) := by
    rfl
  have hwritten {c : Char} {cs : List Char} (hc : Text.isBlank c = false) (h : c ∈ cs) :
      ¬ Text.AllBlank cs := fun hcs => Bool.false_ne_true (hc.symm.trans (hcs c h))
  have hone : Literal.IsWord ['1'] (.int 1) := ⟨by rfl, by cbv⟩
  have hm : EntryText 128 ['m', ':', '1'] "m" (.scalar (.int 1)) :=
    entryText_value (by rfl : _ = some ("m", [':', '1'])) (by rfl : _ = ':' :: ['1'])
      ⟨['1'], [], ⟨['1'], .inl (.word hone), [], Text.allBlank_nil, rfl⟩, Text.allBlank_nil, rfl⟩
  have hn : EntryText 128 [' ', 'n'] "n" (.bool true) :=
    entryText_flag (by rfl : _ = some ("n", [])) Text.allBlank_nil
  have hs : Balanced false [' ', 's', ':', '@'] :=
    .plain rfl (.plain rfl (.plain rfl (.plain rfl .nil)))
  have hbrackets : Balanced false ('[' :: (['@'] ++ [']']) ++ []) :=
    .bracketed List.mem_cons_self (.plain rfl .nil) .nil
  have ht : Balanced false [' ', 't', ':', '[', '@', ']'] :=
    .plain rfl (.plain rfl (.plain rfl hbrackets))
  have hsign : Recovers 128 [' ', 's', ':', '@'] :=
    recovers_of_simple hs (by rfl : _ = some ['@']) (List.all_eq_true.mp (by rfl))
      (Text.not_hasLongNumber (by decide))
  have hlist : Recovers 128 [' ', 't', ':', '[', '@', ']'] :=
    recovers_of_simple ht (by rfl : _ = some ['[', '@', ']']) (List.all_eq_true.mp (by rfl))
      (Text.not_hasLongNumber (by decide))
  obtain ⟨block, before, issues, houtcomes, hkept, -, -, hparse⟩ := TypeExpr.parse_block
    "integer \x7bm:1, n, s:@, t:[@], 7\x7d" "" (by decide : (0 : Int) ≤ 128) hhead
    ⟨[' '], hspace, rfl⟩ Text.allBlank_nil htext
    (by
      simp only [List.forall_mem_cons]
      exact ⟨.plain rfl (.plain rfl (.plain rfl .nil)), .plain rfl (.plain rfl .nil), hs, ht,
        .plain rfl (.plain rfl .nil), by simp⟩)
    (by
      simp only [List.forall_mem_cons]
      exact ⟨hwritten (c := 'm') rfl (by simp), hwritten (c := 'n') rfl (by simp),
        hwritten (c := 's') rfl (by simp), hwritten (c := 't') rfl (by simp),
        hwritten (c := '7') rfl (by simp), by simp⟩)
    (by decide +kernel)
    (by
      simp only [List.forall_mem_cons]
      exact ⟨hm.recovers, hn.recovers, hsign, hlist, recovers_of_value? (by rfl), by simp⟩)
  exact ⟨block, before, issues, houtcomes, hkept _ (by simp) _ _ hm, hkept _ (by simp) _ _ hn,
    hparse⟩

open TypeGrammar in
/-- A list that is given up in front of a comma leaves what stands behind the comma to be read as an
entry of its own. -/
theorem TypeExpr.parse_block_leak :
    [['a', ':', '[', '1', ',', '@', ',', 'b', ']'], ['c', ':', '2']].filterMap leadingName =
      ["a", "c"] ∧
    ∃ issues, TypeExpr.parse "string\x7ba:[1,@,b],c:2\x7d" =
      .ok ⟨some (.primitive "string" [("b", .bool true), ("c", .scalar (.int 2))]), issues⟩ := by
  refine ⟨by decide +kernel, ?_⟩
  have hwhole : TypeExpr.readWhole 128 "string\x7ba:[1,@,b],c:2\x7d".toList =
      .ok (.primitive "string" [("b", .bool true), ("c", .scalar (.int 2))],
        [⟨.notLiteral "a", 12⟩, ⟨.unexpectedInBlock (some ']'), 6⟩]) := by
    cbv
  rw [TypeExpr.parse]
  simp only [TypeExpr.defaultLimit, hwhole]
  exact ⟨_, rfl⟩

end AppSpec
