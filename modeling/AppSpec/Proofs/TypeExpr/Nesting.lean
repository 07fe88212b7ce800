import AppSpec.Proofs.TypeExpr.Extension
import AppSpec.Proofs.TypeExpr.Grammar.Read

/-!
How deep a type that is read may be. Brackets are counted against the limit from the outside, but the
question marks behind a closed bracket from the depth of the bracket, whatever it holds: a type can
be deeper than the limit, by its question marks, up to a bound that grows with the square of the limit.
-/

namespace AppSpec

namespace TypeExpr

/-! ### Nodes -/

def children : TypeExpr → List TypeExpr
  | .array element _ => [element]
  | .map key value _ => [key, value]
  | .optional inner _ => [inner]
  | .object fields _ => fields.map (·.2)
  | _ => []

/-- The node lies so many nodes below the root. -/
inductive Below : TypeExpr → Nat → TypeExpr → Prop
  | root (t : TypeExpr) : Below t 0 t
  | inside {t child node : TypeExpr} {n : Nat} (hchild : child ∈ t.children)
      (h : Below child n node) : Below t (n + 1) node

theorem height_le_iff {t : TypeExpr} {n : Nat} : t.height ≤ n ↔ ∀ c ∈ t.children, c.height < n := by
  cases t with
  | object fields cs => rw [height, fieldsHeight_le_iff, children, List.forall_mem_map]
  | _ => simp [height, children]

theorem height_lt_of_child {t c : TypeExpr} (h : c ∈ t.children) : c.height < t.height :=
  height_le_iff.mp le_rfl c h

theorem Below.le_height {t node : TypeExpr} {n : Nat} (h : t.Below n node) : n ≤ t.height := by
  induction h with
  | root => exact Nat.zero_le _
  | inside hchild _ ih => exact ih.trans_lt (height_lt_of_child hchild)

theorem exists_below_height (t : TypeExpr) : ∃ node, t.Below t.height node := by
  generalize hn : t.height = n
  induction n generalizing t with
  | zero => exact ⟨t, .root t⟩
  | succ n ih =>
      have hdeep : ¬ t.height ≤ n := by omega
      rw [height_le_iff] at hdeep
      push Not at hdeep
      obtain ⟨c, hc, hle⟩ := hdeep
      have hlt := height_lt_of_child hc
      obtain ⟨node, hnode⟩ := ih c (by omega)
      exact ⟨node, .inside hc hnode⟩

theorem height_withConstraints (t : TypeExpr) (cs : Constraints) :
    (t.withConstraints cs).height = t.height := by
  cases t <;> rfl

/-! ### What stands in a form -/

section Insides

variable {P : List Char → TypeExpr → List Char → Prop} {item : TypeReader TypeExpr}
  {s s' : TypeCursor}

/-- What holds of a type between two places of a text holds of it between places further out. -/
structure Widens (P : List Char → TypeExpr → List Char → Prop) : Prop where
  widen {cs cs' ds ds' : List Char} {t : TypeExpr} (hfront : cs <:+ cs') (hbehind : ds' <:+ ds)
    (h : P cs t ds) : P cs' t ds'

def Reads (P : List Char → TypeExpr → List Char → Prop) (item : TypeReader TypeExpr) : Prop :=
  ∀ s t s', item s = .ok (t, s') → s'.rest <:+ s.rest ∧ P s.rest t s'.rest

theorem skipBlanks_suffix (s : TypeCursor) : s.skipBlanks.rest <:+ s.rest :=
  Text.skipBlanks_suffix s.rest

theorem expect_suffix {c : Char} {context : Expecting} (h : expect c context s = .ok s') :
    s'.rest <:+ s.rest := Text.suffix_of_skipBlanks (expect_eq_ok.mp h).1

theorem readArguments_reads (hP : Widens P) (hitem : Reads P item) (steps : Nat)
    {ts : List TypeExpr} (h : readArguments item steps s = .ok (ts, s')) :
    s'.rest <:+ s.rest ∧ ∀ t ∈ ts, P s.rest t s'.rest := by
  induction steps generalizing s s' ts with
  | zero =>
      cases h
      exact ⟨List.suffix_refl _, nofun⟩
  | succ steps ih =>
      obtain ⟨t, s₁, ht, hcases⟩ := readArguments_eq_ok.mp h
      obtain ⟨hsuffix, hPt⟩ := hitem _ _ _ ht
      rcases hcases with ⟨rest, hrest, ts, hts, rfl⟩ | ⟨-, rfl, rfl⟩
      · obtain ⟨hlater, hPts⟩ := ih hts
        have hcomma := Text.suffix_of_skipBlanks hrest
        refine ⟨(hlater.trans hcomma).trans hsuffix, List.forall_mem_cons.mpr ⟨?_, fun t ht => ?_⟩⟩
        · exact hP.widen (List.suffix_refl _) (hlater.trans hcomma) hPt
        · exact hP.widen (hcomma.trans hsuffix) (List.suffix_refl _) (hPts t ht)
      · have hskip := skipBlanks_suffix s₁
        exact ⟨hskip.trans hsuffix,
          List.forall_mem_singleton.mpr (hP.widen (List.suffix_refl _) hskip hPt)⟩

theorem readArguments_closed (hP : Widens P) (hitem : Reads P item) {steps : Nat}
    {ts : List TypeExpr} {c : Char} {context : Expecting} {s₁ : TypeCursor}
    (hts : readArguments item steps s = .ok (ts, s₁)) (hclose : expect c context s₁ = .ok s') :
    ∀ t ∈ ts, P s.rest t s'.rest := fun t ht =>
  hP.widen (List.suffix_refl _) (expect_suffix hclose) ((readArguments_reads hP hitem _ hts).2 t ht)

theorem readFields_reads (hP : Widens P) (hitem : Reads P item) (steps : Nat)
    {found fields : List (String × TypeExpr)} (h : readFields item steps found s = .ok (fields, s')) :
    s'.rest <:+ s.rest ∧ ∀ field ∈ fields, field ∈ found ∨ P s.rest field.2 s'.rest := by
  induction steps generalizing s s' found with
  | zero =>
      cases h
      exact ⟨List.suffix_refl _, fun _ => .inl⟩
  | succ steps ih =>
      obtain ⟨name, rest, s₁, t, s₂, -, hsplit, hcolon, ht, -, hcases⟩ := readFields_eq_ok.mp h
      obtain ⟨hsuffix, hPt⟩ := hitem _ _ _ ht
      have hname := TypeText.splitName_suffix (Text.skipBlanks s.rest)
      rw [hsplit] at hname
      have hfront : s₁.rest <:+ s.rest :=
        (expect_suffix hcolon).trans (hname.trans (skipBlanks_suffix s))
      rcases hcases with ⟨tail, htail, hlater⟩ | ⟨-, rfl, rfl⟩
      · obtain ⟨hlater, hfields⟩ := ih hlater
        have hcomma := Text.suffix_of_skipBlanks htail
        have hwhole := (hcomma.trans hsuffix).trans hfront
        refine ⟨hlater.trans hwhole, fun field hfield => ?_⟩
        rcases hfields field hfield with hfound | hPfield
        · rcases List.mem_append.mp hfound with hfound | hnew
          · exact .inl hfound
          · cases List.mem_singleton.mp hnew
            exact .inr (hP.widen hfront (hlater.trans hcomma) hPt)
        · exact .inr (hP.widen hwhole (List.suffix_refl _) hPfield)
      · have hskip := skipBlanks_suffix s₂
        refine ⟨(hskip.trans hsuffix).trans hfront, fun field hfield => ?_⟩
        rcases List.mem_append.mp hfield with hfound | hnew
        · exact .inl hfound
        · cases List.mem_singleton.mp hnew
          exact .inr (hP.widen hfront hskip hPt)

theorem children_ofArguments {composite : Composite} {ts : List TypeExpr} {t : TypeExpr}
    (h : ofArguments composite ts = some t) : t.children = ts := by
  unfold ofArguments at h
  split at h <;> cases h <;> rfl

/-- The types in the brackets of a composite type are read one after the other. -/
theorem readComposite_children (hP : Widens P) (hitem : Reads P item) {composite : Composite}
    {name : String} {nameLeft : Nat} {t : TypeExpr}
    (h : readComposite item composite name nameLeft s = .ok (t, s')) :
    ∀ c ∈ t.children, P s.rest c s'.rest := by
  obtain ⟨s₁, hcontents, hclose⟩ := contents_of_readComposite h
  cases hcontents with
  | enum _ => exact nofun
  | reference _ _ => exact nofun
  | noFields _ => exact nofun
  | fields _ hfields =>
      obtain ⟨-, hinside⟩ := readFields_reads hP hitem _ hfields
      intro c hc
      obtain ⟨field, hfield, rfl⟩ := List.mem_map.mp hc
      exact hP.widen (skipBlanks_suffix s) (expect_suffix hclose)
        ((hinside field hfield).resolve_left List.not_mem_nil)
  | arguments harguments ht =>
      rw [children_ofArguments ht]
      exact readArguments_closed hP hitem harguments hclose

theorem readForm_children (hP : Widens P) (hitem : Reads P item) {t : TypeExpr}
    (h : readForm item s = .ok (t, s')) : ∀ c ∈ t.children, P s.rest c s'.rest := by
  obtain ⟨name, rest, -, hsplit, hcases⟩ := readForm_ok h
  rcases hcases with ⟨inner, composite, hbracket, -, hread⟩ | ⟨-, halone⟩
  · have hname := TypeText.splitName_suffix (Text.skipBlanks s.rest)
    rw [hsplit] at hname
    have hinner : inner <:+ s.rest :=
      (Text.suffix_of_skipBlanks hbracket).trans (hname.trans (skipBlanks_suffix s))
    exact fun c hc => hP.widen hinner (List.suffix_refl _)
      (readComposite_children hP hitem hread c hc)
  · obtain ⟨-, ⟨-, rfl⟩ | ⟨-, rfl⟩⟩ := readAlone_ok halone
    · exact nofun
    · split <;> exact nofun

end Insides

/-! ### Levels -/

/-- How far below a type its nodes may lie where so many more levels are allowed: at each of the
levels one bracket, and around it a question mark for each level that is allowed there. -/
def reach : Nat → Nat
  | 0 => 0
  | levels + 1 => reach levels + levels + 2

theorem two_mul_reach (levels : Nat) : 2 * reach levels = levels * (levels + 3) := by
  induction levels with
  | zero => rfl
  | succ levels ih =>
      rw [reach, Nat.mul_add, Nat.mul_add, ih]
      ring

/-- What a text that is read to so many more levels makes of the height of the type. -/
structure WithinLevels (levels : Nat) (cs : List Char) (t : TypeExpr) (ds : List Char) : Prop where
  reach : t.height ≤ reach levels
  marks : t.height + ds.count '?' ≤ levels + cs.count '?'

theorem widens_withinLevels (levels : Nat) : Widens (WithinLevels levels) := by
  refine ⟨fun hcs hds h => ⟨h.reach, ?_⟩⟩
  have hfront := hcs.sublist.count_le '?'
  have hbehind := hds.sublist.count_le '?'
  have hmarks := h.marks
  omega

theorem readBlock_suffix {limit : Int} {openLeft steps : Nat} {found cs : Constraints}
    {s s' : TypeCursor} (hsteps : s.rest.length ≤ steps)
    (h : readBlock limit openLeft steps s found = .ok (cs, s')) : s'.rest <:+ s.rest :=
  (tracks_readBlock limit openLeft openLeft steps steps found hsteps hsteps
    (List.append_nil _).symm).suffix _ _ h

theorem readSuffixes_height (limit : Int) (steps depth : Nat) {t t' : TypeExpr} {s s' : TypeCursor}
    (h : readSuffixes limit steps depth t s = .ok (t', s')) :
    t'.height ≤ t.height + depth ∧ t'.height + s'.rest.count '?' ≤ t.height + s.rest.count '?' := by
  induction steps using Nat.strongRecOn generalizing depth t s with
  | ind steps ih =>
      have hskip := (skipBlanks_suffix s).sublist.count_le '?'
      rw [TypeCursor.rest_skipBlanks] at hskip
      rcases readSuffixes_ok h with ⟨n, d, rest, rfl, rfl, hs, hlater⟩ |
        ⟨n, rest, block, s₁, rfl, hs, hblock, hlater⟩ | ⟨rfl, rfl, -⟩
      · rw [hs, List.count_cons_self] at hskip
        obtain ⟨hdepth, hcount⟩ := ih n (Nat.lt_succ_self n) d hlater
        simp only [height] at hdepth hcount
        exact ⟨by omega, by omega⟩
      · have hleft := (readBlock_suffix (s := ⟨rest, s.issues⟩) (Nat.le_succ _)
          hblock).sublist.count_le '?'
        have hbehind := (List.sublist_cons_self '\x7b' rest).count_le '?'
        rw [hs] at hskip
        obtain ⟨hdepth, hcount⟩ := ih n (Nat.lt_succ_self n) depth hlater
        rw [height_withConstraints] at hdepth hcount
        dsimp only at hleft hcount
        exact ⟨hdepth, by omega⟩
      · exact ⟨Nat.le_add_right _ _, Nat.add_le_add_left hskip _⟩

theorem readType_suffix {limit : Int} {levels : Nat} {s s' : TypeCursor} {t : TypeExpr}
    (h : readType limit levels s = .ok (t, s')) : s'.rest <:+ s.rest := by
  have htracks : TracksReader [] (readType limit levels) := tracks_readType limit levels
  exact (htracks s s (List.append_nil _).symm).suffix _ _ h

theorem readForm_suffix {limit : Int} {levels : Nat} {s s' : TypeCursor} {t : TypeExpr}
    (h : readForm (readType limit levels) s = .ok (t, s')) : s'.rest <:+ s.rest := by
  have htracks : TracksReader [] (readForm (readType limit levels)) :=
    tracks_readForm (tracks_readType limit levels)
  exact (htracks s s (List.append_nil _).symm).suffix _ _ h

/-- The type that is read where `levels` more are allowed below it. -/
theorem readType_withinLevels (limit : Int) (levels : Nat) :
    Reads (WithinLevels levels) (readType limit (levels + 1)) := by
  induction levels with
  | zero =>
      intro s t s' h
      refine ⟨readType_suffix h, ?_⟩
      rw [readType] at h
      obtain ⟨⟨form, s₁⟩, hform, h⟩ := bind_eq_ok.mp h
      obtain ⟨hdepth, hcount⟩ := readSuffixes_height limit _ _ h
      have hfront := (readForm_suffix hform).sublist.count_le '?'
      -- no type can be read inside, so the form holds none
      have hleaf : form.height ≤ 0 := height_le_iff.mpr <| readForm_children
        (P := fun _ c _ => c.height < 0) ⟨fun _ _ => id⟩ (by intro s t s' h; cases h) hform
      exact ⟨by rw [reach]; omega, by omega⟩
  | succ levels ih =>
      intro s t s' h
      refine ⟨readType_suffix h, ?_⟩
      rw [readType] at h
      obtain ⟨⟨form, s₁⟩, hform, h⟩ := bind_eq_ok.mp h
      obtain ⟨hdepth, hcount⟩ := readSuffixes_height limit _ _ h
      have hinside := readForm_children (widens_withinLevels levels) ih hform
      have hreach : form.height ≤ reach levels + 1 :=
        height_le_iff.mpr fun c hc => Nat.lt_succ_of_le (hinside c hc).reach
      have hfront := (readForm_suffix hform).sublist.count_le '?'
      have hmarks : form.height ≤ levels + 1 + s.rest.count '?' - s₁.rest.count '?' :=
        height_le_iff.mpr fun c hc => by
          have := (hinside c hc).marks
          omega
      exact ⟨by rw [reach]; omega, by omega⟩

theorem readWhole_withinLevels {limit : Nat} {cs : List Char} {t : TypeExpr}
    {issues : List TypeIssue} (h : readWhole limit cs = .ok (t, issues)) :
    t.height ≤ limit + cs.count '?' ∧ t.height ≤ reach limit := by
  unfold readWhole at h
  dsimp only at h
  split at h
  · cases h
  · obtain ⟨⟨u, s⟩, hread, h⟩ := bind_eq_ok.mp h
    obtain ⟨issues', -, h⟩ := bind_eq_ok.mp h
    cases h
    obtain ⟨-, hwithin⟩ := readType_withinLevels limit limit _ _ _ hread
    have hmarks := hwithin.marks
    have hskip := (Text.skipBlanks_suffix cs).sublist.count_le '?'
    dsimp only at hmarks ⊢
    exact ⟨by omega, hwithin.reach⟩

end TypeExpr

namespace TypeGrammar

/-! ### The deepest types -/

theorem Token.self (token : List Char) : Token token token := ⟨[], Text.allBlank_nil, rfl⟩

theorem marks_replicate (count : Nat) : Marks count (List.replicate count '?') := by
  induction count with
  | zero => exact .none
  | succ count ih => exact .more (Token.self _) ih

theorem height_optionals (count : Nat) (t : TypeExpr) :
    (optionals count t).height = t.height + count := by
  induction count generalizing t with
  | zero => rfl
  | succ count ih =>
      rw [optionals, ih, TypeExpr.height]
      omega

def deepestType : Nat → TypeExpr
  | 0 => .primitive "int" []
  | levels + 1 => optionals (levels + 1) (.optional (deepestType levels) [])

/-- At each level a bracket, closed and followed by as many question marks as are allowed there. -/
def deepestText : Nat → List Char
  | 0 => "int".toList
  | levels + 1 =>
      "optional".toList ++ (['['] ++ (deepestText levels ++ [']'])) ++
        List.replicate (levels + 1) '?'

theorem levels_deepest (levels : Nat) :
    Levels (levels + 1) (deepestText levels) (deepestType levels) := by
  induction levels with
  | zero =>
      have hname : TypeExpr.IsIdentifier "int" := by decide
      have hlower : "int".toLower = "int" := by decide +kernel
      have hform : Form (Levels 0) "int".toList (.primitive "int".toLower []) :=
        .primitive hname (Token.self _) (by decide +kernel) (by decide +kernel)
      rw [hlower] at hform
      exact ⟨_, [], 0, _, hform, .none, le_rfl, (List.append_nil _).symm, rfl⟩
  | succ levels ih =>
      have hname : TypeExpr.IsIdentifier "optional" := by decide
      exact ⟨_, _, levels + 1, _,
        .bracketed hname (Token.self _) (by decide +kernel) (Token.self _) (.optional ih)
          (Token.self _),
        marks_replicate _, le_rfl, rfl, rfl⟩

theorem height_deepestType (levels : Nat) :
    (deepestType levels).height = TypeExpr.reach levels := by
  induction levels with
  | zero => rfl
  | succ levels ih =>
      rw [deepestType, height_optionals, TypeExpr.height, ih, TypeExpr.reach]
      omega

theorem derives_deepest (limit : Nat) : Derives limit (deepestText limit) (deepestType limit) :=
  ⟨_, [], levels_deepest limit, Text.allBlank_nil, (List.append_nil _).symm⟩

end TypeGrammar

/-- A type that is read has no node further below its root than the limit and the question marks of
its text, nor further than half the product of the limit and the limit plus three. Some text has
one that far below: the limit itself is no bound. -/
theorem TypeExpr.parse_below (limit : Nat) (path : String) :
    (∀ text r t n node, parse text path limit = .ok r → r.expression = some t → t.Below n node →
      n ≤ limit + text.toList.count '?' ∧ n ≤ limit * (limit + 3) / 2) ∧
    ∃ text r t node, parse text path limit = .ok r ∧ r.expression = some t ∧
      t.Below (limit * (limit + 3) / 2) node := by
  have hreach : reach limit = limit * (limit + 3) / 2 := by
    rw [← two_mul_reach, Nat.mul_div_cancel_left _ Nat.two_pos]
  rw [← hreach]
  constructor
  · intro text r t n node hparse ht hbelow
    unfold parse at hparse
    dsimp only at hparse
    split at hparse
    · next hread =>
        cases hparse
        cases ht
        have hheight := hbelow.le_height
        obtain ⟨hmarks, hbound⟩ := readWhole_withinLevels hread
        exact ⟨hheight.trans hmarks, hheight.trans hbound⟩
    · cases hparse
      cases ht
    · cases hparse
  · obtain ⟨issues, hread⟩ := (TypeGrammar.derives_deepest limit).readWhole
    obtain ⟨node, hnode⟩ := exists_below_height (TypeGrammar.deepestType limit)
    rw [TypeGrammar.height_deepestType] at hnode
    have hparse : ∃ r, parse (String.ofList (TypeGrammar.deepestText limit)) path limit = .ok r ∧
        r.expression = some (TypeGrammar.deepestType limit) := by
      simp only [parse, String.toList_ofList, hread]
      exact ⟨_, rfl, rfl⟩
    obtain ⟨r, hparse, ht⟩ := hparse
    exact ⟨_, r, _, node, hparse, ht, hnode⟩

theorem TypeExpr.parse_below_listed : ∃ t node,
    parse "array[int?]?" "" 2 = .ok ⟨some t, []⟩ ∧ t.Below 3 node ∧
      3 ≤ 2 + "array[int?]?".toList.count '?' ∧ 3 ≤ 2 * (2 + 3) / 2 := by
  let t : TypeExpr := .optional (.array (.optional (.primitive "int" []) []) []) []
  have hread : parse "array[int?]?" "" 2 = .ok ⟨some t, []⟩ := by cbv
  have hnode : t.Below 3 (.primitive "int" []) :=
    .inside (List.mem_singleton_self _) (.inside (List.mem_singleton_self _)
      (.inside (List.mem_singleton_self _) (.root _)))
  exact ⟨t, _, hread, hnode,
    (TypeExpr.parse_below 2 "").1 "array[int?]?" ⟨some t, []⟩ t 3 _ hread rfl hnode⟩

/-- The same type written with brackets alone is too deep. -/
theorem TypeExpr.parse_exceeds_limit :
    (∃ t node, parse "optional[int]?" "" 1 = .ok ⟨some t, []⟩ ∧ t.Below 2 node) ∧
      ∃ fault, parse "optional[optional[int]]" "" 1 =
        .ok (TypeReading.ofFault "" "optional[optional[int]]" 23 fault) := by
  have hnode : Below (.optional (.optional (.primitive "int" []) []) []) 2 (.primitive "int" []) :=
    .inside (List.mem_singleton_self _) (.inside (List.mem_singleton_self _) (.root _))
  have hfault : readWhole 1 "optional[optional[int]]".toList =
      .error (.fault ⟨.tooDeep 1, 5⟩) := by cbv
  refine ⟨⟨_, _, by cbv, hnode⟩, ⟨.tooDeep 1, 5⟩, ?_⟩
  rw [parse, hfault]
  rfl

end AppSpec
