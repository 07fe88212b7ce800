import AppSpec.Proofs.Document.Total
import AppSpec.Proofs.Json.Reader
import AppSpec.Proofs.Yaml.Token.Stream
import AppSpec.Proofs.Yaml.Value
import AppSpec.Source.Parse

/-!
Parsing a text comes to a result, and so does asking whether it can be read, unless the text has
something that no format can tell a fault of. A text that cannot be read gives an empty document and
one fatal diagnostic.
-/

namespace AppSpec

namespace Yaml

/-- What loading a text may fail at. -/
inductive Hurdle (cs : List Char) : Failure → Prop
  | text {f : Failure} (h : TextHurdle cs f) : Hurdle cs f
  | nodes {g : NodeGraph} {f : Failure} (hg : NodeGraph.ofText? cs = .ok (some g))
      (h : NodeHurdle g.nodes f) : Hurdle cs f

variable {cs : List Char} {f : Failure}

theorem ends_checkCharacters (index : Nat) (cs : List Char) {P : Failure → Prop} :
    Ends (Stop.FailsIn P) (fun _ => True) (checkCharacters index cs) := by
  induction cs generalizing index with
  | nil => trivial
  | cons c cs ih =>
      rw [checkCharacters]
      split
      · exact ih _
      · exact nofun

theorem ends_ofText? (cs : List Char) :
    Ends (Stop.FailsIn (TextHurdle cs)) (fun _ => True) (NodeGraph.ofText? cs) :=
  (ends_checkCharacters 0 cs).bind fun _ _ => NodeGraph.ends_ofTokens? (failsIn_tokens cs)

theorem ends_loadGraph (g : NodeGraph) :
    Ends (Stop.FailsIn (NodeHurdle g.nodes)) (fun _ => True) (loadGraph g) := by
  rw [loadGraph]
  split
  · exact nofun
  · exact g.ends_value.bind fun _ _ => trivial

theorem hurdle_of_load (h : load cs = .error (.failure f)) : Hurdle cs f := by
  rcases bind_eq_error.mp h with htext | ⟨g?, hg, h⟩
  · have hends := ends_ofText? cs
    rw [htext] at hends
    exact .text (hends f rfl)
  · cases g? with
    | none => cases h
    | some g =>
        have hends := ends_loadGraph g
        dsimp only at h
        rw [h] at hends
        exact .nodes hg (hends f rfl)

end Yaml

/-- What no rule for a document stumbles over: its numbers are short, and unless it contains itself
its entries are in order. -/
structure RawGraph.Ordinary (g : RawGraph) : Prop where
  short : g.Short
  orderly : ¬ g.SelfContaining → ∀ entries, g.value = .dict entries → Document.Orderly entries

structure Value.Ordinary (v : Value) : Prop where
  short : v.Short
  orderly : ∀ entries, v = .dict entries → Document.Orderly entries

/-- The result for a text that could not be read. -/
structure ParseResult.Unread (r : ParseResult) : Prop where
  document : r.document = {}
  fatal : ∃ d, r.diagnostics = [d] ∧ d.category = .syntaxError ∧ d.severity = .fatal

theorem Yaml.unread_stopDiagnostic (cs : List Char) (stop : Stop) :
    (ParseResult.rejected (stopDiagnostic cs stop)).Unread := by
  rw [stopDiagnostic]
  cases stop.mark? with
  | none => exact ⟨rfl, _, rfl, rfl, rfl⟩
  | some mark => exact ⟨rfl, _, rfl, rfl, rfl⟩

namespace Document

variable {s : Settings} {v : Value} {g : RawGraph}

theorem exists_validate (hs : s.unmappedSeverity ≠ .fatal) (hv : v.Ordinary) :
    ∃ r, validate s v = .ok r := by
  cases v with
  | dict entries =>
      cases entries with
      | nil => exact ⟨_, rfl⟩
      | cons e entries =>
          obtain ⟨r, h, -⟩ := validate_dict hs (Entries.short_dict hv.short) (hv.orderly _ rfl)
            (List.cons_ne_nil _ _) []
          exact ⟨r, h⟩
  | scalar s => cases s <;> exact ⟨_, rfl⟩
  | list items => exact ⟨_, rfl⟩
  | tuple items => exact ⟨_, rfl⟩
  | set items => exact ⟨_, rfl⟩

theorem exists_validateGraph (hs : s.unmappedSeverity ≠ .fatal) (hg : g.Ordinary)
    (positions : Positions) : ∃ r, validateGraph s g positions = .ok r := by
  by_cases hentries : g.HasEntries
  · by_cases hself : g.SelfContaining
    · obtain ⟨message, h⟩ := (validateGraph_of_selfContaining hentries hself s positions).resolve_right
        fun hlong => hg.short.not_hasLongKey hlong.2
      exact ⟨_, h⟩
    · obtain ⟨e, entries, hvalue⟩ := RawGraph.value_of_hasEntries hentries
      have hshort : (Value.dict (e :: entries)).Short := hvalue ▸ RawGraph.short_value hg.short
      obtain ⟨r, h, -⟩ := validate_dict hs (Entries.short_dict hshort) (hg.orderly hself _ hvalue)
        (List.cons_ne_nil _ _) positions
      exact ⟨r, by rw [validateGraph_of_finite hentries hself, hvalue, h]⟩
  · obtain ⟨message, h⟩ := validateGraph_of_not_hasEntries hentries s positions
    exact ⟨_, h⟩

end Document

namespace ParserKind

/-- What reading a text in a format may fail at. -/
def Hurdle (cs : List Char) : ParserKind → Failure → Prop
  | .json, f => f = .integerTooLong ∧ Text.HasLongNumber cs
  | .yaml, f => Yaml.Hurdle cs f

/-- What a text is read as is ordinary. -/
def Ordinary (cs : List Char) : ParserKind → Prop
  | .json => ∀ v repeated, Json.read cs = .ok (v, repeated) → v.Ordinary
  | .yaml => ∀ l, Yaml.load cs = .ok l → l.graph.Ordinary

variable {cs : List Char} {kind : ParserKind} {s : Settings}

theorem hurdle_of_isReadable {f : Failure} (h : kind.isReadable cs = .error f) :
    kind.Hurdle cs f := by
  cases kind with
  | json =>
      rw [isReadable, Json.isReadable] at h
      split at h
      · cases h
      · cases h
      · next hread =>
          cases h
          exact Json.hasLongNumber_of_read hread
  | yaml =>
      rw [isReadable, Yaml.isReadable] at h
      split at h
      · cases h
      · next hload =>
          cases h
          exact Yaml.hurdle_of_load hload
      · cases h

/-- A text that can be read and is ordinary gives a result, and so does one that cannot. -/
theorem exists_parse (hs : s.unmappedSeverity ≠ .fatal) (hordinary : kind.Ordinary cs)
    {readable : Bool} (h : kind.isReadable cs = .ok readable) :
    ∃ r, kind.parse s cs = .ok r ∧ (readable = false → r.Unread) := by
  cases kind with
  | json =>
      rw [isReadable, Json.isReadable] at h
      rw [parse, Json.parse]
      split at h
      · next hread =>
          cases h
          obtain ⟨r, hr⟩ := Document.exists_validate hs (hordinary _ _ hread)
          rw [hread]
          dsimp only
          rw [hr]
          exact ⟨_, rfl, nofun⟩
      · next hread =>
          rw [hread]
          exact ⟨_, rfl, fun _ => ⟨rfl, _, rfl, rfl, rfl⟩⟩
      · cases h
  | yaml =>
      rw [isReadable, Yaml.isReadable] at h
      rw [parse, Yaml.parse]
      split at h
      · next l hload =>
          cases h
          obtain ⟨r, hr⟩ := Document.exists_validateGraph hs (hordinary l hload) l.positions
          rw [hr]
          exact ⟨_, rfl, nofun⟩
      · cases h
      · exact ⟨_, rfl, fun _ => Yaml.unread_stopDiagnostic cs _⟩

/-- To find the format of a text, all of it may be read, but for the blanks at its ends. -/
theorem exists_detect {process : Settings} {content : String}
    (h : ¬ Text.HasLongNumber content.toList) : ∃ kind, detect process content = .ok kind := by
  rw [detect]
  split
  · exact ⟨_, rfl⟩
  · split
    · exact ⟨_, rfl⟩
    · cases hread : Json.isReadable (Text.trim content.toList) with
      | ok readable => cases readable <;> exact ⟨_, rfl⟩
      | error f =>
          have hurdle : Hurdle _ .json f := hurdle_of_isReadable hread
          exact absurd (hurdle.2.of_isInfix (Text.trim_infix _)) h

theorem label_of_named {name : String} (h : named name = .ok kind) : kind.label = name := by
  rw [named] at h
  split at h
  · next hkind =>
      cases h
      rw [ofLabel?] at hkind
      have hlabel := List.find?_some hkind
      exact eq_of_beq hlabel
  · cases h

end ParserKind

namespace Document

variable {process s : Settings} {content : String} {parser : Option String}

/-- The format in which a text is read. -/
def ReadAs (process : Settings) (content : String) (parser : Option String) (kind : ParserKind) :
    Prop := parserName process content parser = .ok kind.label

section Reading

variable {name : String} {kind : ParserKind} {f : Failure}
  (hblank : ¬ Text.isAllBlank content = true)
  (hname : parserName process content parser = .ok name)

include hblank hname

theorem isReadable_of_named {readable : Bool} (hkind : ParserKind.named name = .ok kind)
    (h : kind.isReadable content.toList = .ok readable) :
    isReadable process content parser = .ok readable := by
  rw [isReadable, if_neg hblank]
  refine bind_eq_ok.mpr ⟨name, hname, ?_⟩
  rw [hkind]
  dsimp only
  rw [h]
  rfl

theorem parse_of_named {r : ParseResult} (hkind : ParserKind.named name = .ok kind)
    (h : kind.parse s content.toList = .ok r) : parse process s content parser = .ok r := by
  rw [parse, if_neg hblank]
  refine bind_eq_ok.mpr ⟨name, hname, ?_⟩
  rw [hkind]
  exact h

theorem isReadable_of_unknown (hkind : ParserKind.named name = .error f) :
    isReadable process content parser = .ok false := by
  rw [isReadable, if_neg hblank]
  refine bind_eq_ok.mpr ⟨name, hname, ?_⟩
  rw [hkind]
  rfl

theorem parse_of_unknown (hkind : ParserKind.named name = .error f) :
    parse process s content parser = .ok (.rejected (.fatalSyntax "" f.message)) := by
  rw [parse, if_neg hblank]
  refine bind_eq_ok.mpr ⟨name, hname, ?_⟩
  rw [hkind]
  rfl

end Reading

section Named

variable (hnamed : Text.HasLongNumber content.toList → ∃ name, parser = some name ∧ name ≠ "")

include hnamed

theorem exists_parserName : ∃ name, parserName process content parser = .ok name := by
  have hdetected (hshort : ¬ Text.HasLongNumber content.toList) :
      ∃ name, (ParserKind.detect process content).map ParserKind.label = .ok name := by
    obtain ⟨kind, h⟩ := ParserKind.exists_detect hshort
    exact ⟨kind.label, by rw [h]; rfl⟩
  cases parser with
  | none => exact hdetected fun hlong => by obtain ⟨_, h, -⟩ := hnamed hlong; cases h
  | some name =>
      rw [parserName]
      split
      · next hempty =>
          refine hdetected fun hlong => ?_
          obtain ⟨_, h, hne⟩ := hnamed hlong
          cases h
          exact hne (String.isEmpty_iff.mp hempty)
      · exact ⟨name, rfl⟩

/-- The name of the parser for a text is that of the format in which it is read, or no format has
it. -/
theorem exists_named :
    ∃ name, parserName process content parser = .ok name ∧
      ((∃ kind, ParserKind.named name = .ok kind ∧ ReadAs process content parser kind) ∨
        ∃ f, ParserKind.named name = .error f) := by
  obtain ⟨name, hname⟩ := exists_parserName hnamed
  refine ⟨name, hname, ?_⟩
  cases hkind : ParserKind.named name with
  | error f => exact .inr ⟨f, rfl⟩
  | ok kind => exact .inl ⟨kind, rfl, by rw [ReadAs, hname, ParserKind.label_of_named hkind]⟩

theorem exists_isReadable
    (hhurdle : ∀ kind, ReadAs process content parser kind →
      ∀ f, kind.Hurdle content.toList f → f.isUnreadable = true) :
    ∃ readable, isReadable process content parser = .ok readable := by
  by_cases hblank : Text.isAllBlank content = true
  · exact ⟨false, by rw [isReadable, if_pos hblank]; rfl⟩
  obtain ⟨name, hname, ⟨kind, hkind, hread⟩ | ⟨f, hkind⟩⟩ := exists_named hnamed
  · cases hreadable : kind.isReadable content.toList with
    | ok readable => exact ⟨readable, isReadable_of_named hblank hname hkind hreadable⟩
    | error f =>
        have hunreadable := hhurdle kind hread f (ParserKind.hurdle_of_isReadable hreadable)
        refine ⟨false, ?_⟩
        rw [isReadable, if_neg hblank]
        refine bind_eq_ok.mpr ⟨name, hname, ?_⟩
        rw [hkind]
        dsimp only
        rw [hreadable]
        dsimp only
        rw [if_pos hunreadable]
        rfl
  · exact ⟨false, isReadable_of_unknown hblank hname hkind⟩

theorem exists_parse (hs : s.unmappedSeverity ≠ .fatal)
    (hplain : ∀ kind, ReadAs process content parser kind →
      (∀ f, ¬ kind.Hurdle content.toList f) ∧ kind.Ordinary content.toList) :
    ∃ readable r, isReadable process content parser = .ok readable ∧
      parse process s content parser = .ok r ∧ (readable = false → r.Unread) := by
  by_cases hblank : Text.isAllBlank content = true
  · rw [isReadable, parse, if_pos hblank, if_pos hblank]
    exact ⟨_, _, rfl, rfl, fun _ => ⟨rfl, _, rfl, rfl, rfl⟩⟩
  obtain ⟨name, hname, ⟨kind, hkind, hread⟩ | ⟨f, hkind⟩⟩ := exists_named hnamed
  · obtain ⟨hhurdle, hordinary⟩ := hplain kind hread
    cases hreadable : kind.isReadable content.toList with
    | ok readable =>
        obtain ⟨r, hr, hunread⟩ := ParserKind.exists_parse hs hordinary hreadable
        exact ⟨readable, r, isReadable_of_named hblank hname hkind hreadable,
          parse_of_named hblank hname hkind hr, hunread⟩
    | error f => exact absurd (ParserKind.hurdle_of_isReadable hreadable) (hhurdle f)
  · exact ⟨false, .rejected (.fatalSyntax "" f.message), isReadable_of_unknown hblank hname hkind,
      parse_of_unknown hblank hname hkind, fun _ => ⟨rfl, _, rfl, rfl, rfl⟩⟩

end Named

/-- A text has a result, and is known to be readable or not, unless it has a hurdle in its format or
is read as something that is not ordinary. If only unreadable values are its hurdles, it is still
known whether it can be read. A text whose format is to be found must not have a number that is too
long. -/
theorem parse_total {given : Named Value} {environment : Named String}
    (hs : Settings.read given environment = .ok s)
    (hnamed : Text.HasLongNumber content.toList → ∃ name, parser = some name ∧ name ≠ "") :
    ((∀ kind, ReadAs process content parser kind →
        ∀ f, kind.Hurdle content.toList f → f.isUnreadable = true) →
      ∃ readable, isReadable process content parser = .ok readable) ∧
    ((∀ kind, ReadAs process content parser kind →
        (∀ f, ¬ kind.Hurdle content.toList f) ∧ kind.Ordinary content.toList) →
      ∃ readable r, isReadable process content parser = .ok readable ∧
        parse process s content parser = .ok r ∧ (readable = false → r.Unread)) :=
  ⟨exists_isReadable hnamed, exists_parse hnamed (Settings.unmappedSeverity_ne_fatal hs)⟩

/-! A text with an anchor, of which nothing is tagged otherwise than it looks. -/

def sharedText : String :=
  "components:\n  Users: &shared\n    type: service\n    dependencies: Users\n  Billing: *shared\n"

def isSharedService (g : RawGraph) : Bool :=
  match g.root, g.nodes.toList with
  | .node 0, [.dict [(.str a, .node 1)], .dict [(.str b, .node 2), (.str c, .node 2)],
      .dict [(.str d, .value (.str e)), (.str f, .value (.str k))]] =>
      [a, b, c, d, e, f, k] ==
        ["components", "Users", "Billing", "type", "service", "dependencies", "Users"]
  | _, _ => false

theorem eq_sharedService (h : isSharedService g = true) : g = sharedService := by
  obtain ⟨⟨nodes⟩, root⟩ := g
  unfold isSharedService at h
  split at h
  · next hroot hnodes =>
      rw [beq_iff_eq] at h
      cases h
      cases hroot
      obtain rfl : nodes = _ := hnodes
      rfl
  · cases h

def sharedHolds : Bool :=
  match Yaml.NodeGraph.ofText? sharedText.toList, Yaml.load sharedText.toList with
  | .ok (some g), .ok loaded =>
      g.nodes.all Yaml.Node.isPlain && isSharedService loaded.graph
  | _, _ => false

theorem sharedHolds_sharedText : sharedHolds = true := by decide +kernel

theorem parse_total_sharedText :
    Settings.read [] [] = .ok {} ∧ ReadAs {} sharedText none .yaml ∧
      (∀ f, ¬ ParserKind.yaml.Hurdle sharedText.toList f) ∧
      ParserKind.yaml.Ordinary sharedText.toList ∧
      ∃ readable r, isReadable {} sharedText none = .ok readable ∧
        parse {} {} sharedText none = .ok r ∧ (readable = false → r.Unread) := by
  have hs : Settings.read [] [] = .ok {} := rfl
  have hread : ReadAs {} sharedText none .yaml := by
    unfold ReadAs
    decide +kernel
  have hshort : ¬ Text.HasLongNumber sharedText.toList := Text.not_hasLongNumber (by decide)
  have hholds := sharedHolds_sharedText
  unfold sharedHolds at hholds
  split at hholds
  · next g loaded hg hload =>
      rw [Bool.and_eq_true] at hholds
      have hhurdle (f : Failure) : ¬ ParserKind.yaml.Hurdle sharedText.toList f := by
        rintro (htext | ⟨hg', hnodes⟩)
        · exact Yaml.not_textHurdle hshort (by decide) f htext
        · cases hg.symm.trans hg'
          exact Yaml.not_nodeHurdle (Array.all_eq_true_iff_forall_mem.mp hholds.1) f hnodes
      have hordinary : ParserKind.yaml.Ordinary sharedText.toList := by
        intro l hl
        cases hload.symm.trans hl
        rw [eq_sharedService hholds.2]
        exact ⟨short_sharedService, fun _ => orderly_sharedService⟩
      refine ⟨hs, hread, hhurdle, hordinary, (parse_total hs fun h => absurd h hshort).2 ?_⟩
      intro kind hkind
      cases kind with
      | yaml => exact ⟨hhurdle, hordinary⟩
      | json =>
          have hlabel := Except.ok.inj (hread.symm.trans hkind)
          exact absurd hlabel (by decide)
  · cases hholds

/-- A text that is tagged as a truth value and names none. -/
example : isReadable {} "a: !!bool maybe\n" none = .error .noTruthValue := by decide +kernel

end Document

end AppSpec
