import AppSpec.Proofs.Yaml.MergePrecedence

/-!
Keys that are told to be repeated, against pairs that are dropped. The positions are indexed by the
texts of the keys, but values are kept by the keys themselves: the two agree on mappings whose keys
are the same just where their texts are, as those are whose keys are all strings.
-/

namespace AppSpec.Yaml

open Builder

/-! ### What the positions tell -/

namespace NodeGraph

variable (g : NodeGraph)

/-- The pairs whose keys have the text of a key before them. -/
def repeats : List (Nat × Nat) → List String → List (Nat × Nat)
  | [], _ => []
  | (key, value) :: rest, seen =>
      match g.text? key with
      | none => repeats rest seen
      | some name =>
          if name == mergeKey then repeats rest seen
          else if seen.contains name then (key, value) :: repeats rest seen
          else repeats rest (name :: seen)

/-- The values under the first key of each text, with the text. -/
def firsts : List (Nat × Nat) → List String → List (String × Nat)
  | [], _ => []
  | (key, value) :: rest, seen =>
      match g.text? key with
      | none => firsts rest seen
      | some name =>
          if name == mergeKey || seen.contains name then firsts rest seen
          else (name, value) :: firsts rest (name :: seen)

/-- Tells that the key of a pair in the mapping at a path is repeated. -/
def report (path : String) (pair : Nat × Nat) : Diagnostic :=
  let n := g.nodes[pair.1]?.getD noNode
  let name := n.text?.getD ""
  (Diagnostic.duplicateKey (Path.child path name) name).placed n.position.line n.position.column

/-- The mappings below a node that are indexed, with their paths. -/
def mappingsBelow : Nat → Nat → String → List (Nat × String)
  | 0, _, _ => []
  | steps + 1, i, path =>
      match g.nodes[i]? with
      | none => []
      | some n =>
          match n.content with
          | .scalar _ _ => []
          | .sequence items =>
              items.zipIdx.flatMap fun e => mappingsBelow steps e.1 (Path.item path e.2)
          | .mapping pairs =>
              (i, path) :: (g.firsts pairs []).flatMap fun e =>
                mappingsBelow steps e.2 (Path.child path e.1)

def mappings : List (Nat × String) := g.mappingsBelow (g.nodes.size + 2) g.root ""

/-- What is told for a mapping. -/
def issued (mapping : Nat × String) : List Diagnostic :=
  (g.repeats (pairsAt g.nodes mapping.1) []).map (g.report mapping.2)

end NodeGraph

section Walk

variable {g : NodeGraph} {s s' : Index} {path : String}
  {below : Nat → String → Index → Except RecursiveAlias Index} {told : Nat → String → List Diagnostic}

theorem repeated_note (s : Index) (path : String) (p : Position) :
    (s.note path p).repeated = s.repeated := by
  unfold Index.note
  split <;> rfl

theorem repeated_noteChild (path : String) (key value : Nat) (s : Index) :
    (g.noteChild path key value s).repeated = s.repeated := by
  unfold NodeGraph.noteChild
  split
  · exact repeated_note ..
  · rfl

theorem repeated_noteItem (path : String) (item : Nat) (s : Index) :
    (g.noteItem path item s).repeated = s.repeated := by
  unfold NodeGraph.noteItem
  split
  · exact repeated_note ..
  · rfl

theorem repeated_noteRepeated {key value : Nat} {name : String} (h : g.text? key = some name) :
    (g.noteRepeated (Path.child path name) name key s).repeated =
      s.repeated ++ [g.report path (key, value)] := by
  obtain ⟨n, hn, htext⟩ := Option.bind_eq_some_iff.mp h
  simp only [NodeGraph.noteRepeated, NodeGraph.report, hn, Option.getD_some, htext]

/-- Walking below a node adds what is told there. -/
def Tells (below : Nat → String → Index → Except RecursiveAlias Index)
    (told : Nat → String → List Diagnostic) : Prop :=
  ∀ i path s s', below i path s = .ok s' → s'.repeated.Perm (s.repeated ++ told i path)

/-- What a walk does with the pairs of a mapping, one after the other. -/
inductive PairsWalked (g : NodeGraph) (below : Nat → String → Index → Except RecursiveAlias Index)
    (path : String) : List (Nat × Nat) → List String → Index → Index → Prop
  | nil {seen : List String} {s : Index} : PairsWalked g below path [] seen s s
  | textless {key value rest seen s s'} (htext : g.text? key = none)
      (more : PairsWalked g below path rest seen s s') :
      PairsWalked g below path ((key, value) :: rest) seen s s'
  | merged {key value rest seen s s'} (htext : g.text? key = some NodeGraph.mergeKey)
      (more : PairsWalked g below path rest seen s s') :
      PairsWalked g below path ((key, value) :: rest) seen s s'
  | repeated {key value rest seen s s' name} (htext : g.text? key = some name)
      (hname : name ≠ NodeGraph.mergeKey) (hseen : name ∈ seen)
      (more : PairsWalked g below path rest seen
        (g.noteRepeated (Path.child path name) name key s) s') :
      PairsWalked g below path ((key, value) :: rest) seen s s'
  | first {key value rest seen s t s' name} (htext : g.text? key = some name)
      (hname : name ≠ NodeGraph.mergeKey) (hnew : name ∉ seen)
      (one : below value (Path.child path name)
        (g.noteChild (Path.child path name) key value s) = .ok t)
      (more : PairsWalked g below path rest (name :: seen) t s') :
      PairsWalked g below path ((key, value) :: rest) seen s s'

theorem pairsWalked {pairs : List (Nat × Nat)} {seen : List String}
    (h : g.walkPairs below path pairs seen s = .ok s') :
    PairsWalked g below path pairs seen s s' := by
  induction pairs generalizing seen s with
  | nil =>
      cases h
      exact .nil
  | cons p rest ih =>
      obtain ⟨key, value⟩ := p
      cases htext : g.text? key with
      | none =>
          simp only [NodeGraph.walkPairs, htext] at h
          exact .textless htext (ih h)
      | some name =>
          simp only [NodeGraph.walkPairs, htext, beq_iff_eq] at h
          split at h
          · next hmerge =>
              obtain ⟨_, -, hrest⟩ := bind_eq_ok.mp h
              exact .merged (hmerge ▸ htext) (ih hrest)
          · next hname =>
              split at h
              · next hseen =>
                  exact .repeated htext hname (List.contains_iff_mem.mp hseen) (ih h)
              · next hnew =>
                  obtain ⟨t, one, hrest⟩ := bind_eq_ok.mp h
                  exact .first htext hname (mt List.contains_iff_mem.mpr hnew) one (ih hrest)

theorem PairsWalked.tells {pairs : List (Nat × Nat)} {seen : List String}
    (h : PairsWalked g below path pairs seen s s') (hbelow : Tells below told) :
    s'.repeated.Perm (s.repeated ++ ((g.repeats pairs seen).map (g.report path) ++
      (g.firsts pairs seen).flatMap fun e => told e.2 (Path.child path e.1))) := by
  induction h with
  | nil => simp [NodeGraph.repeats, NodeGraph.firsts]
  | textless htext more ih =>
      simp only [NodeGraph.repeats, NodeGraph.firsts, htext]
      exact ih
  | merged htext more ih =>
      simp only [NodeGraph.repeats, NodeGraph.firsts, htext, beq_self_eq_true, Bool.true_or, if_true]
      exact ih
  | repeated htext hname hseen more ih =>
      simp only [NodeGraph.repeats, NodeGraph.firsts, htext, beq_false_of_ne hname, Bool.false_or,
        List.contains_iff_mem, hseen, Bool.false_eq_true, if_true, if_false]
      rw [repeated_noteRepeated htext] at ih
      simpa using ih
  | first htext hname hnew one more ih =>
      simp only [NodeGraph.repeats, NodeGraph.firsts, htext, beq_false_of_ne hname, Bool.false_or,
        List.contains_iff_mem, hnew, Bool.false_eq_true, if_false, List.flatMap_cons]
      have hone := hbelow _ _ _ _ one
      rw [repeated_noteChild] at hone
      refine ih.trans ((hone.append_right _).trans ?_)
      rw [List.append_assoc]
      exact (List.perm_append_comm_assoc ..).append_left _

theorem walkItem_eq_ok {item index : Nat} (hbelow : Tells below told)
    (h : g.walkItem below path item index s = .ok s') :
    s'.repeated.Perm (s.repeated ++ told item (Path.item path index)) := by
  obtain ⟨s₁, hone, h⟩ := bind_eq_ok.mp h
  have hone := hbelow _ _ _ _ hone
  rw [repeated_noteItem] at hone
  split at h
  · cases h
    exact hone
  · obtain ⟨named, -, hrest⟩ := bind_eq_ok.mp h
    cases hrest
    exact hone

theorem walkItems_eq_ok {items : List Nat} {index : Nat} (hbelow : Tells below told)
    (h : g.walkItems below path items index s = .ok s') :
    s'.repeated.Perm (s.repeated ++
      (items.zipIdx index).flatMap fun e => told e.1 (Path.item path e.2)) := by
  induction items generalizing index s with
  | nil =>
      cases h
      simp
  | cons item rest ih =>
      obtain ⟨s₁, hone, hrest⟩ := bind_eq_ok.mp h
      have hone := walkItem_eq_ok hbelow hone
      rw [List.zipIdx_cons, List.flatMap_cons, ← List.append_assoc]
      exact (ih hrest).trans (hone.append_right _)

theorem tells_walk (g : NodeGraph) (steps : Nat) (around : List Nat) :
    Tells (g.walk steps around) fun i path => (g.mappingsBelow steps i path).flatMap g.issued := by
  induction steps generalizing around with
  | zero =>
      intro i path s s' h
      cases h
      simp [NodeGraph.mappingsBelow]
  | succ steps ih =>
      intro i path s s' h
      cases hn : g.nodes[i]? with
      | none =>
          simp only [NodeGraph.walk, hn] at h
          cases h
          simp [NodeGraph.mappingsBelow, hn]
      | some n =>
          simp only [NodeGraph.walk, hn] at h
          split at h
          · cases h
          · cases hcontent : n.content with
            | scalar text style =>
                simp only [hcontent] at h
                cases h
                simp [NodeGraph.mappingsBelow, hn, hcontent]
            | sequence items =>
                simp only [hcontent] at h
                simp only [NodeGraph.mappingsBelow, hn, hcontent, List.flatMap_assoc]
                exact walkItems_eq_ok (ih _) h
            | mapping pairs =>
                simp only [hcontent] at h
                have hpairs : pairsAt g.nodes i = pairs := by
                  rw [pairsAt, hn, Option.bind_some, Node.pairs?, hcontent, Option.getD_some]
                simp only [NodeGraph.mappingsBelow, hn, hcontent, List.flatMap_cons,
                  List.flatMap_assoc, NodeGraph.issued, hpairs]
                exact (pairsWalked h).tells (ih _)

/-- What is told is told for the mappings that are indexed. -/
theorem repeated_index (h : g.index = .ok s) : s.repeated.Perm (g.mappings.flatMap g.issued) :=
  tells_walk g _ [] _ _ _ _ h

end Walk

/-! ### What the values keep -/

/-- The keys of some pairs are scalars other than the merge key and numbers, and the same just where
their texts are. -/
structure TextsTell (g : NodeGraph) (pairs : List (Nat × Nat)) : Prop where
  writes : ∀ p ∈ pairs, ∃ s, Writes g.nodes p.1 s ∧ ∀ x : Float, s = .float x → x.isNaN = false
  notMerge : ∀ p ∈ pairs, g.text? p.1 ≠ some NodeGraph.mergeKey
  same_iff : ∀ p ∈ pairs, ∀ q ∈ pairs, ∀ s s', Writes g.nodes p.1 s → Writes g.nodes q.1 s' →
    (s.same s' = true ↔ g.text? p.1 = g.text? q.1)

section Values

variable {g : NodeGraph} {made : Array (Option RawItem)} {pairs dropped : List (Nat × Nat)}

theorem isSome_text? {k : Nat} {s : Scalar} (h : Writes g.nodes k s) : (g.text? k).isSome := by
  obtain ⟨n, text, style, kind, hn, hcontent, -, -⟩ := h
  rw [NodeGraph.text?, hn, Option.bind_some, Node.text?, hcontent, Option.isSome_some]

theorem TextsTell.mergeFree (h : TextsTell g pairs) : MergeFree g.nodes pairs := by
  intro p hp
  obtain ⟨s, ⟨n, _, _, _, hn, -, hmeaning, -⟩, -⟩ := h.writes p hp
  rw [isMergeAt, hn, Option.map_some, Option.getD_some, Node.isMerge, beq_eq_false_iff_ne]
  intro htag
  have hnone : Tag.meaning? Tag.merge = none := by decide
  rw [htag, hnone] at hmeaning
  cases hmeaning

/-- What is made of scalars is what they stand for. -/
structure Spoken (nodes : Array Node) (made : Array (Option RawItem)) : Prop where
  size : made.size = nodes.size
  item : ∀ (k : Nat) (s : Scalar) (item : RawItem), Writes nodes k s →
    made[k]? = some (some item) → item = .value (.scalar s)

theorem Spoken.scalar_eq {nodes : Array Node} {k : Nat} {s : Scalar} {key : Key}
    (h : Spoken nodes made) (hw : Writes nodes k s) (hk : KeyOf made k key) : key.scalar = s := by
  rcases hk.isMade with hmade | ⟨hout, -⟩
  · have heq := h.item k s _ hw hmade
    cases heq
    rfl
  · obtain ⟨n, _, _, _, hn, -⟩ := hw
    rw [Array.getElem?_eq_none (h.size ▸ hout)] at hn
    cases hn

/-- Where texts tell keys apart, so do the keys that are made. -/
theorem TextsTell.same_iff_of_keyOf (h : TextsTell g pairs) (hspoken : Spoken g.nodes made)
    {p q : Nat × Nat} {key key' : Key} (hp : p ∈ pairs) (hq : q ∈ pairs)
    (hk : KeyOf made p.1 key) (hk' : KeyOf made q.1 key') :
    key.same key' = true ↔ g.text? p.1 = g.text? q.1 := by
  obtain ⟨s, hs, hnumber⟩ := h.writes p hp
  obtain ⟨s', hs', -⟩ := h.writes q hq
  have hscalar := hspoken.scalar_eq hs hk
  rw [Key.same, Bool.or_eq_true, hscalar, hspoken.scalar_eq hs' hk', h.same_iff p hp q hq s s' hs hs',
    beq_iff_eq, or_iff_left_iff_imp]
  intro horigin
  have hfrom : key.origin = some p.1 := by
    refine hk.origin.resolve_right ?_
    rintro ⟨-, x, hx, hnan⟩
    rw [hnumber x (hscalar.symm.trans hx)] at hnan
    cases hnan
  rcases hk'.origin with hfrom' | ⟨hnone, -⟩
  · rw [hfrom, hfrom'] at horigin
    exact congrArg g.text? (Option.some.inj horigin)
  · rw [hfrom, hnone] at horigin
    cases horigin

theorem TextsTell.exists_text {p : Nat × Nat} (h : TextsTell g pairs) (hp : p ∈ pairs) :
    ∃ name, g.text? p.1 = some name ∧ (name == NodeGraph.mergeKey) = false := by
  obtain ⟨s, hw, -⟩ := h.writes p hp
  obtain ⟨name, hname⟩ := Option.isSome_iff_exists.mp (isSome_text? hw)
  refine ⟨name, hname, beq_eq_false_iff_ne.mpr ?_⟩
  rintro rfl
  exact h.notMerge p hp hname

/-- The texts that were seen are those of the keys that are kept. -/
structure Seen (g : NodeGraph) (made : Array (Option RawItem)) (pairs : List (Nat × Nat))
    (seen : List String) (done : List (Key × RawItem)) : Prop where
  from_pair : ∀ e ∈ done, ∃ q ∈ pairs, KeyOf made q.1 e.1
  mem_iff : ∀ name, name ∈ seen ↔
    ∃ e ∈ done, ∃ q ∈ pairs, KeyOf made q.1 e.1 ∧ g.text? q.1 = some name

namespace Seen

variable {all : List (Nat × Nat)} {seen : List String} {done : List (Key × RawItem)} {p : Nat × Nat}
  {key : Key} {name : String}

theorem start : Seen g made all [] [] := ⟨nofun, fun name => by simp⟩

theorem mem_iff_again (hseen : Seen g made all seen done) (h : TextsTell g all)
    (hspoken : Spoken g.nodes made) (hp : p ∈ all) (hk : KeyOf made p.1 key)
    (hname : g.text? p.1 = some name) : name ∈ seen ↔ ∃ e ∈ done, e.1.same key = true := by
  constructor
  · intro hmem
    obtain ⟨e, he, q, hq, hke, htext⟩ := (hseen.mem_iff name).mp hmem
    exact ⟨e, he, (h.same_iff_of_keyOf hspoken hq hp hke hk).mpr (htext.trans hname.symm)⟩
  · rintro ⟨e, he, hsame⟩
    obtain ⟨q, hq, hke⟩ := hseen.from_pair e he
    have htext := (h.same_iff_of_keyOf hspoken hq hp hke hk).mp hsame
    exact (hseen.mem_iff name).mpr ⟨e, he, q, hq, hke, htext.trans hname⟩

theorem concat {item : RawItem} (hseen : Seen g made all seen done) (h : TextsTell g all)
    (hspoken : Spoken g.nodes made) (hp : p ∈ all) (hk : KeyOf made p.1 key)
    (hname : g.text? p.1 = some name) : Seen g made all (name :: seen) (done ++ [(key, item)]) := by
  constructor
  · intro e he
    rcases List.mem_append.mp he with he | he
    · exact hseen.from_pair e he
    · rw [List.mem_singleton.mp he]
      exact ⟨p, hp, hk⟩
  · intro other
    rw [List.mem_cons, hseen.mem_iff]
    constructor
    · rintro (rfl | ⟨e, he, hfrom⟩)
      · exact ⟨_, List.mem_append_right _ (List.mem_singleton_self _), p, hp, hk, hname⟩
      · exact ⟨e, List.mem_append_left _ he, hfrom⟩
    · rintro ⟨e, he, q, hq, hke, htext⟩
      rcases List.mem_append.mp he with he | he
      · exact .inr ⟨e, he, q, hq, hke, htext⟩
      · rw [List.mem_singleton.mp he] at hke
        have hself := (h.same_iff_of_keyOf hspoken hq hp hke hk).mp key.same_self
        rw [htext, hname] at hself
        exact .inl (Option.some.inj hself)

end Seen

/-- Where texts tell the keys apart, the pairs whose texts were there before are dropped, and no
others. -/
theorem TextsTell.repeats_eq {all : List (Nat × Nat)} {seen : List String}
    {done entries : List (Key × RawItem)} (h : TextsTell g all) (hspoken : Spoken g.nodes made)
    (hs : Sifted made pairs done entries dropped) (hall : ∀ p ∈ pairs, p ∈ all)
    (hseen : Seen g made all seen done) : g.repeats pairs seen = dropped := by
  induction hs generalizing seen with
  | nil => rfl
  | @drop k value rest done entries dropped key isKey again more ih =>
      have hp : (k, value) ∈ all := hall _ List.mem_cons_self
      obtain ⟨name, hname, hmerge⟩ := h.exists_text hp
      have hmem := (hseen.mem_iff_again h hspoken hp isKey hname).mpr again
      rw [NodeGraph.repeats, hname]
      simp only [hmerge, List.contains_iff_mem.mpr hmem, Bool.false_eq_true, if_false, if_true]
      rw [ih (fun q hq => hall q (List.mem_cons_of_mem _ hq)) hseen]
  | @keep k value rest done entries dropped key item isKey new isItem more ih =>
      have hp : (k, value) ∈ all := hall _ List.mem_cons_self
      obtain ⟨name, hname, hmerge⟩ := h.exists_text hp
      have hnot : name ∉ seen := by
        rw [hseen.mem_iff_again h hspoken hp isKey hname]
        rintro ⟨e, he, hsame⟩
        rw [new e he] at hsame
        cases hsame
      rw [NodeGraph.repeats, hname]
      simp only [hmerge, List.contains_iff_mem, hnot, Bool.false_eq_true, if_false]
      exact ih (fun q hq => hall q (List.mem_cons_of_mem _ hq)) (hseen.concat h hspoken hp isKey hname)

theorem Writes.unique {k : Nat} {s s' : Scalar} (h : Writes g.nodes k s) (h' : Writes g.nodes k s') :
    s = s' := by
  obtain ⟨n, text, style, kind, hn, hcontent, hmeaning, hs⟩ := h
  obtain ⟨n', text', style', kind', hn', hcontent', hmeaning', hs'⟩ := h'
  rw [hn] at hn'
  cases hn'
  rw [hcontent] at hcontent'
  cases hcontent'
  rw [hmeaning] at hmeaning'
  cases hmeaning'
  rw [hs] at hs'
  cases hs'
  rfl

/-- A key that is a string, and is not written like a merge key. -/
def NodeGraph.isTextKey (g : NodeGraph) (k : Nat) : Bool :=
  match g.nodes[k]? with
  | some n => n.tag == Tag.str && (n.text?.map fun text => text != mergeKey).getD false
  | none => false

theorem writes_of_isTextKey {k : Nat} (h : g.isTextKey k = true) :
    ∃ text, Writes g.nodes k (.str text) ∧ g.text? k = some text ∧ text ≠ NodeGraph.mergeKey := by
  unfold NodeGraph.isTextKey at h
  split at h
  · next n hn =>
      rw [Bool.and_eq_true, beq_iff_eq] at h
      obtain ⟨htag, htext⟩ := h
      unfold Node.text? at htext
      split at htext
      · next text style hcontent =>
          rw [Option.map_some, Option.getD_some, bne_iff_ne] at htext
          have hmeaning : Tag.meaning? n.tag = some (.scalar .str) := htag ▸ meaning_str
          refine ⟨text, ⟨n, text, style, .str, hn, hcontent, hmeaning, rfl⟩, ?_, htext⟩
          rw [NodeGraph.text?, hn, Option.bind_some, Node.text?, hcontent]
      · cases htext
  · cases h

/-- Texts tell strings apart. -/
theorem textsTell_of_isTextKey (h : ∀ p ∈ pairs, g.isTextKey p.1 = true) : TextsTell g pairs where
  writes p hp := by
    obtain ⟨text, hw, -⟩ := writes_of_isTextKey (h p hp)
    exact ⟨.str text, hw, nofun⟩
  notMerge p hp := by
    obtain ⟨text, -, htext, hne⟩ := writes_of_isTextKey (h p hp)
    rw [htext]
    exact fun heq => hne (Option.some.inj heq)
  same_iff p hp q hq s s' hs hs' := by
    obtain ⟨text, hw, htext, -⟩ := writes_of_isTextKey (h p hp)
    obtain ⟨text', hw', htext', -⟩ := writes_of_isTextKey (h q hq)
    rw [hs.unique hw, hs'.unique hw', htext, htext', Scalar.same_str, beq_iff_eq, Option.some.injEq]

end Values

/-! ### Both together -/

theorem NodeGraph.spoken_build {g : NodeGraph} {raw : RawGraph} {b : Builder}
    (h : g.build = .ok (raw, b)) : Spoken g.nodes b.made := by
  obtain ⟨-, -, owners, hs⟩ := settled_build h
  exact ⟨hs.sized.trans hs.flat.size, fun k s item hw hm => hw.eq_of_gives (hs.gives k item hm)⟩

theorem load_repeated_keys {cs : List Char} {g : NodeGraph} {loaded : Loaded}
    (hg : NodeGraph.ofText? cs = .ok (some g)) (hl : load cs = .ok loaded) :
    ∃ b, g.build = .ok (loaded.graph, b) ∧ loaded.repeated.Perm (g.mappings.flatMap g.issued) ∧
      ∀ (i c : Nat) (entries : List (Scalar × RawItem)), b.made[i]? = some (some (.node c)) →
        loaded.graph.nodes[c]? = some (.dict entries) → TextsTell g (pairsAt g.nodes i) →
        ∃ own dropped, entries = own.map (fun e => (e.1.scalar, e.2)) ∧
          Sifted b.made (pairsAt g.nodes i) [] own dropped ∧
          ∀ path, g.issued (i, path) = dropped.map (g.report path) := by
  obtain ⟨⟨b, hb⟩, s, hs, -, hrepeated⟩ := exists_build hg hl
  refine ⟨b, hb, hrepeated ▸ repeated_index hs, fun i c entries hi hc htell => ?_⟩
  obtain ⟨own, dropped, heq, hown⟩ :=
    (g.writtenFirst_build hb hi hc (.inl htell.mergeFree)).of_mergeFree htell.mergeFree
  refine ⟨own, dropped, heq, hown, fun path => ?_⟩
  rw [NodeGraph.issued, htell.repeats_eq (NodeGraph.spoken_build hb) hown (fun _ hp => hp) .start]

def repeatedText : String := "x: 1\ny: 2\nx: 3\n"

/-- The root is the first container, a mapping whose keys are strings. -/
def isRepeated (g : NodeGraph) (b : Builder) (raw : RawGraph) : Bool :=
  (match b.made[0]?, raw.nodes[0]? with
  | some (some (RawItem.node 0)), some (RawNode.dict _) => true
  | _, _ => false) &&
  (pairsAt g.nodes 0).all fun p => g.isTextKey p.1

def repeatedHolds (cs : List Char) : Bool :=
  match NodeGraph.ofText? cs, load cs with
  | .ok (some g), .ok loaded =>
      match g.build with
      | .ok (_, b) => isRepeated g b loaded.graph && loaded.repeated.length == 1
      | _ => false
  | _, _ => false

theorem repeatedHolds_repeatedText : repeatedHolds repeatedText.toList = true := by decide +kernel

theorem load_repeated_keys_once :
    ∃ g loaded b own dropped, NodeGraph.ofText? repeatedText.toList = .ok (some g) ∧
      load repeatedText.toList = .ok loaded ∧ g.build = .ok (loaded.graph, b) ∧
      loaded.repeated.length = 1 ∧ loaded.repeated.Perm (g.mappings.flatMap g.issued) ∧
      Sifted b.made (pairsAt g.nodes 0) [] own dropped ∧
      ∀ path, g.issued (0, path) = dropped.map (g.report path) := by
  have hholds := repeatedHolds_repeatedText
  unfold repeatedHolds at hholds
  split at hholds
  · next g loaded hg hl =>
      obtain ⟨b, hb, hrepeated, htold⟩ := load_repeated_keys hg hl
      rw [hb] at hholds
      dsimp only at hholds
      rw [Bool.and_eq_true, beq_iff_eq] at hholds
      obtain ⟨hshape, hlength⟩ := hholds
      unfold isRepeated at hshape
      split at hshape
      · next entries hmade hheld =>
          rw [Bool.true_and, List.all_eq_true] at hshape
          obtain ⟨own, dropped, -, hown, hissued⟩ :=
            htold 0 0 entries hmade hheld (textsTell_of_isTextKey hshape)
          exact ⟨g, loaded, b, own, dropped, hg, hl, hb, hlength, hrepeated, hown, hissued⟩
      · cases hshape
  · cases hholds

end AppSpec.Yaml
