import AppSpec.Proofs.Yaml.Settling
import AppSpec.Yaml.Load

/-!
What a mapping writes comes before what it merges. This rests on the mapping being filled before
those that merge it: filling one of those first leaves it flattened, and then its own pairs can no
longer be told from the merged ones in front of them.
-/

namespace AppSpec.Yaml

open Builder

variable {cs : List Char} {g : NodeGraph} {loaded : Loaded}

/-- A text that is loaded is composed to nodes, and what these make is its value. -/
theorem exists_build (hg : NodeGraph.ofText? cs = .ok (some g)) (hl : load cs = .ok loaded) :
    (∃ b, g.build = .ok (loaded.graph, b)) ∧
      ∃ s, g.index = .ok s ∧ s.positions = loaded.positions ∧ s.repeated = loaded.repeated := by
  unfold load at hl
  rw [hg] at hl
  change loadGraph g = .ok loaded at hl
  unfold loadGraph at hl
  split at hl
  · cases hl
  · next s hs =>
      obtain ⟨raw, hraw, hl⟩ := bind_eq_ok.mp hl
      cases hl
      rw [NodeGraph.value_eq, map_eq_ok] at hraw
      obtain ⟨⟨_, b⟩, hb, rfl⟩ := hraw
      exact ⟨⟨b, hb⟩, s, hs, rfl, rfl⟩

theorem load_written_first (hg : NodeGraph.ofText? cs = .ok (some g)) (hl : load cs = .ok loaded) :
    ∃ b, g.build = .ok (loaded.graph, b) ∧ ∀ (i c : Nat) (entries : List (Scalar × RawItem)),
      b.made[i]? = some (some (.node c)) → loaded.graph.nodes[c]? = some (.dict entries) →
      FilledFirst g.nodes b.made i c → WrittenFirst g.nodes b.made i entries := by
  obtain ⟨⟨b, hb⟩, -⟩ := exists_build hg hl
  exact ⟨b, hb, fun i c entries hi hc hfirst => g.writtenFirst_build hb hi hc hfirst⟩

/-- A mapping writes a key that it merges as well, and one below it merges that mapping. -/
def chainText : String := "a: &m\n  <<: \x7bx: 1\x7d\n  x: 2\nb:\n  <<: *m\n"

/-- The mapping at the second node is the first container but one, and only the one at the tenth
node, which is the next container, merges it. -/
def isChain (g : NodeGraph) (b : Builder) (raw : RawGraph) : Bool :=
  (match b.made[2]?, b.made[10]?, raw.nodes[1]? with
  | some (some (RawItem.node 1)), some (some (RawItem.node 2)), some (RawNode.dict _) => true
  | _, _, _ => false) &&
  decide (Merges g.nodes 10 2) && g.nodes.size == 12 &&
  (List.range 12).all fun j =>
    !decide (Merges g.nodes j 10) && (!decide (Merges g.nodes j 2) || j == 10)

def chainHolds (cs : List Char) : Bool :=
  match NodeGraph.ofText? cs, load cs with
  | .ok (some g), .ok loaded =>
      match g.build with
      | .ok (_, b) => isChain g b loaded.graph
      | _ => false
  | _, _ => false

theorem chainHolds_chainText : chainHolds chainText.toList = true := by decide +kernel

/-- Only mappings that there are merge others. -/
theorem Merges.lt_size {nodes : Array Node} {i j : Nat} (h : Merges nodes i j) : i < nodes.size := by
  obtain ⟨p, hp, -⟩ := h
  by_contra hout
  rw [pairsAt, Array.getElem?_eq_none (Nat.not_lt.mp hout)] at hp
  cases hp

theorem filledFirst_of_isChain {b : Builder} {raw : RawGraph} (h : isChain g b raw = true) :
    b.made[2]? = some (some (.node 1)) ∧ (∃ entries, raw.nodes[1]? = some (.dict entries)) ∧
      Merges g.nodes 10 2 ∧ FilledFirst g.nodes b.made 2 1 := by
  unfold isChain at h
  split at h
  · next entries hmiddle hlast hheld =>
      simp only [Bool.true_and, Bool.and_eq_true, decide_eq_true_eq, List.all_eq_true,
        List.mem_range, Bool.not_eq_true', decide_eq_false_iff_not, Bool.or_eq_true, beq_iff_eq] at h
      obtain ⟨⟨hmerges, hsize⟩, hall⟩ := h
      refine ⟨hmiddle, ⟨entries, hheld⟩, hmerges, .inr fun j c' hreach hj => ?_⟩
      obtain ⟨m, hjm, hm⟩ := Relation.TransGen.tail'_iff.mp hreach
      obtain rfl : m = 10 := (hall m (hsize ▸ hm.lt_size)).2.resolve_left fun hnot => hnot hm
      rcases Relation.ReflTransGen.cases_tail hjm with heq | ⟨m', -, hm'⟩
      · rw [← heq, hlast] at hj
        cases hj
        decide
      · exact absurd hm' (hall m' (hsize ▸ hm'.lt_size)).1
  · cases h

theorem load_written_first_chain :
    ∃ g loaded b entries, NodeGraph.ofText? chainText.toList = .ok (some g) ∧
      load chainText.toList = .ok loaded ∧ g.build = .ok (loaded.graph, b) ∧
      loaded.graph.nodes[1]? = some (.dict entries) ∧ Merges g.nodes 10 2 ∧
      WrittenFirst g.nodes b.made 2 entries := by
  have hchain := chainHolds_chainText
  unfold chainHolds at hchain
  split at hchain
  · next g loaded hg hl =>
      obtain ⟨b, hb, hfirst⟩ := load_written_first hg hl
      rw [hb] at hchain
      obtain ⟨hmade, ⟨entries, hheld⟩, hmerges, hfilled⟩ := filledFirst_of_isChain hchain
      exact ⟨g, loaded, b, entries, hg, hl, hb, hheld, hmerges, hfirst 2 1 entries hmade hheld hfilled⟩
  · cases hchain

end AppSpec.Yaml
