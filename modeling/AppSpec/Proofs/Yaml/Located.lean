import AppSpec.Proofs.Named
import AppSpec.Proofs.Yaml.RecursiveAlias
import AppSpec.Proofs.Yaml.RepeatedKeys

/-!
The nodes that are located, with their paths. From the root these are, below each of them, the first
value under each key and the items of a sequence, by their indexes and by the names that they give
themselves.
-/

namespace AppSpec.Yaml

/-- All places that are noted in the one index are noted in the other. -/
structure Index.Within (s s' : Index) : Prop where
  has : ∀ path, s.positions.has path = true → s'.positions.has path = true

namespace Index.Within

variable {s s' s'' : Index}

theorem refl (s : Index) : s.Within s := ⟨fun _ h => h⟩

theorem trans (h : s.Within s') (h' : s'.Within s'') : s.Within s'' :=
  ⟨fun path hpath => h'.has path (h.has path hpath)⟩

theorem note (s : Index) (path : String) (p : Position) : s.Within (s.note path p) := by
  unfold Index.note
  split
  · exact .refl s
  · exact ⟨fun other hother => by rw [Named.has_append, hother, Bool.true_or]⟩

end Index.Within

open Index (Within)

/-- Of the keys with one text the first counts. -/
theorem mem_firsts {g : NodeGraph} {before after : List (Nat × Nat)} {seen : List String}
    {k value : Nat} {name : String} (hkey : g.text? k = some name)
    (hname : name ≠ NodeGraph.mergeKey) (hseen : name ∉ seen)
    (hnew : ∀ p ∈ before, g.text? p.1 ≠ some name) :
    (name, value) ∈ g.firsts (before ++ (k, value) :: after) seen := by
  induction before generalizing seen with
  | nil => simp [NodeGraph.firsts, hkey, hname, hseen]
  | cons p before ih =>
      obtain ⟨hp, hrest⟩ := List.forall_mem_cons.mp hnew
      rw [List.cons_append, NodeGraph.firsts]
      split
      · exact ih hseen hrest
      · next other hother =>
          have hne : other ≠ name := fun heq => hp (heq ▸ hother)
          split
          · exact ih hseen hrest
          · exact List.mem_cons_of_mem _
              (ih (List.not_mem_cons_of_ne_of_not_mem hne.symm hseen) hrest)

theorem has_note (s : Index) (path : String) (p : Position) :
    (s.note path p).positions.has path = true := by
  unfold Index.note
  split
  · next h => exact h
  · simp

section Walk

variable {g : NodeGraph} {path : String} {s s' : Index}
  {below : Nat → String → Index → Except RecursiveAlias Index}

theorem within_noteChild (path : String) (key value : Nat) (s : Index) :
    s.Within (g.noteChild path key value s) := by
  unfold NodeGraph.noteChild
  split
  · exact .note ..
  · exact .refl s

theorem within_noteItem (path : String) (item : Nat) (s : Index) :
    s.Within (g.noteItem path item s) := by
  unfold NodeGraph.noteItem
  split
  · exact .note ..
  · exact .refl s

theorem within_noteRepeated (path key : String) (i : Nat) (s : Index) :
    s.Within (g.noteRepeated path key i s) := by
  unfold NodeGraph.noteRepeated
  split
  · exact ⟨fun _ h => h⟩
  · exact .refl s

theorem has_noteItem {item : Nat} {name : String} (h : g.itemName? item = some name) :
    (g.noteItem path item s).positions.has path = true := by
  obtain ⟨pairs, hpairs, -⟩ := Option.bind_eq_some_iff.mp h
  obtain ⟨n, hn, -⟩ := Option.bind_eq_some_iff.mp hpairs
  rw [NodeGraph.noteItem, hn]
  exact has_note ..

/-- Walks that forget no place. -/
def Keeps (below : Nat → String → Index → Except RecursiveAlias Index) : Prop :=
  ∀ i path s s', below i path s = .ok s' → s.Within s'

/-- A walk at one node, on the way from one index to another. -/
def Visits (below : Nat → String → Index → Except RecursiveAlias Index) (s' : Index) (i : Nat)
    (path : String) : Prop :=
  ∃ t t', below i path t = .ok t' ∧ t'.Within s'

theorem Visits.mono {i : Nat} {s'' : Index} (h : Visits below s' i path) (hs : s'.Within s'') :
    Visits below s'' i path := by
  obtain ⟨t, t', hwalk, hwithin⟩ := h
  exact ⟨t, t', hwalk, hwithin.trans hs⟩

theorem PairsWalked.visits {pairs : List (Nat × Nat)} {seen : List String}
    (h : PairsWalked g below path pairs seen s s') (hbelow : Keeps below) :
    s.Within s' ∧ ∀ e ∈ g.firsts pairs seen, Visits below s' e.2 (Path.child path e.1) := by
  induction h with
  | nil => exact ⟨.refl _, nofun⟩
  | textless htext more ih =>
      simp only [NodeGraph.firsts, htext]
      exact ih
  | merged htext more ih =>
      simp only [NodeGraph.firsts, htext, beq_self_eq_true, Bool.true_or, if_true]
      exact ih
  | repeated htext hname hseen more ih =>
      simp only [NodeGraph.firsts, htext, beq_false_of_ne hname, Bool.false_or,
        List.contains_iff_mem, hseen, if_true]
      exact ⟨(within_noteRepeated ..).trans ih.1, ih.2⟩
  | first htext hname hnew one more ih =>
      simp only [NodeGraph.firsts, htext, beq_false_of_ne hname, Bool.false_or,
        List.contains_iff_mem, hnew, if_false]
      have hkept := (within_noteChild ..).trans (hbelow _ _ _ _ one)
      exact ⟨hkept.trans ih.1, List.forall_mem_cons.mpr ⟨⟨_, _, one, ih.1⟩, ih.2⟩⟩

/-- An item is walked under its index, and under its name, which is noted. -/
theorem walkItem_visits {item index : Nat} (hbelow : Keeps below)
    (h : g.walkItem below path item index s = .ok s') :
    s.Within s' ∧ Visits below s' item (Path.item path index) ∧
      ∀ name, g.itemName? item = some name → s'.positions.has (Path.child path name) = true ∧
        Visits below s' item (Path.child path name) := by
  obtain ⟨t, hone, h⟩ := bind_eq_ok.mp h
  have hkept := (within_noteItem ..).trans (hbelow _ _ _ _ hone)
  split at h
  · next hnone =>
      cases h
      exact ⟨hkept, ⟨_, _, hone, .refl _⟩, fun name hname => nomatch hnone.symm.trans hname⟩
  · next name hname =>
      obtain ⟨named, hnamed, h⟩ := bind_eq_ok.mp h
      cases h
      have hlast : named.Within ⟨named.positions, t.repeated⟩ := ⟨fun _ h => h⟩
      have hwithin := (hbelow _ _ _ _ hnamed).trans hlast
      have hmore := (within_noteItem ..).trans hwithin
      refine ⟨hkept.trans hmore, ⟨_, t, hone, hmore⟩, fun name' hname' => ?_⟩
      rw [hname] at hname'
      cases hname'
      exact ⟨hwithin.has _ (has_noteItem hname), _, named, hnamed, hlast⟩

theorem walkItems_visits {items : List Nat} {start : Nat} (hbelow : Keeps below)
    (h : g.walkItems below path items start s = .ok s') :
    s.Within s' ∧ ∀ (n item : Nat), items[n]? = some item →
      Visits below s' item (Path.item path (start + n)) ∧
        ∀ name, g.itemName? item = some name → s'.positions.has (Path.child path name) = true ∧
          Visits below s' item (Path.child path name) := by
  induction items generalizing start s with
  | nil =>
      cases h
      exact ⟨.refl _, nofun⟩
  | cons first rest ih =>
      obtain ⟨t, hone, hrest⟩ := bind_eq_ok.mp h
      obtain ⟨hkept, hindex, hnames⟩ := walkItem_visits hbelow hone
      obtain ⟨hwithin, hall⟩ := ih hrest
      refine ⟨hkept.trans hwithin, fun n item hitem => ?_⟩
      cases n with
      | zero =>
          cases hitem
          refine ⟨hindex.mono hwithin, fun name hname => ?_⟩
          obtain ⟨hnoted, hvisits⟩ := hnames name hname
          exact ⟨hwithin.has _ hnoted, hvisits.mono hwithin⟩
      | succ n =>
          rw [Nat.add_comm n 1, ← Nat.add_assoc]
          exact hall n item hitem

theorem keeps_walk (g : NodeGraph) (steps : Nat) (around : List Nat) :
    Keeps (g.walk steps around) := by
  induction steps generalizing around with
  | zero =>
      intro i path s s' h
      cases h
      exact .refl _
  | succ steps ih =>
      intro i path s s' h
      simp only [NodeGraph.walk] at h
      split at h
      · cases h
        exact .refl _
      · split at h
        · cases h
        · split at h
          · cases h
            exact .refl _
          · exact (walkItems_visits (ih _) h).1
          · exact ((pairsWalked h).visits (ih _)).1

/-- A walk at a node goes on below it, inside of it. -/
theorem walk_inside {steps i : Nat} {around : List Nat} {n : Node} (hn : g.nodes[i]? = some n)
    (h : g.walk (steps + 1) around i path s = .ok s') :
    g.room (i :: around) < g.room around ∧ (match n.content with
      | .scalar _ _ => Except.ok s
      | .sequence items => g.walkItems (g.walk steps (i :: around)) path items 0 s
      | .mapping pairs => g.walkPairs (g.walk steps (i :: around)) path pairs [] s) = .ok s' := by
  simp only [NodeGraph.walk, hn] at h
  split at h
  · cases h
  · next hnew =>
      rw [List.contains_iff_mem] at hnew
      exact ⟨NodeGraph.room_cons_lt (Array.getElem?_eq_some_iff.mp hn).1 hnew, h⟩

theorem walk_sequence {steps i j : Nat} {around : List Nat} (hj : j ∈ itemsAt g.nodes i)
    (h : g.walk (steps + 1) around i path s = .ok s') :
    g.room (i :: around) < g.room around ∧
      g.walkItems (g.walk steps (i :: around)) path (itemsAt g.nodes i) 0 s = .ok s' := by
  obtain ⟨n, hn, hcontent⟩ := content_of_mem_itemsAt hj
  have hwalk := walk_inside hn h
  rwa [hcontent] at hwalk

theorem walk_mapping {steps i : Nat} {p : Nat × Nat} {around : List Nat}
    (hp : p ∈ pairsAt g.nodes i) (h : g.walk (steps + 1) around i path s = .ok s') :
    g.room (i :: around) < g.room around ∧
      g.walkPairs (g.walk steps (i :: around)) path (pairsAt g.nodes i) [] s = .ok s' := by
  obtain ⟨n, hn, hcontent⟩ := content_of_mem_pairsAt hp
  have hwalk := walk_inside hn h
  rwa [hcontent] at hwalk

end Walk

/-! ### Located nodes -/

/-- On the way to the index a walk comes to the node under the path, with a step left for each node
that it is not inside. -/
def NodeGraph.Located (g : NodeGraph) (s : Index) (i : Nat) (path : String) : Prop :=
  ∃ steps around, g.room around < steps ∧ Visits (g.walk steps around) s i path

theorem located_root {g : NodeGraph} {s : Index} (h : g.index = .ok s) : g.Located s g.root "" := by
  refine ⟨g.nodes.size + 2, [], ?_, _, s, h, .refl s⟩
  rw [NodeGraph.room_nil]
  omega

namespace NodeGraph.Located

variable {g : NodeGraph} {s : Index} {i j n : Nat} {path name : String}

theorem value (h : g.Located s i path) (hj : (name, j) ∈ g.firsts (pairsAt g.nodes i) []) :
    g.Located s j (Path.child path name) := by
  obtain ⟨_ | steps, around, hroom, t, t', hwalk, hwithin⟩ := h
  · cases hroom
  have hne : pairsAt g.nodes i ≠ [] := fun hnil => by
    rw [hnil] at hj
    cases hj
  obtain ⟨p, hp⟩ := List.exists_mem_of_ne_nil _ hne
  obtain ⟨hless, hwalk⟩ := walk_mapping hp hwalk
  have hvisits := ((pairsWalked hwalk).visits (keeps_walk g _ _)).2 _ hj
  exact ⟨steps, i :: around, by omega, hvisits.mono hwithin⟩

theorem item (h : g.Located s i path) (hj : (itemsAt g.nodes i)[n]? = some j) :
    g.Located s j (Path.item path n) ∧ ∀ name, g.itemName? j = some name →
      s.positions.has (Path.child path name) = true ∧ g.Located s j (Path.child path name) := by
  obtain ⟨_ | steps, around, hroom, t, t', hwalk, hwithin⟩ := h
  · cases hroom
  obtain ⟨hless, hwalk⟩ := walk_sequence (List.mem_of_getElem? hj) hwalk
  obtain ⟨hindex, hnames⟩ := (walkItems_visits (keeps_walk g _ _) hwalk).2 n j hj
  rw [Nat.zero_add] at hindex
  refine ⟨⟨steps, i :: around, by omega, hindex.mono hwithin⟩, fun name hname => ?_⟩
  obtain ⟨hnoted, hvisits⟩ := hnames name hname
  exact ⟨hwithin.has _ hnoted, steps, i :: around, by omega, hvisits.mono hwithin⟩

end NodeGraph.Located

end AppSpec.Yaml
