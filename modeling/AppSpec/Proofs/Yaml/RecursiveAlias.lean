import AppSpec.Proofs.Outcome
import AppSpec.Yaml.Positions
import Mathlib

/-!
Aliases that lead back: the walk that finds where the parts of a document stand ends on every graph
of nodes, and stops just where it comes to a node that can reach itself. The nodes around the walk
may be kept in one set that is changed on the way, since each node is taken out of it again.
-/

namespace AppSpec.Yaml

namespace NodeGraph

open Relation (ReflTransGen TransGen)

/-- The nodes that are walked below one: the items of a sequence, and of the values of a mapping
those to be merged and those of the first key with each text. -/
inductive WalkedIn (g : NodeGraph) : Content → Nat → Prop
  | item {items : List Nat} {j : Nat} (hitem : j ∈ items) : WalkedIn g (.sequence items) j
  | merged {pairs : List (Nat × Nat)} {key j : Nat} (hpair : (key, j) ∈ pairs)
      (hkey : g.text? key = some mergeKey) : WalkedIn g (.mapping pairs) j
  | first {before after : List (Nat × Nat)} {key j : Nat} {name : String}
      (hkey : g.text? key = some name) (hname : name ≠ mergeKey)
      (hnew : ∀ p ∈ before, g.text? p.1 ≠ some name) :
      WalkedIn g (.mapping (before ++ (key, j) :: after)) j

def Leads (g : NodeGraph) (i j : Nat) : Prop :=
  ∃ n, g.nodes[i]? = some n ∧ g.WalkedIn n.content j

/-- A node that can reach itself is reached from this one. -/
def LeadsBack (g : NodeGraph) (i : Nat) : Prop :=
  ∃ j, ReflTransGen g.Leads i j ∧ TransGen g.Leads j j

variable {g : NodeGraph}

theorem leads_iff {i j : Nat} {n : Node} (hn : g.nodes[i]? = some n) :
    g.Leads i j ↔ g.WalkedIn n.content j := by
  simp [Leads, hn]

/-! ### The values of a mapping that are walked -/

/-- A value stands under the first key with its text, which is none of those seen before. -/
def IsFirst (g : NodeGraph) (seen : List String) (pairs : List (Nat × Nat)) (j : Nat) : Prop :=
  ∃ before key after name, pairs = before ++ (key, j) :: after ∧ g.text? key = some name ∧
    name ≠ mergeKey ∧ name ∉ seen ∧ ∀ p ∈ before, g.text? p.1 ≠ some name

def walkedValues (g : NodeGraph) : List (Nat × Nat) → List String → List Nat
  | [], _ => []
  | (key, value) :: rest, seen =>
      match g.text? key with
      | none => walkedValues g rest seen
      | some name =>
          if name == mergeKey then value :: walkedValues g rest seen
          else if seen.contains name then walkedValues g rest seen
          else value :: walkedValues g rest (name :: seen)

theorem isFirst_cons {seen : List String} {p : Nat × Nat} {rest : List (Nat × Nat)} {j : Nat} :
    g.IsFirst seen (p :: rest) j ↔
      (∃ name, g.text? p.1 = some name ∧ name ≠ mergeKey ∧ name ∉ seen ∧ j = p.2) ∨
        g.IsFirst ((g.text? p.1).toList ++ seen) rest j := by
  constructor
  · rintro ⟨before, key, after, name, hpairs, hkey, hname, hseen, hnew⟩
    cases before with
    | nil =>
        cases hpairs
        exact .inl ⟨name, hkey, hname, hseen, rfl⟩
    | cons q before =>
        cases hpairs
        refine .inr ⟨before, key, after, name, rfl, hkey, hname, ?_, fun q hq =>
          hnew q (List.mem_cons_of_mem _ hq)⟩
        have hfirst := hnew p List.mem_cons_self
        simpa [hseen] using hfirst
  · rintro (⟨name, hkey, hname, hseen, rfl⟩ |
      ⟨before, key, after, name, rfl, hkey, hname, hseen, hnew⟩)
    · exact ⟨[], p.1, rest, name, rfl, hkey, hname, hseen, nofun⟩
    · simp only [List.mem_append, Option.mem_toList, not_or] at hseen
      exact ⟨p :: before, key, after, name, rfl, hkey, hname, hseen.2,
        List.forall_mem_cons.mpr ⟨hseen.1, hnew⟩⟩

theorem IsFirst.congr {seen seen' : List String} {pairs : List (Nat × Nat)} {j : Nat}
    (h : ∀ name, name ≠ mergeKey → (name ∈ seen ↔ name ∈ seen')) :
    g.IsFirst seen pairs j ↔ g.IsFirst seen' pairs j := by
  constructor
  · rintro ⟨before, key, after, name, hpairs, hkey, hname, hseen, hnew⟩
    exact ⟨before, key, after, name, hpairs, hkey, hname, mt (h name hname).mpr hseen, hnew⟩
  · rintro ⟨before, key, after, name, hpairs, hkey, hname, hseen, hnew⟩
    exact ⟨before, key, after, name, hpairs, hkey, hname, mt (h name hname).mp hseen, hnew⟩

theorem mem_walkedValues {pairs : List (Nat × Nat)} {seen : List String} {j : Nat} :
    j ∈ g.walkedValues pairs seen ↔
      (∃ key, (key, j) ∈ pairs ∧ g.text? key = some mergeKey) ∨ g.IsFirst seen pairs j := by
  induction pairs generalizing seen with
  | nil => simp [walkedValues, IsFirst]
  | cons p rest ih =>
      obtain ⟨key, value⟩ := p
      rw [isFirst_cons]
      simp only [walkedValues, List.mem_cons, Prod.mk.injEq]
      cases hkey : g.text? key with
      | none =>
          have hmerged (k : Nat) : ¬ ((k = key ∧ j = value) ∧ g.text? k = some mergeKey) := by
            rintro ⟨⟨rfl, -⟩, htext⟩
            cases hkey.symm.trans htext
          simp [ih, or_and_right, hmerged]
      | some name =>
          by_cases hmerge : name = mergeKey
          · subst hmerge
            have hsame : g.IsFirst (mergeKey :: seen) rest j ↔ g.IsFirst seen rest j :=
              IsFirst.congr fun name hname => by simp [hname]
            simp [ih, or_and_right, exists_or, hkey, hsame, or_assoc]
          · have hmerged (k : Nat) : ¬ ((k = key ∧ j = value) ∧ g.text? k = some mergeKey) := by
              rintro ⟨⟨rfl, -⟩, htext⟩
              exact hmerge (Option.some.inj (hkey.symm.trans htext))
            by_cases hseen : name ∈ seen
            · have hsame : g.IsFirst (name :: seen) rest j ↔ g.IsFirst seen rest j :=
                IsFirst.congr fun other _ => by
                  simp only [List.mem_cons, or_iff_right_iff_imp]
                  rintro rfl
                  exact hseen
              simp [ih, or_and_right, hmerged, hmerge, hseen, hsame]
            · simp [ih, or_and_right, hmerged, hmerge, hseen, or_left_comm]

theorem walkedIn_mapping {pairs : List (Nat × Nat)} {j : Nat} :
    g.WalkedIn (.mapping pairs) j ↔ j ∈ g.walkedValues pairs [] := by
  rw [mem_walkedValues]
  constructor
  · intro h
    cases h with
    | merged hpair hkey => exact .inl ⟨_, hpair, hkey⟩
    | first hkey hname hnew =>
        exact .inr ⟨_, _, _, _, rfl, hkey, hname, List.not_mem_nil, hnew⟩
  · rintro (⟨key, hpair, hkey⟩ | ⟨before, key, after, name, rfl, hkey, hname, -, hnew⟩)
    · exact .merged hpair hkey
    · exact .first hkey hname hnew

theorem walkedIn_sequence {items : List Nat} {j : Nat} :
    g.WalkedIn (.sequence items) j ↔ j ∈ items := by
  constructor
  · rintro ⟨hitem⟩
    exact hitem
  · exact .item

/-! ### Where the walk stops -/

/-- Below a node the walk stops at an alias just where this holds of the node. -/
def StopsWhere (below : Nat → String → Index → Except RecursiveAlias Index) (stops : Nat → Prop) :
    Prop :=
  ∀ i path s, (∃ r, below i path s = .error r) ↔ stops i

section Stops

variable {below : Nat → String → Index → Except RecursiveAlias Index} {stops : Nat → Prop}
  {path : String} {s : Index}

theorem exists_error_bind {α β : Type} {x : Except RecursiveAlias α} {f : α → Except RecursiveAlias β}
    {P : Prop} (hf : ∀ a, (∃ r, f a = .error r) ↔ P) :
    (∃ r, (x >>= f) = .error r) ↔ (∃ r, x = .error r) ∨ P := by
  cases x with
  | error r => exact ⟨fun _ => .inl ⟨r, rfl⟩, fun _ => ⟨r, rfl⟩⟩
  | ok a =>
      have hgoes : ¬ ∃ r, (Except.ok a : Except RecursiveAlias α) = .error r := nofun
      rw [or_iff_right hgoes]
      exact hf a

theorem stops_walkPairs (h : StopsWhere below stops) (pairs : List (Nat × Nat))
    (seen : List String) :
    (∃ r, g.walkPairs below path pairs seen s = .error r) ↔
      ∃ v ∈ g.walkedValues pairs seen, stops v := by
  induction pairs generalizing seen s with
  | nil => exact ⟨nofun, nofun⟩
  | cons p rest ih =>
      obtain ⟨key, value⟩ := p
      simp only [walkPairs, walkedValues]
      cases g.text? key with
      | none => exact ih seen
      | some name =>
          dsimp only
          by_cases hmerge : name == mergeKey
          · rw [if_pos hmerge, if_pos hmerge, exists_error_bind fun _ => ih seen, h,
              List.exists_mem_cons_iff]
          · rw [if_neg hmerge, if_neg hmerge]
            by_cases hseen : seen.contains name
            · rw [if_pos hseen, if_pos hseen]
              exact ih seen
            · rw [if_neg hseen, if_neg hseen, exists_error_bind fun _ => ih _, h,
                List.exists_mem_cons_iff]

theorem stops_walkItem (h : StopsWhere below stops) (item index : Nat) :
    (∃ r, g.walkItem below path item index s = .error r) ↔ stops item := by
  have hends {α : Type} (a : α) : (∃ r, (pure a : Except RecursiveAlias α) = .error r) ↔ False :=
    ⟨nofun, nofun⟩
  cases hname : g.itemName? item with
  | none =>
      simp only [walkItem, hname]
      rw [exists_error_bind fun _ => hends _, h, or_false]
  | some name =>
      simp only [walkItem, hname]
      have hagain (s s' : Index) (child : String) : (∃ r, (do
          let named ← below item child s'
          return { named with repeated := s.repeated } : Except RecursiveAlias Index) = .error r) ↔
            stops item := by
        rw [exists_error_bind fun _ => hends _, h, or_false]
      rw [exists_error_bind fun _ => hagain _ _ _, h, or_self]

theorem stops_walkItems (h : StopsWhere below stops) (items : List Nat) (index : Nat) :
    (∃ r, g.walkItems below path items index s = .error r) ↔ ∃ v ∈ items, stops v := by
  induction items generalizing index s with
  | nil => exact ⟨nofun, nofun⟩
  | cons item rest ih =>
      rw [walkItems, exists_error_bind fun _ => ih _, stops_walkItem h, List.exists_mem_cons_iff]

end Stops

/-- A node around this one, or one that can reach itself, is reached from it. -/
def Returns (g : NodeGraph) (around : List Nat) (i : Nat) : Prop :=
  ∃ j, ReflTransGen g.Leads i j ∧ (j < g.nodes.size ∧ j ∈ around ∨ TransGen g.Leads j j)

theorem lt_size_of_leads {i j : Nat} (h : g.Leads i j) : i < g.nodes.size := by
  obtain ⟨n, hn, -⟩ := h
  exact (Array.getElem?_eq_some_iff.mp hn).1

theorem returns_nil {i : Nat} : g.Returns [] i ↔ g.LeadsBack i := by
  simp [Returns, LeadsBack]

theorem not_returns_of_size_le {around : List Nat} {i : Nat} (h : g.nodes.size ≤ i) :
    ¬ g.Returns around i := by
  have hleaf (j : Nat) : ¬ g.Leads i j := fun hstep => absurd (lt_size_of_leads hstep) (by omega)
  rintro ⟨j, hreach, hback⟩
  rcases hreach.cases_head with rfl | ⟨k, hstep, -⟩
  · rcases hback with ⟨hlt, -⟩ | hloop
    · omega
    · obtain ⟨k, hstep, -⟩ := TransGen.head'_iff.mp hloop
      exact hleaf k hstep
  · exact hleaf k hstep

/-- A walk comes back into a node around it at once, or below a node that it walks on to. -/
theorem returns_iff {around : List Nat} {i : Nat} (hi : i < g.nodes.size) (hnew : i ∉ around) :
    g.Returns around i ↔ ∃ v, g.Leads i v ∧ g.Returns (i :: around) v := by
  constructor
  · rintro ⟨j, hreach, hback⟩
    rcases hreach.cases_head with rfl | ⟨v, hstep, hreach⟩
    · obtain ⟨v, hstep, hreach⟩ := TransGen.head'_iff.mp (hback.resolve_left fun h => hnew h.2)
      exact ⟨v, hstep, i, hreach, .inl ⟨hi, List.mem_cons_self⟩⟩
    · exact ⟨v, hstep, j, hreach, hback.imp_left fun h => ⟨h.1, List.mem_cons_of_mem _ h.2⟩⟩
  · rintro ⟨v, hstep, j, hreach, ⟨hj, hmem⟩ | hloop⟩
    · rcases List.mem_cons.mp hmem with rfl | hmem
      · exact ⟨j, .refl, .inr (TransGen.head' hstep hreach)⟩
      · exact ⟨j, .head hstep hreach, .inl ⟨hj, hmem⟩⟩
    · exact ⟨j, .head hstep hreach, .inr hloop⟩

/-! ### Enough steps -/

/-- How many nodes there are that the walk is not inside. -/
def room (g : NodeGraph) (around : List Nat) : Nat :=
  (Finset.range g.nodes.size \ around.toFinset).card

theorem room_nil : g.room [] = g.nodes.size := by simp [room]

theorem room_le (around : List Nat) : g.room around ≤ g.nodes.size := by
  rw [← Finset.card_range g.nodes.size]
  exact Finset.card_le_card Finset.sdiff_subset

theorem room_cons_lt {around : List Nat} {i : Nat} (hi : i < g.nodes.size) (hnew : i ∉ around) :
    g.room (i :: around) < g.room around := by
  refine Finset.card_lt_card (Finset.ssubset_iff_of_subset ?_ |>.mpr ⟨i, ?_, ?_⟩)
  · rw [List.toFinset_cons]
    exact Finset.sdiff_subset_sdiff subset_rfl (Finset.subset_insert i _)
  · simp [hi, hnew]
  · simp

theorem stopsWhere_walk {steps : Nat} {around : List Nat} (hsteps : g.room around < steps) :
    StopsWhere (g.walk steps around) (g.Returns around) := by
  induction steps generalizing around with
  | zero => cases hsteps
  | succ steps ih =>
      intro i path s
      rw [walk]
      cases hn : g.nodes[i]? with
      | none =>
          have hi : g.nodes.size ≤ i := Array.getElem?_eq_none_iff.mp hn
          exact ⟨nofun, fun h => absurd h (not_returns_of_size_le hi)⟩
      | some n =>
          have hi : i < g.nodes.size := (Array.getElem?_eq_some_iff.mp hn).1
          dsimp only
          by_cases hin : i ∈ around
          · rw [if_pos (List.contains_iff_mem.mpr hin)]
            exact ⟨fun _ => ⟨i, .refl, .inl ⟨hi, hin⟩⟩, fun _ => ⟨_, rfl⟩⟩
          · rw [if_neg (mt List.contains_iff_mem.mp hin), returns_iff hi hin]
            have hroom := room_cons_lt hi hin
            have hbelow : StopsWhere (g.walk steps (i :: around)) (g.Returns (i :: around)) :=
              ih (by omega)
            simp only [leads_iff hn]
            cases hcontent : n.content with
            | scalar text style =>
                exact ⟨nofun, fun ⟨v, hv, _⟩ => nomatch hv⟩
            | sequence items =>
                simp only [walkedIn_sequence]
                exact stops_walkItems hbelow items 0
            | mapping pairs =>
                simp only [walkedIn_mapping]
                exact stops_walkPairs hbelow pairs []

theorem index_stops (g : NodeGraph) : (∃ r, g.index = .error r) ↔ g.LeadsBack g.root := by
  have hroom : g.room [] < g.nodes.size + 2 := by
    rw [room_nil]
    omega
  exact (stopsWhere_walk hroom ..).trans returns_nil

/-- Once there is a step for each node that the walk is not inside, more do not change it. -/
theorem walk_enough {steps : Nat} {around : List Nat} (hsteps : g.room around < steps) :
    g.walk (steps + 1) around = g.walk steps around := by
  induction steps generalizing around with
  | zero => cases hsteps
  | succ steps ih =>
      funext i path s
      rw [walk, walk]
      cases hn : g.nodes[i]? with
      | none => rfl
      | some n =>
          have hi : i < g.nodes.size := (Array.getElem?_eq_some_iff.mp hn).1
          dsimp only
          by_cases hin : i ∈ around
          · rw [if_pos (List.contains_iff_mem.mpr hin), if_pos (List.contains_iff_mem.mpr hin)]
          · have hroom := room_cons_lt hi hin
            rw [ih (by omega)]

theorem walk_of_le {steps more : Nat} {around : List Nat} (hsteps : g.room around < steps)
    (hle : steps ≤ more) : g.walk more around = g.walk steps around := by
  induction more, hle using Nat.le_induction with
  | base => rfl
  | succ more hle ih => rw [walk_enough (by omega), ih]

/-! ### One set of nodes around -/

/-- Walks that keep the nodes around them in one set. They may run out of steps. -/
abbrev Marking : Type → Type := StateT (Finset Nat) (ExceptT RecursiveAlias Option)

/-- The walk that has a collection in the set while it is inside it. -/
def mark (g : NodeGraph) : Nat → Nat → String → Index → Marking Index
  | 0, _, _, _ => fun _ => ExceptT.mk none
  | steps + 1, i, path, s =>
      match g.nodes[i]? with
      | none => pure s
      | some n => do
          if i ∈ (← get) then throw ⟨path, n.start⟩
          let s ← match n.content with
            | .scalar _ _ => pure s
            | .sequence items => do
                modify (insert i)
                g.walkItems (mark g steps) path items 0 s
            | .mapping pairs => do
                modify (insert i)
                g.walkPairs (mark g steps) path pairs [] s
          modify (·.erase i)
          return s

/-- A walk with this set around it does as the other, and leaves the set as it was. -/
def Mirrors {α : Type} (around : Finset Nat) (m : Marking α) (x : Except RecursiveAlias α) : Prop :=
  (m.run around).run = some (x.map fun a => (a, around))

namespace Mirrors

variable {α β : Type} {around : Finset Nat}

theorem pure (a : α) : Mirrors around (Pure.pure a) (Pure.pure a) := rfl

theorem bind {m : Marking α} {x : Except RecursiveAlias α} {f : α → Marking β}
    {k : α → Except RecursiveAlias β} (h : Mirrors around m x)
    (hf : ∀ a, Mirrors around (f a) (k a)) : Mirrors around (m >>= f) (x >>= k) := by
  unfold Mirrors at h
  rw [Mirrors, StateT.run_bind, ExceptT.run_bind, h]
  cases x with
  | ok a => exact hf a
  | error r => rfl

variable {g : NodeGraph} {below : Nat → String → Index → Except RecursiveAlias Index}
  {marking : Nat → String → Index → Marking Index}

theorem walkPairs (h : ∀ i path s, Mirrors around (marking i path s) (below i path s))
    (path : String) (pairs : List (Nat × Nat)) (seen : List String) (s : Index) :
    Mirrors around (g.walkPairs marking path pairs seen s) (g.walkPairs below path pairs seen s) := by
  induction pairs generalizing seen s with
  | nil => exact .pure s
  | cons p rest ih =>
      obtain ⟨key, value⟩ := p
      simp only [NodeGraph.walkPairs]
      cases g.text? key with
      | none => exact ih seen s
      | some name =>
          dsimp only
          split
          · exact (h ..).bind fun _ => ih seen s
          · split
            · exact ih ..
            · exact (h ..).bind fun _ => ih ..

theorem walkItem (h : ∀ i path s, Mirrors around (marking i path s) (below i path s))
    (path : String) (item index : Nat) (s : Index) :
    Mirrors around (g.walkItem marking path item index s) (g.walkItem below path item index s) := by
  refine (h ..).bind fun s' => ?_
  cases g.itemName? item with
  | none => exact .pure s'
  | some name => exact (h ..).bind fun _ => .pure _

theorem walkItems (h : ∀ i path s, Mirrors around (marking i path s) (below i path s))
    (path : String) (items : List Nat) (index : Nat) (s : Index) :
    Mirrors around (g.walkItems marking path items index s)
      (g.walkItems below path items index s) := by
  induction items generalizing index s with
  | nil => exact .pure s
  | cons item rest ih => exact (walkItem h path item index s).bind fun _ => ih _ _

theorem again {i : Nat} (h : i ∈ around) {m : Marking α} {r : RecursiveAlias} :
    Mirrors around (do
      if i ∈ (← get) then throw r
      m) (.error r) := by
  rw [Mirrors, StateT.run_bind, ExceptT.run_bind]
  simp [h, Except.map]

theorem anew {i : Nat} (h : i ∉ around) {m : Marking α} {x : Except RecursiveAlias α}
    {r : RecursiveAlias} (hm : Mirrors around m x) :
    Mirrors around (do
      if i ∈ (← get) then throw r
      m) x := by
  have hskip : (do
      if i ∈ (← get) then throw r
      m : Marking α).run around = m.run around := by
    rw [StateT.run_bind]
    simp [h]
  rw [Mirrors, hskip]
  exact hm

/-- What was put into the set is taken out of it behind the walk. -/
theorem inside {i : Nat} (hnew : i ∉ around) {m : Marking α} {x : Except RecursiveAlias α}
    (h : Mirrors (insert i around) m x) :
    Mirrors around (do
      let a ← (do
        modify (insert i)
        m)
      modify (·.erase i)
      return a) x := by
  unfold Mirrors at h
  change ((m >>= fun a => do
    modify (·.erase i)
    return a).run (insert i around)).run = _
  rw [StateT.run_bind, ExceptT.run_bind, h]
  cases x with
  | ok a =>
      have herase : (insert i around).erase i = around := Finset.erase_insert hnew
      exact congrArg (fun after => some (Except.ok (a, after))) herase
  | error r => rfl

end Mirrors

theorem mirrors_mark {steps : Nat} {around : List Nat} (hsteps : g.room around < steps) (i : Nat)
    (path : String) (s : Index) :
    Mirrors around.toFinset (g.mark steps i path s) (g.walk steps around i path s) := by
  induction steps generalizing around i path s with
  | zero => cases hsteps
  | succ steps ih =>
      rw [mark, walk]
      cases hn : g.nodes[i]? with
      | none => exact .pure s
      | some n =>
          have hi : i < g.nodes.size := (Array.getElem?_eq_some_iff.mp hn).1
          dsimp only
          by_cases hin : i ∈ around
          · rw [if_pos (List.contains_iff_mem.mpr hin)]
            exact .again (List.mem_toFinset.mpr hin)
          · rw [if_neg (mt List.contains_iff_mem.mp hin)]
            have hmem : i ∉ around.toFinset := mt List.mem_toFinset.mp hin
            have hroom := room_cons_lt hi hin
            have hbelow (i' : Nat) (path' : String) (s' : Index) :
                Mirrors (insert i around.toFinset) (g.mark steps i' path' s')
                  (g.walk steps (i :: around) i' path' s') := by
              rw [← List.toFinset_cons]
              exact ih (by omega) i' path' s'
            refine .anew hmem ?_
            cases n.content with
            | scalar text style =>
                have herase : around.toFinset.erase i = around.toFinset :=
                  Finset.erase_eq_of_notMem hmem
                exact congrArg (fun after => some (Except.ok (s, after))) herase
            | sequence items => exact .inside hmem (.walkItems hbelow path items 0 s)
            | mapping pairs => exact .inside hmem (.walkPairs hbelow path pairs [] s)

/-- With more steps than there are nodes the walk with one set around it comes to its end, which is
the same for any such number of steps, and leaves the set as it was given. With no nodes around, it
does as the walk of the positions, which stops just where a node that can reach itself is reached. -/
theorem mark_exact (g : NodeGraph) (i : Nat) (path : String) (s : Index) :
    (∀ around : Finset Nat, ∃ x : Except RecursiveAlias Index, ∀ steps, g.nodes.size < steps →
      ((g.mark steps i path s).run around).run = some (x.map fun s' => (s', around))) ∧
    ∃ x : Except RecursiveAlias Index,
      (∀ steps, g.nodes.size < steps → g.walk steps [] i path s = x ∧
        ((g.mark steps i path s).run ∅).run = some (x.map fun s' => (s', ∅))) ∧
      ((∃ r, x = .error r) ↔ g.LeadsBack i) := by
  have hends (around : List Nat) (steps : Nat) (hsteps : g.nodes.size < steps) :
      g.walk steps around i path s = g.walk (g.nodes.size + 1) around i path s ∧
        Mirrors around.toFinset (g.mark steps i path s)
          (g.walk (g.nodes.size + 1) around i path s) := by
    have hroom := g.room_le around
    have hwalk : g.walk steps around = g.walk (g.nodes.size + 1) around :=
      walk_of_le (by omega) hsteps
    rw [← hwalk]
    exact ⟨rfl, mirrors_mark (by omega) i path s⟩
  refine ⟨fun around => ⟨g.walk (g.nodes.size + 1) around.toList i path s, fun steps hsteps => ?_⟩,
    g.walk (g.nodes.size + 1) [] i path s, hends [], ?_⟩
  · have hmirrors := (hends around.toList steps hsteps).2
    rwa [Finset.toList_toFinset] at hmirrors
  · have hroom : g.room [] < g.nodes.size + 1 := by
      rw [room_nil]
      omega
    exact (stopsWhere_walk hroom i path s).trans returns_nil

private def scalarNode (text : String) : Node := ⟨Tag.str, ⟨0, 0, 0⟩, .scalar text .plain⟩

/-- A mapping with one list under two keys, which may be merged into itself. -/
def lists (merged : Nat) : NodeGraph where
  nodes := #[⟨Tag.map, ⟨0, 0, 0⟩, .mapping [(1, 4), (2, 4), (3, merged)]⟩, scalarNode "left",
    scalarNode "right", scalarNode mergeKey, ⟨Tag.seq, ⟨0, 0, 0⟩, .sequence [1, 2]⟩]
  root := 0

/-- The list is no way back to the mapping, the mapping itself is one. -/
theorem mark_exact_lists : ¬ (lists 4).LeadsBack 0 ∧ (lists 0).LeadsBack 0 ∧
    ∃ s, (((lists 4).mark 6 0 "" ⟨[], []⟩).run ∅).run = some (.ok (s, ∅)) := by
  obtain ⟨-, x, hends, hstops⟩ := mark_exact (lists 4) 0 "" ⟨[], []⟩
  obtain ⟨-, y, hends', hstops'⟩ := mark_exact (lists 0) 0 "" ⟨[], []⟩
  obtain ⟨hwalk, hmark⟩ := hends 6 (by decide)
  obtain ⟨hwalk', -⟩ := hends' 6 (by decide)
  have hgoes : ((lists 4).walk 6 [] 0 "" ⟨[], []⟩).isOk = true := by decide +kernel
  have hstop : ((lists 0).walk 6 [] 0 "" ⟨[], []⟩).isOk = false := by decide +kernel
  rw [hwalk] at hgoes
  rw [hwalk'] at hstop
  cases x with
  | error r => cases hgoes
  | ok s =>
      refine ⟨fun hback => ?_, ?_, s, hmark⟩
      · obtain ⟨r, hr⟩ := hstops.mpr hback
        cases hr
      · cases y with
        | ok s => cases hstop
        | error r => exact hstops'.mp ⟨r, rfl⟩

end NodeGraph

end AppSpec.Yaml
