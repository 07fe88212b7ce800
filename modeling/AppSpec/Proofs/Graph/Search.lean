import AppSpec.Proofs.Graph.Build
import AppSpec.Proofs.Graph.Cycle

/-!
The depth-first search. The nodes that are done stand in the order in which they were left, the last
one first: an arc out of one of them leads to one that was left before, or lies on a closed cycle.
-/

namespace AppSpec

namespace DependencyGraph

def Covered (cycles : List (List String)) (a b : String) : Prop :=
  ∃ c ∈ cycles, [a, b] <:+: c

def Settled (g : DependencyGraph) (cycles : List (List String)) : List String → Prop
  | [] => True
  | node :: rest =>
      (∀ next, g.Adjacent node next → next ∈ rest ∨ Covered cycles node next) ∧
        Settled g cycles rest

structure Stage (g : DependencyGraph) (path done : List String) (s : Search) : Prop where
  visited : ∀ n, n ∈ s.visited ↔ n ∈ path ∨ n ∈ done
  settled : Settled g s.cycles done
  reported : ∀ c ∈ s.cycles, Cycle.Reported g.Adjacent c
  nodup : s.cycles.Nodup

structure Advance (g : DependencyGraph) (path done : List String) (s : Search)
    (done' : List String) (s' : Search) : Prop where
  stage : Stage g path done' s'
  done_subset : done ⊆ done'
  cycles_subset : s.cycles ⊆ s'.cycles

structure Trail (g : DependencyGraph) (path : List String) : Prop where
  nodup : path.Nodup
  isChain : path.IsChain g.Adjacent
  hasNode : ∀ n ∈ path, g.hasNode n = true

variable {g : DependencyGraph} {path done : List String} {s s' : Search}

theorem Covered.mono {cycles cycles' : List (List String)} (h : cycles ⊆ cycles') {a b : String}
    (hc : Covered cycles a b) : Covered cycles' a b := by
  obtain ⟨c, hmem, harc⟩ := hc
  exact ⟨c, h hmem, harc⟩

theorem Settled.mono {cycles cycles' : List (List String)} (h : cycles ⊆ cycles')
    (hs : Settled g cycles done) : Settled g cycles' done := by
  induction done with
  | nil => trivial
  | cons node rest ih =>
      exact ⟨fun next hn => (hs.1 next hn).imp_right (Covered.mono h), ih hs.2⟩

theorem Advance.refl (h : Stage g path done s) : Advance g path done s done s :=
  ⟨h, List.Subset.refl _, List.Subset.refl _⟩

theorem Advance.trans {done₁ done₂ : List String} {s₁ s₂ : Search}
    (h : Advance g path done s done₁ s₁) (h' : Advance g path done₁ s₁ done₂ s₂) :
    Advance g path done s done₂ s₂ :=
  ⟨h'.stage, List.Subset.trans h.done_subset h'.done_subset,
    List.Subset.trans h.cycles_subset h'.cycles_subset⟩

theorem Adjacent.hasNode {a b : String} (h : g.Adjacent a b) :
    g.hasNode a = true ∧ g.hasNode b = true := by
  obtain ⟨htarget, hnode⟩ := (mem_successors g a b).mp h
  exact ⟨hasNode_of_mem_targets htarget, hnode⟩

theorem Trail.length_le (h : Trail g path) : path.length ≤ g.size := by
  have hsub : path ⊆ g.edges.keys := fun n hn =>
    (Named.has_iff_mem_keys g.edges n).mp (h.hasNode n hn)
  have hlen := (List.subperm_of_subset h.nodup hsub).length_le
  simpa [size, Named.keys] using hlen

theorem Trail.push {node next : String} (h : Trail g (path ++ [node]))
    (ha : g.Adjacent node next) (hn : next ∉ path ++ [node]) :
    Trail g (path ++ [node] ++ [next]) where
  nodup := by
    rw [List.nodup_append]
    refine ⟨h.nodup, List.nodup_singleton _, ?_⟩
    intro a hmem b hb hab
    obtain rfl := List.mem_singleton.mp hb
    exact hn (hab ▸ hmem)
  isChain := by
    refine List.isChain_append.mpr ⟨h.isChain, List.isChain_singleton _, ?_⟩
    simpa using ha
  hasNode n hmem := by
    rcases List.mem_append.mp hmem with hmem | hmem
    · exact h.hasNode n hmem
    · obtain rfl := List.mem_singleton.mp hmem
      exact (Adjacent.hasNode ha).2

/-! ### One arc -/

theorem loop_isChain {xs : List String} {node next : String}
    (hs : next :: xs <:+ path ++ [node]) (h : (path ++ [node]).IsChain g.Adjacent)
    (ha : g.Adjacent node next) :
    (Cycle.closed (next :: xs)).IsChain g.Adjacent ∧
      [node, next] <:+: Cycle.closed (next :: xs) := by
  obtain ⟨before, hbefore⟩ := hs
  have hlast : (next :: xs).getLast? = some node := by
    have hl : (before ++ next :: xs).getLast? = some node := by simp [hbefore]
    simpa [List.getLast?_append] using hl
  obtain ⟨ys, hys⟩ := List.getLast?_eq_some_iff.mp hlast
  have hchain : (next :: xs).IsChain g.Adjacent := by
    rw [← hbefore] at h
    exact h.right_of_append
  constructor
  · refine List.isChain_append.mpr ⟨hchain, List.isChain_singleton _, ?_⟩
    intro a hla b hb
    obtain rfl : node = a := by simpa [hlast] using hla
    obtain rfl : next = b := by simpa using hb
    exact ha
  · refine ⟨ys, [], ?_⟩
    calc ys ++ [node, next] ++ [] = (ys ++ [node]) ++ [next] := by simp
      _ = Cycle.closed (next :: xs) := by rw [← hys]; rfl

theorem Stage.close {node next : String} (h : Stage g (path ++ [node]) done s)
    (ht : Trail g (path ++ [node])) (ha : g.Adjacent node next) (hn : next ∈ path ++ [node]) :
    Advance g (path ++ [node]) done s done (s.close (path ++ [node]) next) ∧
      Covered (s.close (path ++ [node]) next).cycles node next := by
  have hlt := List.idxOf_lt_length_iff.mpr hn
  have hdrop : (path ++ [node]).drop ((path ++ [node]).idxOf next) =
      next :: (path ++ [node]).drop ((path ++ [node]).idxOf next + 1) := by
    rw [List.drop_eq_getElem_cons hlt, List.getElem_idxOf]
  generalize (path ++ [node]).drop ((path ++ [node]).idxOf next + 1) = xs at hdrop
  have hsuffix : next :: xs <:+ path ++ [node] := hdrop ▸ List.drop_suffix _ _
  obtain ⟨hloop, harc⟩ := loop_isChain hsuffix ht.isChain ha
  obtain ⟨cycle, hnorm, hrep, harcs⟩ := Cycle.normalize_reported (List.cons_ne_nil next xs)
    (ht.nodup.sublist hsuffix.sublist) hloop
  have hcover : [node, next] <:+: cycle := harcs node next harc
  simp only [Search.close, hdrop, hnorm]
  split
  · next hold => exact ⟨.refl h, cycle, by simpa using hold, hcover⟩
  · next hnew =>
      have hsub : s.cycles ⊆ s.cycles ++ [cycle] := List.subset_append_left _ _
      refine ⟨⟨⟨h.visited, h.settled.mono hsub, ?_, ?_⟩, List.Subset.refl _, hsub⟩,
        cycle, by simp, hcover⟩
      · intro c hc
        rcases List.mem_append.mp hc with hc | hc
        · exact h.reported c hc
        · exact List.mem_singleton.mp hc ▸ hrep
      · rw [List.nodup_append]
        refine ⟨h.nodup, List.nodup_singleton _, ?_⟩
        intro a hmem b hb hab
        obtain rfl := List.mem_singleton.mp hb
        exact hnew (by simpa [hab] using hmem)

/-! ### All arcs of a node -/

theorem foldl_advance {step : Search → String → Search} {node : String} {path : List String}
    (hstep : ∀ done s next, g.Adjacent node next → Stage g path done s →
      ∃ done', Advance g path done s done' (step s next) ∧
        (next ∈ done' ∨ Covered (step s next).cycles node next))
    (nexts : List String) (hnexts : ∀ next ∈ nexts, g.Adjacent node next)
    {done : List String} {s : Search} (h : Stage g path done s) :
    ∃ done', Advance g path done s done' (nexts.foldl step s) ∧
      ∀ next ∈ nexts, next ∈ done' ∨ Covered (nexts.foldl step s).cycles node next := by
  induction nexts generalizing done s with
  | nil => exact ⟨done, .refl h, by simp⟩
  | cons first nexts ih =>
      obtain ⟨done₁, hadv₁, hfirst⟩ := hstep done s first (hnexts first List.mem_cons_self) h
      obtain ⟨done₂, hadv₂, hrest⟩ :=
        ih (fun next hn => hnexts next (List.mem_cons_of_mem _ hn)) hadv₁.stage
      refine ⟨done₂, hadv₁.trans hadv₂, ?_⟩
      intro next hn
      rcases List.mem_cons.mp hn with rfl | hn
      · exact hfirst.imp (@hadv₂.done_subset _) (Covered.mono hadv₂.cycles_subset)
      · exact hrest next hn

theorem Stage.enter {node : String} (h : Stage g path done s) :
    Stage g (path ++ [node]) done { s with visited := node :: s.visited } where
  visited n := by
    rw [List.mem_cons, h.visited, List.mem_append, List.mem_singleton]
    tauto
  settled := h.settled
  reported := h.reported
  nodup := h.nodup

theorem Stage.leave {node : String} (h : Stage g (path ++ [node]) done s)
    (hall : ∀ next, g.Adjacent node next → next ∈ done ∨ Covered s.cycles node next) :
    Stage g path (node :: done) s where
  visited n := by
    rw [h.visited, List.mem_append, List.mem_singleton, List.mem_cons]
    tauto
  settled := ⟨hall, h.settled⟩
  reported := h.reported
  nodup := h.nodup

/-! ### A whole subtree -/

theorem visit_advance (steps : Nat) {path done : List String} {node : String} {s : Search}
    (hfuel : g.size ≤ steps + path.length) (ht : Trail g (path ++ [node]))
    (h : Stage g path done s) :
    ∃ done', Advance g path done s done' (g.visit steps path node s) ∧ node ∈ done' := by
  induction steps generalizing path done node s with
  | zero =>
      have hlen := ht.length_le
      rw [List.length_append, List.length_singleton] at hlen
      omega
  | succ steps ih =>
      rw [visit]
      have hstep : ∀ done s next, g.Adjacent node next → Stage g (path ++ [node]) done s →
          ∃ done', Advance g (path ++ [node]) done s done'
              (if (path ++ [node]).contains next then s.close (path ++ [node]) next
                else if s.visited.contains next then s
                else g.visit steps (path ++ [node]) next s) ∧
            (next ∈ done' ∨ Covered
              (if (path ++ [node]).contains next then s.close (path ++ [node]) next
                else if s.visited.contains next then s
                else g.visit steps (path ++ [node]) next s).cycles node next) := by
        intro done s next ha hst
        split
        · next hon =>
            obtain ⟨hadv, hcov⟩ := hst.close ht ha (by simpa using hon)
            exact ⟨done, hadv, .inr hcov⟩
        · next hoff =>
            have hoff' : next ∉ path ++ [node] := by simpa using hoff
            split
            · next hvis =>
                have hmem : next ∈ s.visited := by simpa using hvis
                exact ⟨done, .refl hst, .inl (((hst.visited next).mp hmem).resolve_left hoff')⟩
            · obtain ⟨done', hadv, hmem⟩ := ih (by
                rw [List.length_append, List.length_singleton]
                omega) (ht.push ha hoff') hst
              exact ⟨done', hadv, .inl hmem⟩
      obtain ⟨done', hadv, hall⟩ := foldl_advance hstep (g.successors node) (fun _ hn => hn)
        h.enter
      refine ⟨node :: done', ⟨hadv.stage.leave hall, ?_, hadv.cycles_subset⟩,
        List.mem_cons_self⟩
      exact List.Subset.trans hadv.done_subset (List.subset_cons_self _ _)

theorem search_stage (g : DependencyGraph) :
    ∃ done, Stage g [] done g.search ∧ ∀ n, g.hasNode n = true → n ∈ done := by
  have hfold : ∀ (roots : List String), (∀ r ∈ roots, g.hasNode r = true) →
      ∀ done s, Stage g [] done s →
        ∃ done', Advance g [] done s done' (roots.foldl (fun s root =>
            if s.visited.contains root then s else g.visit g.size [] root s) s) ∧
          ∀ r ∈ roots, r ∈ done' := by
    intro roots
    induction roots with
    | nil => exact fun _ done s h => ⟨done, .refl h, by simp⟩
    | cons root roots ih =>
        intro hroots done s h
        have hfirst : ∃ done₁, Advance g [] done s done₁
            (if s.visited.contains root then s else g.visit g.size [] root s) ∧
              root ∈ done₁ := by
          split
          · next hvis =>
              have hmem := (h.visited root).mp (by simpa using hvis)
              exact ⟨done, .refl h, hmem.resolve_left (List.not_mem_nil)⟩
          · refine visit_advance g.size (by omega) ⟨List.nodup_singleton _,
              List.isChain_singleton _, ?_⟩ h
            simpa using hroots root List.mem_cons_self
        obtain ⟨done₁, hadv₁, hroot⟩ := hfirst
        obtain ⟨done₂, hadv₂, hrest⟩ :=
          ih (fun r hr => hroots r (List.mem_cons_of_mem _ hr)) done₁ _ hadv₁.stage
        refine ⟨done₂, hadv₁.trans hadv₂, ?_⟩
        intro r hr
        rcases List.mem_cons.mp hr with rfl | hr
        · exact hadv₂.done_subset hroot
        · exact hrest r hr
  have hperm := Order.sortedTexts_perm g.edges.keys
  obtain ⟨done, hadv, hall⟩ := hfold (Order.sortedTexts g.edges.keys)
    (fun r hr => (Named.has_iff_mem_keys _ _).mpr (hperm.mem_iff.mp hr)) [] ⟨[], []⟩
    ⟨by simp, trivial, by simp, List.nodup_nil⟩
  exact ⟨done, hadv.stage, fun n hn =>
    hall n (hperm.mem_iff.mpr ((Named.has_iff_mem_keys _ _).mp hn))⟩

end DependencyGraph

end AppSpec
