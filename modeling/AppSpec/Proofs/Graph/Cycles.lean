import AppSpec.Proofs.Graph.Search

/-!
The reported cycles: every one is a closed walk from its least node, they are in order, and every
closed walk has an arc on one of them. An elementary cycle that shares no arc with another is
reported exactly once. Of cycles that share arcs the search may close only some, because it leaves
each node once.
-/

namespace AppSpec

namespace Order

theorem compareLists_eq_eq {as bs : List String} : compareLists as bs = .eq ↔ as = bs := by
  induction as generalizing bs with
  | nil => cases bs <;> simp [compareLists]
  | cons a as ih =>
      cases bs with
      | nil => simp [compareLists]
      | cons b bs =>
          rw [compareLists, Ordering.then_eq_eq, compare_eq_iff_eq, ih, List.cons.injEq]

theorem compareLists_eq_lt {as bs : List String} : compareLists as bs = .lt ↔ as < bs := by
  induction as generalizing bs with
  | nil => cases bs <;> simp [compareLists]
  | cons a as ih =>
      cases bs with
      | nil => simp [compareLists]
      | cons b bs =>
          rw [compareLists, Ordering.then_eq_lt, compare_lt_iff_lt, compare_eq_iff_eq, ih,
            List.cons_lt_cons_iff]

theorem compareLists_isLE {as bs : List String} :
    (compareLists as bs).isLE = true ↔ as ≤ bs := by
  rw [le_iff_lt_or_eq, ← compareLists_eq_lt, ← compareLists_eq_eq]
  cases compareLists as bs <;> decide

end Order

namespace DependencyGraph

variable {g : DependencyGraph}

theorem cycles_perm (g : DependencyGraph) : g.cycles.Perm g.search.cycles :=
  List.mergeSort_perm _ _

theorem reported_of_mem_cycles {cycle : List String} (h : cycle ∈ g.cycles) :
    Cycle.Reported g.Adjacent cycle := by
  obtain ⟨done, hstage, -⟩ := search_stage g
  exact hstage.reported cycle ((cycles_perm g).mem_iff.mp h)

theorem pairwise_cycles (g : DependencyGraph) : g.cycles.Pairwise (· < ·) := by
  obtain ⟨done, hstage, -⟩ := search_stage g
  have hle : g.cycles.Pairwise fun a b => (Order.compareLists a b).isLE = true := by
    refine List.pairwise_mergeSort ?_ ?_ _
    · intro a b c hab hbc
      rw [Order.compareLists_isLE] at *
      exact hab.trans hbc
    · intro a b
      rw [Bool.or_eq_true, Order.compareLists_isLE, Order.compareLists_isLE]
      exact le_total a b
  have hne : g.cycles.Pairwise (· ≠ ·) := (cycles_perm g).nodup_iff.mpr hstage.nodup
  refine (hle.and hne).imp ?_
  rintro a b ⟨hab, hnab⟩
  exact lt_of_le_of_ne (Order.compareLists_isLE.mp hab) hnab

theorem Settled.not_mem_of_uncovered {cycles : List (List String)} {done : List String}
    (h : Settled g cycles done) {walk : List String}
    (hnext : ∀ n ∈ walk, ∃ m ∈ walk, g.Adjacent n m ∧ ¬ Covered cycles n m) :
    ∀ n ∈ walk, n ∉ done := by
  induction done with
  | nil => simp
  | cons node rest ih =>
      have hrest := ih h.2
      intro n hn hmem
      rcases List.mem_cons.mp hmem with rfl | hmem
      · obtain ⟨m, hm, ha, hc⟩ := hnext n hn
        exact (h.1 m ha).elim (hrest m hm) hc
      · exact hrest n hn hmem

theorem arc_of_mem_walk {R : String → String → Prop} {v : String} {vs : List String}
    (h : (Cycle.closed (v :: vs)).IsChain R) {n : String} (hn : n ∈ v :: vs) :
    ∃ m ∈ v :: vs, R n m ∧ [n, m] <:+: Cycle.closed (v :: vs) := by
  obtain ⟨before, after, hsplit⟩ := List.append_of_mem hn
  obtain ⟨m, tail, htail⟩ : ∃ m tail, after ++ [v] = m :: tail := by
    cases after with
    | nil => exact ⟨v, [], rfl⟩
    | cons m tail => exact ⟨m, tail ++ [v], rfl⟩
  have hclosed : Cycle.closed (v :: vs) = before ++ n :: m :: tail := by
    rw [← htail, Cycle.closed, hsplit]
    cases before with
    | nil =>
        obtain rfl : v = n := by simpa using (List.cons.inj hsplit).1
        simp
    | cons w ws =>
        obtain rfl : v = w := by simpa using (List.cons.inj hsplit).1
        simp
  have hinfix : [n, m] <:+: Cycle.closed (v :: vs) := ⟨before, tail, by simp [hclosed]⟩
  refine ⟨m, ?_, ?_, hinfix⟩
  · have hm : m ∈ after ++ [v] := htail ▸ List.mem_cons_self
    rcases List.mem_append.mp hm with hm | hm
    · rw [hsplit]
      simp [hm]
    · exact List.mem_singleton.mp hm ▸ List.mem_cons_self
  · have hpair := h.infix hinfix
    rwa [List.isChain_pair] at hpair

theorem exists_shared_arc {v : String} {vs : List String}
    (h : (Cycle.closed (v :: vs)).IsChain g.Adjacent) :
    ∃ cycle ∈ g.cycles, ∃ a b, [a, b] <:+: Cycle.closed (v :: vs) ∧ [a, b] <:+: cycle := by
  obtain ⟨done, hstage, hdone⟩ := search_stage g
  by_contra hnone
  push Not at hnone
  have hnext : ∀ n ∈ v :: vs,
      ∃ m ∈ v :: vs, g.Adjacent n m ∧ ¬ Covered g.search.cycles n m := by
    intro n hn
    obtain ⟨m, hm, ha, harc⟩ := arc_of_mem_walk h hn
    refine ⟨m, hm, ha, ?_⟩
    rintro ⟨cycle, hc, hcov⟩
    exact hnone cycle ((cycles_perm g).mem_iff.mpr hc) n m harc hcov
  obtain ⟨m, -, ha, -⟩ := hnext v List.mem_cons_self
  exact hstage.settled.not_mem_of_uncovered hnext v List.mem_cons_self
    (hdone v (Adjacent.hasNode ha).1)

theorem transGen_of_isChain {R : String → String → Prop} {v : String} {vs : List String}
    (h : (v :: vs ++ [v]).IsChain R) : Relation.TransGen R v v := by
  cases vs with
  | nil => exact .single (by simpa using h)
  | cons n ns =>
      rw [List.cons_append, List.cons_append, List.isChain_cons_cons] at h
      refine .head' h.1 ?_
      refine List.relationReflTransGen_of_exists_isChain_cons (ns ++ [v]) h.2 ?_
      simp

theorem exists_walk_of_transGen {R : String → String → Prop} {n : String}
    (h : Relation.TransGen R n n) : ∃ vs, (Cycle.closed (n :: vs)).IsChain R := by
  obtain ⟨m, hreach, hlast⟩ := Relation.TransGen.tail'_iff.mp h
  obtain ⟨vs, hchain, hend⟩ := List.exists_isChain_cons_of_relationReflTransGen hreach
  refine ⟨vs, List.isChain_append.mpr ⟨hchain, List.isChain_singleton _, ?_⟩⟩
  intro a ha b hb
  obtain rfl : n = b := by simpa using hb
  have hm : a = m := by
    rw [← hend]
    exact (List.getLast_of_mem_getLast? ha).symm
  exact hm ▸ hlast

theorem cycles_eq_nil_iff (g : DependencyGraph) :
    g.cycles = [] ↔ ∀ n, ¬ Relation.TransGen g.Adjacent n n := by
  constructor
  · intro h n hn
    obtain ⟨vs, hwalk⟩ := exists_walk_of_transGen hn
    obtain ⟨cycle, hmem, -⟩ := exists_shared_arc hwalk
    simp [h] at hmem
  · intro h
    rw [List.eq_nil_iff_forall_not_mem]
    intro cycle hmem
    have hrep := reported_of_mem_cycles hmem
    obtain ⟨v, vs, rfl, -, -⟩ := hrep.exists_nodes
    exact h v (transGen_of_isChain hrep.isChain)

/-! ### Graphs built by calls -/

theorem adjacent_eq_arrow (label : String) (calls : List GraphCall) :
    (build label calls).Adjacent = Arrow calls := by
  funext a b
  exact propext (adjacent_build label calls a b)

theorem cycles_build_sound_and_hit_every_walk (label : String) (calls : List GraphCall) :
    (∀ cycle ∈ (build label calls).cycles, ∃ v vs, cycle = v :: vs ++ [v] ∧ (v :: vs).Nodup ∧
      (∀ n ∈ v :: vs, Declares calls n) ∧ cycle.IsChain (Links calls) ∧ ∀ n ∈ vs, v < n) ∧
    (build label calls).cycles.Pairwise (· < ·) ∧
    (∀ v vs, (∀ n ∈ v :: vs, Declares calls n) → (v :: vs ++ [v]).IsChain (Links calls) →
      ∃ cycle ∈ (build label calls).cycles, ∃ a b,
        [a, b] <:+: v :: vs ++ [v] ∧ [a, b] <:+: cycle) ∧
    ((build label calls).cycles = [] ↔ ∀ n, ¬ Relation.TransGen (Arrow calls) n n) := by
  refine ⟨?_, pairwise_cycles _, ?_, ?_⟩
  · intro cycle hmem
    have hrep := reported_of_mem_cycles hmem
    rw [adjacent_eq_arrow] at hrep
    obtain ⟨v, vs, rfl, hnodup, hleast⟩ := hrep.exists_nodes
    refine ⟨v, vs, rfl, hnodup, ?_, hrep.isChain.imp fun _ _ h => h.1, hleast⟩
    intro n hn
    obtain ⟨m, -, harrow, -⟩ := arc_of_mem_walk hrep.isChain hn
    exact harrow.1.declares_source
  · intro v vs hdeclared hchain
    refine exists_shared_arc (List.IsChain.imp_of_mem_imp ?_ hchain)
    intro a b ha hb hlink
    have hmem : b ∈ v :: vs := by
      rcases List.mem_append.mp hb with hb | hb
      · exact hb
      · exact List.mem_singleton.mp hb ▸ List.mem_cons_self
    exact (adjacent_build label calls a b).mpr ⟨hlink, hdeclared b hmem⟩
  · rw [cycles_eq_nil_iff, adjacent_eq_arrow]

end DependencyGraph

/-! ### Cycles that share no arc with another -/

namespace Cycle

def SharesArc (cycle other : List String) : Prop :=
  ∃ a b, [a, b] <:+: cycle ∧ [a, b] <:+: other

def OwnsArcs (R : String → String → Prop) (cycle : List String) : Prop :=
  ∀ other, Reported R other → SharesArc cycle other → other = cycle

end Cycle

namespace DependencyGraph

variable {g : DependencyGraph}

theorem nodup_cycles (g : DependencyGraph) : g.cycles.Nodup :=
  (pairwise_cycles g).imp fun h => ne_of_lt h

theorem mem_cycles_of_ownsArcs {cycle : List String} (h : Cycle.Reported g.Adjacent cycle)
    (hown : Cycle.OwnsArcs g.Adjacent cycle) : cycle ∈ g.cycles := by
  obtain ⟨v, vs, rfl, -, -⟩ := h.exists_nodes
  obtain ⟨other, hmem, a, b, hcycle, hother⟩ := exists_shared_arc h.isChain
  obtain rfl := hown other (reported_of_mem_cycles hmem) ⟨a, b, hcycle, hother⟩
  exact hmem

theorem cycleDiagnostics_eq (g : DependencyGraph) (pathOf : String → String) (warning : Bool) :
    g.cycleDiagnostics pathOf warning = g.cycles.map fun cycle =>
      .make .consistency (if warning then .warning else .error) (pathOf (cycle.headD ""))
        ("circular " ++ g.label ++ ": " ++ " -> ".intercalate cycle) none := by
  cases warning <;> rfl

@[simp]
theorem label_addNode (g : DependencyGraph) (node : String) : (g.addNode node).label = g.label := by
  rw [addNode]
  split <;> rfl

@[simp]
theorem label_addEdge (g : DependencyGraph) (source target : String) :
    (g.addEdge source target).label = g.label := by
  rw [addEdge]
  split <;> exact label_addNode g source

@[simp]
theorem label_build (label : String) (calls : List GraphCall) :
    (build label calls).label = label := by
  rw [build]
  have hstart : (empty label).label = label := rfl
  refine List.foldlRecOn calls call (motive := fun g => g.label = label) hstart ?_
  intro g hg c _
  rw [← hg]
  cases c with
  | node name => exact label_addNode g name
  | edge source target => exact label_addEdge g source target

theorem cycleDiagnostics_build_of_ownsArcs (label : String) (calls : List GraphCall)
    (pathOf : String → String) (warning : Bool) :
    (∀ cycle, Cycle.Reported (Arrow calls) cycle → Cycle.OwnsArcs (Arrow calls) cycle →
      (build label calls).cycles.count cycle = 1) ∧
    ∃ reported : List (List String), reported.Nodup ∧
      (∀ cycle ∈ reported, Cycle.Reported (Arrow calls) cycle) ∧
      ((∀ cycle, Cycle.Reported (Arrow calls) cycle → Cycle.OwnsArcs (Arrow calls) cycle) →
        ∀ cycle, Cycle.Reported (Arrow calls) cycle → cycle ∈ reported) ∧
      (build label calls).cycleDiagnostics pathOf warning = reported.map fun cycle =>
        .make .consistency (if warning then .warning else .error) (pathOf (cycle.headD ""))
          ("circular " ++ label ++ ": " ++ " -> ".intercalate cycle) none := by
  rw [← adjacent_eq_arrow label calls]
  have hmem : ∀ cycle, Cycle.Reported (build label calls).Adjacent cycle →
      Cycle.OwnsArcs (build label calls).Adjacent cycle → cycle ∈ (build label calls).cycles :=
    fun _ => mem_cycles_of_ownsArcs
  refine ⟨fun cycle h hown => ?_, (build label calls).cycles, nodup_cycles _, ?_, ?_, ?_⟩
  · exact List.count_eq_one_of_mem (nodup_cycles _) (hmem cycle h hown)
  · exact fun cycle => reported_of_mem_cycles
  · exact fun hown cycle h => hmem cycle h (hown cycle h)
  · rw [cycleDiagnostics_eq, label_build]

def diamond : List GraphCall :=
  [.edge "a" "b", .edge "a" "c", .edge "b" "d", .edge "c" "d", .edge "d" "a"]

theorem cycles_build_diamond : Cycle.Reported (Arrow diamond) ["a", "c", "d", "a"] ∧
    (build "component dependency" diamond).cycles = [["a", "b", "d", "a"]] := by
  refine ⟨⟨⟨"a", ["c", "d"], rfl, by decide, by decide⟩, ?_⟩, by cbv⟩
  simp [Arrow, Links, Declares, diamond, GraphCall.declares]

end DependencyGraph

end AppSpec
