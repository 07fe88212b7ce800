import AppSpec.Document.Graph
import AppSpec.Proofs.Outcome
import Mathlib

/-!
Documents that contain themselves: the search through the containers of a document stops exactly
where one of them leads back into itself, and tells the keys and indexes that lead there. Only a key
that is too long to be written out stops it before.
-/

namespace AppSpec

def RawNode.items : RawNode → List RawItem
  | .dict entries => entries.map (·.2)
  | .list items => items
  | .set _ => []

namespace RawGraph

open Relation (ReflTransGen TransGen)

def Contains (g : RawGraph) (i j : Nat) : Prop :=
  ∃ node, g.nodes[i]? = some node ∧ .node j ∈ node.items

/-- A container of the document leads back into itself. -/
def SelfContaining (g : RawGraph) : Prop :=
  ∃ i j, g.root = .node i ∧ ReflTransGen g.Contains i j ∧ TransGen g.Contains j j

variable {g : RawGraph}

theorem mem_children {node : RawNode} {item : RawItem} :
    (∃ step, (step, item) ∈ node.children) ↔ item ∈ node.items := by
  cases node with
  | dict entries => simp [RawNode.children, RawNode.items]
  | list items =>
      constructor
      · rintro ⟨step, h⟩
        obtain ⟨p, hp, heq⟩ := List.mem_map.mp h
        cases heq
        exact List.fst_mem_of_mem_zipIdx hp
      · intro h
        obtain ⟨n, hn, hget⟩ := List.mem_iff_getElem.mp h
        have hindexed : (item, n) ∈ items.zipIdx := by
          rw [List.mk_mem_zipIdx_iff_getElem?, ← hget]
          exact List.getElem?_eq_getElem hn
        exact ⟨.index n, List.mem_map.mpr ⟨_, hindexed, rfl⟩⟩
  | set items => simp [RawNode.children, RawNode.items]

theorem contains_iff {i j : Nat} :
    g.Contains i j ↔ ∃ step, (step, RawItem.node j) ∈ g.childrenAt i := by
  rw [childrenAt]
  cases hnode : g.nodes[i]? with
  | none => simp [Contains, hnode]
  | some node => simp [Contains, hnode, mem_children]

theorem childrenAt_of_size_le {i : Nat} (h : g.nodes.size ≤ i) : g.childrenAt i = [] := by
  rw [childrenAt, Array.getElem?_eq_none h]

theorem lt_size_of_mem {i : Nat} {child : RawStep × RawItem} (h : child ∈ g.childrenAt i) :
    i < g.nodes.size := by
  by_contra hle
  rw [childrenAt_of_size_le (Nat.le_of_not_lt hle)] at h
  cases h

/-! ### Ways through containers -/

/-- The keys and indexes that lead from one container to another, and the containers that they lead
through, the last one apart. -/
inductive Way (g : RawGraph) : Nat → List Nat → List RawStep → Nat → Prop
  | here (i : Nat) : Way g i [] [] i
  | down {i j k : Nat} {step : RawStep} {passed : List Nat} {steps : List RawStep}
      (hstep : (step, .node j) ∈ g.childrenAt i) (hway : Way g j passed steps k) :
      Way g i (i :: passed) (step :: steps) k

/-- A way leads back to a container that it has led through, and is written as this path. -/
def LeadsBack (g : RawGraph) (root : Nat) (path : String) : Prop :=
  ∃ passed steps last, g.Way root passed steps last ∧ passed.Nodup ∧ last ∈ passed ∧
    path = Path.joinAll "" (steps.map RawStep.segment)

namespace Way

variable {i j k : Nat} {passed : List Nat} {steps : List RawStep}

theorem snoc (h : g.Way i passed steps j) {step : RawStep}
    (hstep : (step, .node k) ∈ g.childrenAt j) :
    g.Way i (passed ++ [j]) (steps ++ [step]) k := by
  induction h with
  | here i => exact .down hstep (.here k)
  | down hfirst _ ih => exact .down hfirst (ih hstep)

theorem reaches (h : g.Way i passed steps j) : ReflTransGen g.Contains i j := by
  induction h with
  | here i => exact .refl
  | down hstep _ ih => exact .head (contains_iff.mpr ⟨_, hstep⟩) ih

theorem leads (h : g.Way i passed steps j) (hk : k ∈ passed) : TransGen g.Contains k j := by
  induction h with
  | here i => cases hk
  | down hstep hway ih =>
      rcases List.mem_cons.mp hk with rfl | hk
      · exact TransGen.head' (contains_iff.mpr ⟨_, hstep⟩) hway.reaches
      · exact ih hk

theorem lt_size (h : g.Way i passed steps j) (hk : k ∈ passed) : k < g.nodes.size := by
  induction h with
  | here i => cases hk
  | down hstep _ ih =>
      rcases List.mem_cons.mp hk with rfl | hk
      · exact lt_size_of_mem hstep
      · exact ih hk

end Way

theorem LeadsBack.loops {root : Nat} {path : String} (h : g.LeadsBack root path) :
    ∃ j, ReflTransGen g.Contains root j ∧ TransGen g.Contains j j := by
  obtain ⟨passed, steps, last, hway, -, hback, -⟩ := h
  exact ⟨last, hway.reaches, hway.leads hback⟩

/-! ### Keys that cannot be written out -/

/-- A container holds a key that is too long, or a value with one. -/
def LongAt (g : RawGraph) (i : Nat) : Prop :=
  ∃ child ∈ g.childrenAt i, child.1.isLong = true ∨ ∃ v, child.2 = .value v ∧ v.hasLongKey = true

inductive HasLongKey (g : RawGraph) : Prop
  | value {v : Value} (hroot : g.root = .value v) (hlong : v.hasLongKey = true)
  | node {i j : Nat} (hroot : g.root = .node i) (hreach : ReflTransGen g.Contains i j)
      (hlong : g.LongAt j)

/-- Every way down from a container ends, and comes by no key that is too long. -/
inductive Clean (g : RawGraph) : Nat → Prop
  | intro {i : Nat} (hshort : ¬ g.LongAt i) (hbelow : ∀ j, g.Contains i j → Clean g j) : Clean g i

theorem Clean.not_transGen {i : Nat} (h : g.Clean i) : ¬ TransGen g.Contains i i := by
  induction h with
  | @intro i _ _ ih =>
      intro hloop
      obtain ⟨next, hstep, hback⟩ := TransGen.head'_iff.mp hloop
      exact ih next hstep (TransGen.tail' hback hstep)

theorem Clean.of_reflTransGen {i j : Nat} (h : g.Clean i) (hreach : ReflTransGen g.Contains i j) :
    g.Clean j := by
  induction hreach with
  | refl => exact h
  | tail _ hstep ih =>
      cases ih with
      | intro _ hbelow => exact hbelow _ hstep

theorem Clean.not_longAt {i : Nat} (h : g.Clean i) : ¬ g.LongAt i := by
  cases h with
  | intro hshort _ => exact hshort

/-- All that a container holds under a step is clean. -/
structure Settled (g : RawGraph) (child : RawStep × RawItem) : Prop where
  step : child.1.isLong = false
  value : ∀ v, child.2 = .value v → v.hasLongKey = false
  node : ∀ next, child.2 = .node next → g.Clean next

theorem clean_of_settled {i : Nat} (h : ∀ child ∈ g.childrenAt i, g.Settled child) :
    g.Clean i := by
  refine .intro ?_ fun next hstep => ?_
  · rintro ⟨child, hchild, hlong | ⟨v, hv, hlong⟩⟩
    · exact Bool.false_ne_true ((h child hchild).step.symm.trans hlong)
    · exact Bool.false_ne_true (((h child hchild).value v hv).symm.trans hlong)
  · obtain ⟨step, hmem⟩ := contains_iff.mp hstep
    exact (h _ hmem).node next rfl

/-! ### The search -/

/-- The containers around a place: those that lead to it, each once, and their path. -/
structure Around (g : RawGraph) (root : Nat) (around : List Nat) (index : Nat) (path : String) :
    Prop where
  way : ∃ passed steps, g.Way root passed steps index ∧ around = index :: passed.reverse ∧
    path = Path.joinAll "" (steps.map RawStep.segment)
  nodup : around.Nodup

namespace Around

variable {root index next : Nat} {around : List Nat} {path : String} {way : RawStep}

theorem start (g : RawGraph) (root : Nat) : g.Around root [root] root "" :=
  ⟨⟨[], [], .here root, rfl, rfl⟩, List.nodup_singleton root⟩

theorem reached (h : g.Around root around index path) : ReflTransGen g.Contains root index := by
  obtain ⟨passed, steps, hway, -, -⟩ := h.way
  exact hway.reaches

theorem step (h : g.Around root around index path)
    (hstep : (way, .node next) ∈ g.childrenAt index) (hnew : next ∉ around) :
    g.Around root (next :: around) next (Path.join path way.segment) := by
  obtain ⟨passed, steps, hway, haround, hpath⟩ := h.way
  refine ⟨⟨passed ++ [index], steps ++ [way], hway.snoc hstep, ?_, ?_⟩, ?_⟩
  · rw [List.reverse_append, haround]
    rfl
  · rw [List.map_append, Path.joinAll_append, ← hpath]
    rfl
  · exact List.nodup_cons.mpr ⟨hnew, h.nodup⟩

theorem leadsBack (h : g.Around root around index path)
    (hstep : (way, .node next) ∈ g.childrenAt index) (hback : next ∈ around) :
    g.LeadsBack root (Path.join path way.segment) := by
  obtain ⟨passed, steps, hway, haround, hpath⟩ := h.way
  have hperm : around.Perm (passed ++ [index]) := by
    rw [haround, ← List.reverse_concat]
    exact List.reverse_perm _
  refine ⟨passed ++ [index], steps ++ [way], next, hway.snoc hstep, hperm.nodup_iff.mp h.nodup,
    hperm.mem_iff.mp hback, ?_⟩
  rw [List.map_append, Path.joinAll_append, ← hpath]
  rfl

theorem length_le (h : g.Around root around index path) (hindex : index < g.nodes.size) :
    around.length ≤ g.nodes.size := by
  obtain ⟨passed, steps, hway, haround, -⟩ := h.way
  have hsub : around ⊆ List.range g.nodes.size := by
    intro i hi
    rw [List.mem_range]
    rw [haround] at hi
    rcases List.mem_cons.mp hi with rfl | hi
    · exact hindex
    · exact hway.lt_size (List.mem_reverse.mp hi)
  simpa using (List.subperm_of_subset h.nodup hsub).length_le

end Around

def visit (g : RawGraph) (steps : Nat) (around : List Nat) (path : String) (finished : List Nat)
    (child : RawStep × RawItem) : Except SearchStop (List Nat) :=
  if child.1.isLong then .error (.failure .integerTooLong)
  else
    match child.2 with
    | .node next =>
        if finished.contains next then .ok finished
        else
          let path := Path.join path child.1.segment
          if around.contains next then .error (.back path)
          else g.searchBelow steps (next :: around) next path finished
    | .value v => if v.hasLongKey then .error (.failure .integerTooLong) else .ok finished
    | .tuple _ => .ok finished

theorem searchBelow_succ (steps : Nat) (around : List Nat) (index : Nat) (path : String)
    (finished : List Nat) :
    g.searchBelow (steps + 1) around index path finished =
      (do return index :: (← (g.childrenAt index).foldlM (visit g steps around path) finished)) := by
  rw [searchBelow]
  rfl

/-- Why a search from a root stops. -/
def Stops (g : RawGraph) (root : Nat) : SearchStop → Prop
  | .back path => g.LeadsBack root path
  | .failure f => f = .integerTooLong ∧ ∃ j, ReflTransGen g.Contains root j ∧ g.LongAt j

def Searches (g : RawGraph) (root steps : Nat) : Prop :=
  ∀ {around : List Nat} {index : Nat} {path : String} {finished : List Nat},
    g.Around root around index path → g.nodes.size < steps + around.length →
      (∀ i ∈ finished, g.Clean i) →
        Ends (g.Stops root) (fun after => (∀ i ∈ after, g.Clean i) ∧ g.Clean index)
          (g.searchBelow steps around index path finished)

variable {root steps index : Nat} {around finished : List Nat} {path : String}

theorem ends_visit (hbelow : g.Searches root steps) (haround : g.Around root around index path)
    (hsteps : g.nodes.size < steps + 1 + around.length) {child : RawStep × RawItem}
    (hchild : child ∈ g.childrenAt index) (hfinished : ∀ i ∈ finished, g.Clean i) :
    Ends (g.Stops root) (fun after => (∀ i ∈ after, g.Clean i) ∧ g.Settled child)
      (g.visit steps around path finished child) := by
  obtain ⟨step, item⟩ := child
  unfold visit
  split
  · next hlong => exact ⟨rfl, index, haround.reached, _, hchild, .inl hlong⟩
  next hshort =>
  have hstep : step.isLong = false := by simpa using hshort
  cases item with
  | tuple items => exact ⟨hfinished, hstep, nofun, nofun⟩
  | value v =>
      dsimp only
      split
      · next hlong => exact ⟨rfl, index, haround.reached, _, hchild, .inr ⟨v, rfl, hlong⟩⟩
      · next hkeys =>
          refine ⟨hfinished, hstep, fun v' hv' => ?_, nofun⟩
          cases hv'
          simpa using hkeys
  | node next =>
      have hsettled (hclean : g.Clean next) : g.Settled (step, .node next) := by
        refine ⟨hstep, nofun, fun next' hnext' => ?_⟩
        cases hnext'
        exact hclean
      dsimp only
      split
      · next hknown => exact ⟨hfinished, hsettled (hfinished next (by simpa using hknown))⟩
      · split
        · next hback => exact haround.leadsBack hchild (by simpa using hback)
        · next hnew =>
            refine (hbelow (haround.step hchild (by simpa using hnew)) ?_ hfinished).result
              fun after hafter => ⟨hafter.1, hsettled hafter.2⟩
            simp only [List.length_cons]
            omega

theorem searches (root steps : Nat) : g.Searches root steps := by
  induction steps with
  | zero =>
      intro around index path finished haround hsteps hfinished
      have hleaf : g.nodes.size ≤ index := by
        by_contra hlt
        have hle := haround.length_le (Nat.lt_of_not_le hlt)
        omega
      have hclean : g.Clean index := by
        refine clean_of_settled fun child hchild => ?_
        rw [childrenAt_of_size_le hleaf] at hchild
        cases hchild
      exact ⟨List.forall_mem_cons.mpr ⟨hclean, hfinished⟩, hclean⟩
  | succ steps ih =>
      intro around index path finished haround hsteps hfinished
      rw [searchBelow_succ]
      refine Ends.bind (Ends.foldlM (fun child hchild after hafter =>
        ends_visit ih haround hsteps hchild hafter) hfinished) fun after hafter => ?_
      have hclean : g.Clean index := clean_of_settled hafter.2
      exact ⟨List.forall_mem_cons.mpr ⟨hclean, hafter.1⟩, hclean⟩

/-- With a step for each container there are enough of them: more do not change the outcome. -/
theorem searchBelow_enough (haround : g.Around root around index path)
    (hsteps : g.nodes.size < steps + around.length) :
    g.searchBelow (steps + 1) around index path finished =
      g.searchBelow steps around index path finished := by
  induction steps generalizing around index path finished with
  | zero =>
      have hleaf : g.nodes.size ≤ index := by
        by_contra hlt
        have hle := haround.length_le (Nat.lt_of_not_le hlt)
        omega
      rw [searchBelow_succ, childrenAt_of_size_le hleaf]
      rfl
  | succ steps ih =>
      rw [searchBelow_succ, searchBelow_succ steps]
      refine congrArg (· >>= _) (foldlM_congr ?_ finished)
      rintro ⟨step, item⟩ hchild after
      unfold visit
      cases item with
      | node next =>
          by_cases hnew : next ∈ around
          · simp [hnew]
          · have hroom : g.nodes.size < steps + (next :: around).length := by
              simp only [List.length_cons]
              omega
            have hbelow : g.searchBelow (steps + 1) (next :: around) next
                (Path.join path step.segment) after =
                  g.searchBelow steps (next :: around) next (Path.join path step.segment) after :=
              ih (haround.step hchild hnew) hroom
            dsimp only
            rw [hbelow]
      | value v => rfl
      | tuple items => rfl

theorem searchBelow_of_size_le (h : g.nodes.size ≤ steps) :
    g.searchBelow steps [index] index "" [] = g.searchBelow g.nodes.size [index] index "" [] := by
  induction steps, h using Nat.le_induction with
  | base => rfl
  | succ steps hle ih =>
      have hsteps : g.nodes.size < steps + [index].length := Nat.lt_succ_of_le hle
      rw [searchBelow_enough (.start g index) hsteps, ih]

/-! ### What the search finds -/

/-- The document leads back into a container around, along this path. -/
def RefersToItself (g : RawGraph) (path : String) : Prop :=
  ∃ root, g.root = .node root ∧ g.LeadsBack root path

theorem ends_recursion? (g : RawGraph) :
    Ends (fun f => f = .integerTooLong ∧ g.HasLongKey)
      (fun found => (found = none → ¬ g.SelfContaining ∧ ¬ g.HasLongKey) ∧
        ∀ path, found = some path → g.RefersToItself path) g.recursion? := by
  rw [recursion?]
  cases hroot : g.root with
  | tuple items =>
      refine ⟨fun _ => ⟨fun ⟨i, _, h, _⟩ => ?_, fun h => ?_⟩, nofun⟩
      · cases hroot.symm.trans h
      · cases h with
        | value h => cases hroot.symm.trans h
        | node h => cases hroot.symm.trans h
  | value v =>
      dsimp only
      split
      · next hlong => exact ⟨rfl, .value hroot hlong⟩
      · next hshort =>
          refine ⟨fun _ => ⟨fun ⟨i, _, h, _⟩ => ?_, fun h => ?_⟩, nofun⟩
          · cases hroot.symm.trans h
          · cases h with
            | value h hlong =>
                cases hroot.symm.trans h
                exact hshort hlong
            | node h => cases hroot.symm.trans h
  | node index =>
      have hends : Ends (g.Stops index) (fun after => (∀ i ∈ after, g.Clean i) ∧ g.Clean index)
          (g.searchBelow g.nodes.size [index] index "" []) :=
        searches index g.nodes.size (.start g index) (Nat.lt_succ_self _) nofun
      dsimp only
      split
      · next after hsearch =>
          rw [hsearch] at hends
          have hclean : g.Clean index := hends.2
          refine ⟨fun _ => ⟨?_, fun h => ?_⟩, nofun⟩
          · rintro ⟨i, j, hi, hreach, hloop⟩
            cases hroot.symm.trans hi
            exact (hclean.of_reflTransGen hreach).not_transGen hloop
          · cases h with
            | value h => cases hroot.symm.trans h
            | node h hreach hlong =>
                cases hroot.symm.trans h
                exact (hclean.of_reflTransGen hreach).not_longAt hlong
      · next path hsearch =>
          rw [hsearch] at hends
          refine ⟨nofun, fun path' hpath' => ?_⟩
          cases hpath'
          exact ⟨index, hroot, hends⟩
      · next f hsearch =>
          rw [hsearch] at hends
          obtain ⟨rfl, j, hreach, hlong⟩ := hends
          exact ⟨rfl, .node hroot hreach hlong⟩

theorem RefersToItself.selfContaining {path : String} (h : g.RefersToItself path) :
    g.SelfContaining := by
  obtain ⟨root, hroot, hback⟩ := h
  obtain ⟨j, hreach, hloop⟩ := hback.loops
  exact ⟨root, j, hroot, hreach, hloop⟩

theorem recursion?_of_finite (hfinite : ¬ g.SelfContaining) :
    g.recursion? = .ok none ∧ ¬ g.HasLongKey ∨
      g.recursion? = .error .integerTooLong ∧ g.HasLongKey := by
  have hends := ends_recursion? g
  cases hfound : g.recursion? with
  | error f =>
      rw [hfound] at hends
      obtain ⟨rfl, hlong⟩ := hends
      exact .inr ⟨rfl, hlong⟩
  | ok found =>
      rw [hfound] at hends
      cases found with
      | none => exact .inl ⟨rfl, (hends.1 rfl).2⟩
      | some path => exact absurd (hends.2 path rfl).selfContaining hfinite

theorem recursion?_eq_none :
    g.recursion? = .ok none ↔ ¬ g.SelfContaining ∧ ¬ g.HasLongKey := by
  constructor
  · intro h
    have hends := ends_recursion? g
    rw [h] at hends
    exact hends.1 rfl
  · rintro ⟨hfinite, hshort⟩
    rcases recursion?_of_finite hfinite with ⟨hnone, -⟩ | ⟨-, hlong⟩
    · exact hnone
    · exact absurd hlong hshort

/-- Without a key that is too long the search comes to an answer, whatever number of steps above
that of the containers it may take, and the answer is none just where no container leads back into
itself; a path that it finds is that of keys and indexes leading through containers back to one of
them. A key that is too long is all that it can fail at. -/
theorem recursion?_exact (g : RawGraph) :
    (∀ index steps, g.nodes.size ≤ steps →
      g.searchBelow steps [index] index "" [] = g.searchBelow g.nodes.size [index] index "" []) ∧
    (g.recursion? = .ok none ↔ ¬ g.SelfContaining ∧ ¬ g.HasLongKey) ∧
    (∀ path, g.recursion? = .ok (some path) → g.RefersToItself path) ∧
    ∀ f, g.recursion? = .error f → f = .integerTooLong ∧ g.HasLongKey := by
  have hends := ends_recursion? g
  refine ⟨fun index steps => searchBelow_of_size_le, recursion?_eq_none, ?_, ?_⟩
  · intro path hfound
    rw [hfound] at hends
    exact hends.2 path rfl
  · intro f hfound
    rw [hfound] at hends
    exact hends

def invoice : RawGraph where
  nodes := #[.dict [(.str "buyer", .node 1), (.str "payer", .node 1), (.str "lines", .node 2)],
    .dict [(.str "name", .value (.str "Acme"))],
    .list [.value (.str "header"), .node 3],
    .dict [(.int 7, .node 1), (.str "invoice", .node 2)]]
  root := .node 0

/-- The shared buyer is no way back, the second line is one. -/
theorem recursion?_exact_invoice :
    invoice.recursion? = .ok (some "lines[1].invoice") ∧
      invoice.RefersToItself "lines[1].invoice" := by
  have hfound : invoice.recursion? = .ok (some "lines[1].invoice") := by decide +kernel
  exact ⟨hfound, (recursion?_exact invoice).2.2.1 _ hfound⟩

def numbered (n : Int) : RawGraph := ⟨#[.dict [(.int n, .value (.int 1))]], .node 0⟩

theorem not_selfContaining_numbered (n : Int) : ¬ (numbered n).SelfContaining := by
  rintro ⟨i, j, -, -, hloop⟩
  obtain ⟨k, ⟨node, hnode, hmem⟩, -⟩ := TransGen.head'_iff.mp hloop
  have hnodes : node ∈ (numbered n).nodes.toList :=
    Array.mem_toList_iff.mpr (Array.mem_of_getElem? hnode)
  obtain rfl := List.mem_singleton.mp hnodes
  simp [RawNode.items] at hmem

theorem recursion?_numbered {n : Int} (h : Text.integerTooLong n = true) :
    (numbered n).recursion? = .error .integerTooLong := by
  have hlong : (numbered n).HasLongKey := .node rfl .refl ⟨_, List.mem_singleton_self _, .inl h⟩
  rcases recursion?_of_finite (not_selfContaining_numbered n) with ⟨-, hshort⟩ | ⟨herror, -⟩
  · exact absurd hlong hshort
  · exact herror

/-- A mapping with a key of one digit too many is refused, though it does not contain itself. -/
theorem recursion?_longKey :
    (numbered (10 ^ Text.maxIntegerDigits)).recursion? = .error .integerTooLong ∧
      ¬ (numbered (10 ^ Text.maxIntegerDigits)).SelfContaining := by
  have hpow (n : Nat) : Nat.pow 10 n ≤ (10 ^ n : Int).natAbs := by
    rw [Int.natAbs_pow]
    exact Nat.le_refl _
  exact ⟨recursion?_numbered (decide_eq_true (hpow _)), not_selfContaining_numbered _⟩

end RawGraph

end AppSpec
