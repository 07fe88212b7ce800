import AppSpec.Graph.Basic
import Mathlib

/-!
Closed walks. Turning a cycle to its least node keeps its nodes and its arcs.
-/

namespace AppSpec

namespace Cycle

variable {R : String → String → Prop}

def closed (nodes : List String) : List String := nodes ++ nodes.take 1

structure Reported (R : String → String → Prop) (cycle : List String) : Prop where
  exists_nodes : ∃ v vs, cycle = closed (v :: vs) ∧ (v :: vs).Nodup ∧ ∀ n ∈ vs, v < n
  isChain : cycle.IsChain R

theorem least_mem (m : String) (ns : List String) : least m ns ∈ m :: ns := by
  induction ns generalizing m with
  | nil => simp [least]
  | cons n ns ih =>
      rw [least]
      rcases List.mem_cons.mp (ih (if n < m then n else m)) with h | h
      · rw [h]
        split <;> simp
      · exact List.mem_cons_of_mem _ (List.mem_cons_of_mem _ h)

theorem least_le (m : String) (ns : List String) : ∀ n ∈ m :: ns, least m ns ≤ n := by
  induction ns generalizing m with
  | nil => simp [least]
  | cons k ns ih =>
      have hmin : (if k < m then k else m) ≤ m ∧ (if k < m then k else m) ≤ k := by
        split
        · next h => exact ⟨le_of_lt h, le_rfl⟩
        · next h => exact ⟨le_rfl, not_lt.mp h⟩
      have hle := ih (if k < m then k else m)
      have hhead := hle _ List.mem_cons_self
      intro n hn
      rw [least]
      rcases List.mem_cons.mp hn with rfl | hn
      · exact hhead.trans hmin.1
      · rcases List.mem_cons.mp hn with rfl | hn
        · exact hhead.trans hmin.2
        · exact hle n (List.mem_cons_of_mem _ hn)

theorem isChain_closed_append (xs ys : List String) :
    (closed (xs ++ ys)).IsChain R ↔ (closed (ys ++ xs)).IsChain R := by
  cases xs with
  | nil => simp
  | cons x xs =>
      cases ys with
      | nil => simp
      | cons y ys =>
          have hx : (closed (x :: xs ++ y :: ys)).IsChain R ↔
              ((x :: xs) ++ [y]).IsChain R ∧ (y :: (ys ++ [x])).IsChain R := by
            rw [← List.isChain_split]
            simp [closed]
          have hy : (closed (y :: ys ++ x :: xs)).IsChain R ↔
              ((y :: ys) ++ [x]).IsChain R ∧ (x :: (xs ++ [y])).IsChain R := by
            rw [← List.isChain_split]
            simp [closed]
          rw [hx, hy, and_comm]
          rfl

theorem arcs_closed_append {xs ys : List String} {a b : String}
    (h : [a, b] <:+: closed (xs ++ ys)) : [a, b] <:+: closed (ys ++ xs) := by
  have hc : (closed (xs ++ ys)).IsChain fun x y => [x, y] <:+: closed (ys ++ xs) :=
    (isChain_closed_append xs ys).mpr (List.isChain_isInfix _)
  have hpair := hc.infix h
  rwa [List.isChain_pair] at hpair

theorem split_least (n : String) (ns : List String) :
    ∃ xs ys, n :: ns = xs ++ least n ns :: ys ∧
      normalize (n :: ns) = .ok (closed (least n ns :: ys ++ xs)) := by
  let start := (n :: ns).idxOf (least n ns)
  have hlt : start < (n :: ns).length := List.idxOf_lt_length_iff.mpr (least_mem n ns)
  have hdrop : (n :: ns).drop start = least n ns :: (n :: ns).drop (start + 1) := by
    rw [List.drop_eq_getElem_cons hlt, List.getElem_idxOf]
  refine ⟨(n :: ns).take start, (n :: ns).drop (start + 1), ?_, ?_⟩
  · rw [← hdrop, List.take_append_drop]
  · rw [← hdrop]
    rfl

theorem normalize_reported {nodes : List String} (hne : nodes ≠ []) (hd : nodes.Nodup)
    (hc : (closed nodes).IsChain R) :
    ∃ cycle, normalize nodes = .ok cycle ∧ Reported R cycle ∧
      ∀ a b, [a, b] <:+: closed nodes → [a, b] <:+: cycle := by
  obtain ⟨n, ns, rfl⟩ := List.exists_cons_of_ne_nil hne
  obtain ⟨xs, ys, hsplit, hnorm⟩ := split_least n ns
  have hperm : (least n ns :: ys ++ xs).Perm (n :: ns) := by
    rw [hsplit]
    exact List.perm_append_comm
  have hnodup := hperm.nodup_iff.mpr hd
  refine ⟨_, hnorm, ⟨⟨least n ns, ys ++ xs, rfl, hnodup, ?_⟩, ?_⟩, ?_⟩
  · intro k hk
    have hmem : k ∈ n :: ns := hperm.mem_iff.mp (List.mem_cons_of_mem _ hk)
    refine lt_of_le_of_ne (least_le n ns k hmem) ?_
    rintro rfl
    exact (List.nodup_cons.mp hnodup).1 hk
  · rw [hsplit] at hc
    exact (isChain_closed_append xs _).mp hc
  · intro a b h
    rw [hsplit] at h
    exact arcs_closed_append h

end Cycle

end AppSpec
