import ConcurrencyLab.Solution
import Mathlib.Combinatorics.SimpleGraph.Connectivity.Finite
import Mathlib.Combinatorics.SimpleGraph.Metric

/-!
# ConcurrencyLab.HopCount

Topologies whose links all have weight one: the table of `floyd_warshall` is the
distance in the graph of the links, that is the least number of hops
(`floydWarshall_ofGraph`).
-/

namespace ConcurrencyLab

variable {n : Nat} (G : SimpleGraph (Fin n))

open Classical in
/-- The topology of a graph: `0` to itself, `1` to a neighbour. -/
noncomputable def Topology.ofGraph : Topology n where
  link a b := if a = b then 0 else if G.Adj a b then 1 else infDistance
  link_le a b := by
    unfold infDistance
    split_ifs <;> omega

open Classical in
/-- The least number of hops, as far as a table can hold it. -/
noncomputable def hops (a b : Fin n) : Nat :=
  if G.Reachable a b then min (G.dist a b) infDistance else infDistance

namespace Topology

open Classical in
theorem ofGraph_link (a b : Fin n) :
    (ofGraph G).link a b = if a = b then 0 else if G.Adj a b then 1 else infDistance := rfl

theorem ofGraph_link_self (a : Fin n) : (ofGraph G).link a a = 0 := if_pos rfl

theorem ofGraph_link_adj {a b : Fin n} (h : G.Adj a b) : (ofGraph G).link a b = 1 := by
  simp [ofGraph_link, h, h.ne]

/-- A table with the triangle inequality is below the length of every walk. -/
theorem floydWarshall_le_length {a b : Fin n} (w : G.Walk a b) :
    (ofGraph G).floydWarshall a b ≤ w.length := by
  induction w with
  | @nil a =>
      have hlink := (ofGraph G).floydWarshall_le_link a a
      rwa [ofGraph_link_self] at hlink
  | @cons a m b hadj w ih =>
      have hlink := (ofGraph G).floydWarshall_le_link a m
      have htri := (ofGraph G).triangle_floydWarshall a m b
      rw [ofGraph_link_adj G hadj] at hlink
      rw [SimpleGraph.Walk.length_cons]
      omega

theorem hops_le_link (a b : Fin n) : hops G a b ≤ (ofGraph G).link a b := by
  by_cases hab : a = b
  · subst hab
    simp [hops]
  · by_cases hadj : G.Adj a b
    · rw [ofGraph_link_adj G hadj, hops, if_pos hadj.reachable,
        SimpleGraph.dist_eq_one_iff_adj.mpr hadj]
      exact Nat.min_le_left _ _
    · have hlink : (ofGraph G).link a b = infDistance := by simp [ofGraph_link, hab, hadj]
      rw [hlink, hops]
      split_ifs
      · exact Nat.min_le_right _ _
      · exact Nat.le_refl _

theorem triangle_hops : Triangle (hops G) := by
  intro a m b
  unfold hops
  by_cases ham : G.Reachable a m
  · by_cases hmb : G.Reachable m b
    · rw [if_pos ham, if_pos hmb, if_pos (ham.trans hmb)]
      have := ham.dist_triangle_left b
      omega
    · rw [if_neg hmb]
      split_ifs <;> omega
  · rw [if_neg ham]
    split_ifs <;> omega

/-- **With unit weights the table counts hops.** -/
theorem floydWarshall_ofGraph (a b : Fin n) : (ofGraph G).floydWarshall a b = hops G a b := by
  have hcap := Nat.le_trans ((ofGraph G).floydWarshall_le_link a b) ((ofGraph G).link_le a b)
  have hlow := (ofGraph G).le_floydWarshall (hops_le_link G) (triangle_hops G) a b
  refine Nat.le_antisymm ?_ hlow
  unfold hops
  split_ifs with hreach
  · obtain ⟨w, hw⟩ := hreach.exists_walk_length_eq_dist
    have hlen := floydWarshall_le_length G w
    rw [hw] at hlen
    exact Nat.le_min.mpr ⟨hlen, hcap⟩
  · exact hcap

end Topology

end ConcurrencyLab
