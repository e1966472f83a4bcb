import ConcurrencyLab.Topology
import Mathlib.Logic.Equiv.Defs

/-!
# ConcurrencyLab.Solution

What the table of `floyd_warshall` is, apart from how it is computed.

It is the greatest table below the links that no detour undercuts
(`floydWarshall_isGreatest`).  So the algorithm is a closure: run again on its own
table it changes nothing (`floydWarshall_solved`), and how the drivers are numbered,
which decides the order of its loops, does not matter (`floydWarshall_relabel`).
-/

namespace ConcurrencyLab

namespace Topology

variable {n : Nat} (T : Topology n)

/-- A topology is its links. -/
theorem eq_of_link {T U : Topology n} (h : ∀ src dst, T.link src dst = U.link src dst) : T = U := by
  cases T
  cases U
  congr
  exact funext₂ h

/-- The tables that no detour undercuts. -/
def Triangle (d : Fin n → Fin n → Nat) : Prop := ∀ src via dst, d src dst ≤ d src via + d via dst

theorem floydWarshall_le_link (src dst : Fin n) : T.floydWarshall src dst ≤ T.link src dst := by
  rw [floydWarshall_eq_least]
  exact T.graph.least_le_of_attained (T.attained_link src dst)

theorem triangle_floydWarshall : Triangle T.floydWarshall.entry := by
  intro src via dst
  simp only [floydWarshall_eq_least]
  exact T.graph.least_triangle infDistance src via dst

/-- Whatever no detour undercuts and no link either is below the table. -/
theorem le_floydWarshall {d : Fin n → Fin n → Nat} (hlink : ∀ src dst, d src dst ≤ T.link src dst)
    (htri : Triangle d) (src dst : Fin n) : d src dst ≤ T.floydWarshall src dst := by
  rw [floydWarshall_eq_least]
  exact (T.graph.isGreatest_least infDistance).2
    ⟨fun src dst => Nat.le_trans (hlink src dst) (T.link_le src dst),
      fun src dst _ => hlink src dst, htri⟩ src dst

/-- **What the table is**: the greatest one below the links that has the triangle
inequality. -/
theorem floydWarshall_isGreatest :
    IsGreatest {d : Fin n → Fin n → Nat | (∀ src dst, d src dst ≤ T.link src dst) ∧ Triangle d}
      T.floydWarshall.entry :=
  ⟨⟨T.floydWarshall_le_link, T.triangle_floydWarshall⟩,
    fun _ hd src dst => T.le_floydWarshall hd.1 hd.2 src dst⟩

/-- The topology whose links are the distances of another one. -/
def solved : Topology n where
  link := T.floydWarshall.entry
  link_le src dst := Nat.le_trans (T.floydWarshall_le_link src dst) (T.link_le src dst)

/-- There is nothing left to relax in a solution. -/
theorem floydWarshall_solved : T.solved.floydWarshall = T.floydWarshall := by
  have hentry : T.solved.floydWarshall.entry = T.floydWarshall.entry := by
    refine le_antisymm T.solved.floydWarshall_le_link ?_
    exact T.solved.le_floydWarshall (fun _ _ => Nat.le_refl _) T.triangle_floydWarshall
  exact congrArg DistanceMatrix.mk hentry

/-! ## renumbering the drivers -/

/-- The topology in which driver `i` stands where `e i` stood. -/
def relabel (e : Fin n ≃ Fin n) : Topology n where
  link src dst := T.link (e src) (e dst)
  link_le src dst := T.link_le (e src) (e dst)

theorem le_floydWarshall_relabel (e : Fin n ≃ Fin n) (src dst : Fin n) :
    T.floydWarshall (e src) (e dst) ≤ (T.relabel e).floydWarshall src dst :=
  (T.relabel e).le_floydWarshall (d := fun src dst => T.floydWarshall (e src) (e dst))
    (fun src dst => T.floydWarshall_le_link (e src) (e dst))
    (fun src via dst => T.triangle_floydWarshall (e src) (e via) (e dst)) src dst

/-- **The numbering of the drivers does not matter**, although the loops of
`floyd_warshall` run in its order: the table of the renumbered topology is the
renumbered table. -/
theorem floydWarshall_relabel (e : Fin n ≃ Fin n) (src dst : Fin n) :
    (T.relabel e).floydWarshall src dst = T.floydWarshall (e src) (e dst) := by
  refine Nat.le_antisymm ?_ (T.le_floydWarshall_relabel e src dst)
  have hback := (T.relabel e).le_floydWarshall_relabel e.symm (e src) (e dst)
  have hid : (T.relabel e).relabel e.symm = T := by
    unfold relabel
    simp only [Equiv.apply_symm_apply]
  rwa [hid, Equiv.symm_apply_apply, Equiv.symm_apply_apply] at hback

end Topology

end ConcurrencyLab
