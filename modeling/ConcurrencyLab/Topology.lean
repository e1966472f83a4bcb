import ConcurrencyLab.Walk
import Mathlib.Logic.Function.Basic
import Mathlib.Data.Fintype.Basic
import Mathlib.Order.Bounds.Defs

/-!
# ConcurrencyLab.Topology

The link matrix of `stress.c` and `floyd_warshall`, the sequential algorithm
that computes the table the routers are checked against.

`distance_t` is a 32-bit unsigned integer: distances are natural numbers here
and every addition of the source is `add32`, which wraps.  `inf_distance` is an
ordinary number; `createTopology` clamps every scanned entry to it, which is the
invariant that `Topology` carries.

`floyd_warshall` overwrites one matrix in place.  Its correctness
(`floydWarshall_eq_least`) uses no stability of the row and column of the
current vertex, only that a round never raises an entry; as every sum it forms is
one of two capped entries, none wraps (`floydWarshall_exact`).
-/

namespace ConcurrencyLab

/-- `inf_distance` (line 14). -/
def infDistance : Nat := 0x7fffffff

/-- Addition of two `distance_t`. -/
def add32 (a b : Nat) : Nat := (a + b) % 2 ^ 32

/-- Two capped distances do not wrap when added. -/
theorem add32_eq {a b : Nat} (ha : a ≤ infDistance) (hb : b ≤ infDistance) :
    add32 a b = a + b := by
  unfold infDistance at ha hb
  exact Nat.mod_eq_of_lt (by omega)

/-- A `num_driver` by `num_driver` array of `distance_t`, indexed by source and
destination. -/
structure DistanceMatrix (n : Nat) where
  entry : Fin n → Fin n → Nat

instance (n : Nat) : CoeFun (DistanceMatrix n) fun _ => Fin n → Fin n → Nat :=
  ⟨DistanceMatrix.entry⟩

/-- The global `topology`, as it stands after `create_topology`: no entry
exceeds `inf_distance`. -/
structure Topology (n : Nat) where
  link : Fin n → Fin n → Nat
  link_le : ∀ i j, link i j ≤ infDistance

namespace Topology

variable {n : Nat}

/-- Lines 98-110 of `create_topology`: each scanned word is clamped. -/
def createTopology (scanned : Fin n → Fin n → Nat) : Topology n where
  link i j := if infDistance < scanned i j then infDistance else scanned i j
  link_le i j := by
    by_cases h : infDistance < scanned i j
    · rw [if_pos h]
    · rw [if_neg h]; omega

/-- The topology of a file with these rows. -/
def ofRows (n : Nat) (rows : List (List Nat)) : Topology n :=
  createTopology fun i j => (rows.getD i []).getD j infDistance

variable (T : Topology n)

/-- Finite links are two-way (their weights may differ). -/
def TwoWay : Prop := ∀ i j, T.link i j ≠ infDistance ↔ T.link j i ≠ infDistance

instance : Decidable T.TwoWay := by unfold TwoWay; infer_instance

/-- The graph of the finite links. -/
def graph : Weighted (Fin n) where
  edge i j := T.link i j ≠ infDistance
  cost := T.link

@[simp] theorem graph_edge (i j : Fin n) : T.graph.edge i j ↔ T.link i j ≠ infDistance := Iff.rfl

@[simp] theorem graph_cost (i j : Fin n) : T.graph.cost i j = T.link i j := rfl

/-- Every entry of the matrix is attained: it is the cap or a single edge. -/
theorem attained_link (i j : Fin n) : T.graph.Attained infDistance i j (T.link i j) := by
  by_cases h : T.link i j = infDistance
  · exact .inl h
  · exact .inr ⟨[], h, rfl⟩

/-! ## floyd_warshall -/

/-- `set_solution_distance`. -/
def setSolutionDistance (src dst : Fin n) (d : Nat) (solution : DistanceMatrix n) :
    DistanceMatrix n where
  entry := Function.update solution.entry src (Function.update (solution src) dst d)

theorem setSolutionDistance_apply (src dst a b : Fin n) (d : Nat) (solution : DistanceMatrix n) :
    setSolutionDistance src dst d solution a b =
      if a = src ∧ b = dst then d else solution a b := by
  unfold setSolutionDistance
  by_cases ha : a = src
  · subst ha
    by_cases hb : b = dst <;> simp [hb]
  · simp [ha]

/-- The body of the three nested loops (lines 44-46). -/
def relaxCell (intermediate src dst : Fin n) (solution : DistanceMatrix n) : DistanceMatrix n :=
  if add32 (solution src intermediate) (solution intermediate dst) < solution src dst then
    setSolutionDistance src dst
      (add32 (solution src intermediate) (solution intermediate dst)) solution
  else solution

/-- The two inner loops (lines 42-48). -/
def relaxRow (intermediate src : Fin n) (solution : DistanceMatrix n) : DistanceMatrix n :=
  (List.finRange n).foldl (fun sol dst => relaxCell intermediate src dst sol) solution

/-- One iteration of the outer loop. -/
def relaxRound (intermediate : Fin n) (solution : DistanceMatrix n) : DistanceMatrix n :=
  (List.finRange n).foldl (fun sol src => relaxRow intermediate src sol) solution

/-- `floyd_warshall`: `solution` starts as a copy of `topology`. -/
def floydWarshall : DistanceMatrix n :=
  (List.finRange n).foldl (fun sol intermediate => relaxRound intermediate sol) ⟨T.link⟩

end Topology

/-! ## folds that only move along a preorder -/

section Fold

universe u v
variable {α : Type u} {β : Type v} {f : β → α → β} {R : β → β → Prop}

/-- If every step moves along the preorder `R`, so does the fold. -/
theorem foldl_rel (hrefl : ∀ b, R b b) (htrans : ∀ {a b c}, R a b → R b c → R a c)
    (hstep : ∀ b a, R b (f b a)) (l : List α) (b : β) : R b (l.foldl f b) := by
  induction l generalizing b with
  | nil => exact hrefl b
  | cons a l ih => exact htrans (hstep b a) (ih (f b a))

/-- What the step for `a ∈ l` establishes, whatever came before it, and `R`
carries on, holds after the fold. -/
theorem foldl_establish (hrefl : ∀ b, R b b) (htrans : ∀ {a b c}, R a b → R b c → R a c)
    (hstep : ∀ b a, R b (f b a)) {Q : β → Prop} (hQ : ∀ {b c}, Q b → R b c → Q c)
    {l : List α} {a : α} (ha : a ∈ l) (b : β) (h : ∀ c, R b c → Q (f c a)) :
    Q (l.foldl f b) := by
  obtain ⟨as, bs, rfl⟩ := List.append_of_mem ha
  rw [List.foldl_append, List.foldl_cons]
  exact hQ (h _ (foldl_rel hrefl htrans hstep as b)) (foldl_rel hrefl htrans hstep bs _)

end Fold

namespace Topology

variable {n : Nat} (T : Topology n)

/-! ## correctness of floyd_warshall -/

/-- Every entry is capped and attained. -/
def TableSound (sol : DistanceMatrix n) : Prop :=
  ∀ i j, sol i j ≤ infDistance ∧ T.graph.Attained infDistance i j (sol i j)

/-- `sol'` is a later state of the table than `sol`: still sound, and no entry
has been raised. -/
def Lowers (sol sol' : DistanceMatrix n) : Prop :=
  T.TableSound sol → T.TableSound sol' ∧ ∀ i j, sol' i j ≤ sol i j

theorem tableSound_link : T.TableSound ⟨T.link⟩ :=
  fun i j => ⟨T.link_le i j, T.attained_link i j⟩

theorem lowers_refl (sol : DistanceMatrix n) : T.Lowers sol sol :=
  fun h => ⟨h, fun _ _ => Nat.le_refl _⟩

theorem Lowers.trans {T : Topology n} {a b c : DistanceMatrix n} (hab : T.Lowers a b)
    (hbc : T.Lowers b c) : T.Lowers a c := fun h =>
  have hb := hab h
  have hc := hbc hb.1
  ⟨hc.1, fun i j => Nat.le_trans (hc.2 i j) (hb.2 i j)⟩

/-- The cell just written respects the detour over the current vertex. -/
theorem relaxCell_le (k i j : Fin n) {sol : DistanceMatrix n} (h : T.TableSound sol) :
    relaxCell k i j sol i j ≤ sol i k + sol k j := by
  unfold relaxCell
  rw [add32_eq (h i k).1 (h k j).1]
  split
  · simp [setSolutionDistance_apply]
  · omega

theorem lowers_relaxCell (k i j : Fin n) (sol : DistanceMatrix n) :
    T.Lowers sol (relaxCell k i j sol) := by
  intro h
  unfold relaxCell
  rw [add32_eq (h i k).1 (h k j).1]
  split
  case isFalse => exact T.lowers_refl sol h
  case isTrue hlt =>
    have hcap := (h i j).1
    have hwalk := (h i k).2.append (h k j).2 (by omega)
    constructor
    · intro a b
      rw [setSolutionDistance_apply]
      split
      · next hab => obtain ⟨rfl, rfl⟩ := hab; exact ⟨by omega, hwalk⟩
      · exact h a b
    · intro a b
      rw [setSolutionDistance_apply]
      split
      · next hab => obtain ⟨rfl, rfl⟩ := hab; omega
      · exact Nat.le_refl _

theorem lowers_relaxRow (k i : Fin n) (sol : DistanceMatrix n) :
    T.Lowers sol (relaxRow k i sol) :=
  foldl_rel T.lowers_refl Lowers.trans (fun sol j => T.lowers_relaxCell k i j sol) _ sol

theorem lowers_relaxRound (k : Fin n) (sol : DistanceMatrix n) :
    T.Lowers sol (relaxRound k sol) :=
  foldl_rel T.lowers_refl Lowers.trans (fun sol i => T.lowers_relaxRow k i sol) _ sol

/-- After one iteration of the outer loop every entry respects the detour over
its vertex, measured in the table the iteration started from. -/
theorem relaxRound_le (k i j : Fin n) {sol : DistanceMatrix n} (h : T.TableSound sol) :
    relaxRound k sol i j ≤ sol i k + sol k j := by
  -- `Q` is the bound, once the table is known to be a later state of `sol`
  let Q (t : DistanceMatrix n) : Prop := T.TableSound t ∧ t i j ≤ sol i k + sol k j
  have hQ : ∀ {b c}, Q b → T.Lowers b c → Q c := fun hb hbc =>
    ⟨(hbc hb.1).1, Nat.le_trans ((hbc hb.1).2 i j) hb.2⟩
  have hcell : ∀ t, T.Lowers sol t → Q (relaxCell k i j t) := by
    intro t ht
    obtain ⟨hst, hle⟩ := ht h
    have hnew := T.relaxCell_le k i j hst
    have hik := hle i k
    have hkj := hle k j
    exact ⟨(T.lowers_relaxCell k i j t hst).1, by omega⟩
  have hrow : ∀ t, T.Lowers sol t → Q (relaxRow k i t) := fun t ht =>
    foldl_establish T.lowers_refl Lowers.trans (fun sol j => T.lowers_relaxCell k i j sol) hQ
      (List.mem_finRange j) t fun c hc => hcell c (ht.trans hc)
  exact (foldl_establish T.lowers_refl Lowers.trans (fun sol i => T.lowers_relaxRow k i sol) hQ
    (List.mem_finRange i) sol hrow).2

/-- After rounds for the vertices of `l`, the table bounds every walk through
those vertices. -/
theorem boundsWithin_rounds (l : List (Fin n)) (S : Set (Fin n)) (sol : DistanceMatrix n)
    (h : T.TableSound sol) (hb : T.graph.BoundsWithin S sol.entry) :
    T.graph.BoundsWithin (S ∪ {k | k ∈ l}) (l.foldl (fun sol k => relaxRound k sol) sol).entry := by
  induction l generalizing S sol with
  | nil => simpa using hb
  | cons k l ih =>
      obtain ⟨hs, hle⟩ := T.lowers_relaxRound k sol h
      have hround := T.graph.le_total_insert hb hle fun i j => T.relaxRound_le k i j h
      have hset : S ∪ {x | x ∈ k :: l} = insert k S ∪ {x | x ∈ l} := by
        ext x
        simp only [Set.mem_union, Set.mem_ofPred_eq, List.mem_cons, Set.mem_insert_iff]
        tauto
      rw [hset]
      exact ih (insert k S) (relaxRound k sol) hs hround

/-- **`floyd_warshall` is exact**: the table holds the least total of a nonempty
walk, or `inf_distance` where there is none below it. -/
theorem floydWarshall_eq_least (i j : Fin n) :
    T.floydWarshall i j = T.graph.least infDistance i j := by
  have hlow : T.Lowers ⟨T.link⟩ T.floydWarshall :=
    foldl_rel T.lowers_refl Lowers.trans (fun sol k => T.lowers_relaxRound k sol) _ _
  obtain ⟨hs, -⟩ := hlow T.tableSound_link
  have hb := T.boundsWithin_rounds (List.finRange n) ∅ ⟨T.link⟩ T.tableSound_link
    (T.graph.boundsWithin_empty fun i j _ => Nat.le_refl _)
  refine T.graph.eq_least (hs i j).2 (hs i j).1 fun ms hw => ?_
  exact hb i j ms hw fun m _ => Or.inr (List.mem_finRange m)

/-! ## no addition wraps -/

/-- The iterations of the three nested loops in the order in which they run: the
values of `intermediate`, `src` and `dst`. -/
def loopSteps (n : Nat) : List (Fin n × Fin n × Fin n) :=
  (List.finRange n).flatMap fun intermediate =>
    (List.finRange n).flatMap fun src =>
      (List.finRange n).map fun dst => (intermediate, src, dst)

/-- `solution` after the given iterations. -/
def solutionAfter (steps : List (Fin n × Fin n × Fin n)) : DistanceMatrix n :=
  steps.foldl (fun sol step => relaxCell step.1 step.2.1 step.2.2 sol) ⟨T.link⟩

theorem floydWarshall_eq_solutionAfter : T.floydWarshall = T.solutionAfter (loopSteps n) := by
  unfold floydWarshall solutionAfter loopSteps relaxRound relaxRow
  simp only [List.foldl_flatMap, List.foldl_map]

/-- Whatever iterations have run, every entry is capped and attained. -/
theorem tableSound_solutionAfter (steps : List (Fin n × Fin n × Fin n)) :
    T.TableSound (T.solutionAfter steps) :=
  (foldl_rel T.lowers_refl Lowers.trans (fun sol _ => T.lowers_relaxCell _ _ _ sol) steps _
    T.tableSound_link).1

/-- **`floyd_warshall` is exact in capped 32-bit arithmetic**: every entry is the
least of `inf_distance` and the totals of the walks, and the sum of every iteration
fits in a `distance_t`. -/
theorem floydWarshall_exact :
    (∀ src dst, IsLeast
      (insert infDistance {d | ∃ ms, T.graph.IsWalk src ms dst ∧ T.graph.total src ms dst = d})
      (T.floydWarshall src dst)) ∧
    (∀ src dst, (∀ ms, T.graph.IsWalk src ms dst → infDistance ≤ T.graph.total src ms dst) →
      T.floydWarshall src dst = infDistance) ∧
    T.floydWarshall = T.solutionAfter (loopSteps n) ∧
    (∀ before after intermediate src dst,
      loopSteps n = before ++ (intermediate, src, dst) :: after →
        T.solutionAfter before src intermediate + T.solutionAfter before intermediate dst <
          2 ^ 32) := by
  have hleast : ∀ src dst, IsLeast
      (insert infDistance {d | ∃ ms, T.graph.IsWalk src ms dst ∧ T.graph.total src ms dst = d})
      (T.floydWarshall src dst) := by
    intro src dst
    rw [floydWarshall_eq_least]
    constructor
    · exact T.graph.least_attained infDistance src dst
    · rintro d (rfl | ⟨ms, hw, rfl⟩)
      · exact T.graph.least_le_cap _ src dst
      · exact T.graph.least_le_total _ hw
  refine ⟨hleast, ?_, T.floydWarshall_eq_solutionAfter, ?_⟩
  · intro src dst hlong
    obtain ⟨hmem, hlow⟩ := hleast src dst
    refine Nat.le_antisymm (hlow (Set.mem_insert _ _)) ?_
    rcases hmem with heq | ⟨ms, hw, heq⟩
    · exact heq.ge
    · rw [← heq]
      exact hlong ms hw
  · intro before after intermediate src dst _
    have hsound := T.tableSound_solutionAfter before
    have hleft := (hsound src intermediate).1
    have hright := (hsound intermediate dst).1
    unfold infDistance at hleft hright
    omega

end Topology

end ConcurrencyLab
