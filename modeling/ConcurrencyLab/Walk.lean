import Mathlib.Order.Lattice.Nat
import Mathlib.Data.Set.Insert

/-!
# ConcurrencyLab.Walk

Weighted directed graphs and the least total weight of a nonempty walk,
capped from above: the common meaning of an all-pairs algorithm and of a
distance-vector exchange.

A walk from `i` to `j` is given by the list of its intermediate vertices, so
`[]` is the single edge and every walk is nonempty; `i = j` is allowed and
then means a closed walk.  `least cap i j` is the smaller of `cap` and the
least total over all walks.

* `eq_least` — how an algorithm's value is recognised as `least`: it does not
  exceed the cap, it bounds every walk from below, and it is attained;
* `le_total_of_triangle` — the lower bound from first edges (distance vector);
* `le_total_insert` — the lower bound from one more intermediate vertex
  (Floyd-Warshall);
* `isGreatest_least` — the least total as the greatest values with the triangle
  inequality.
-/

namespace ConcurrencyLab

universe u

/-- A directed graph with edge costs; `cost i j` means nothing unless
`edge i j`. -/
structure Weighted (V : Type u) where
  edge : V → V → Prop
  cost : V → V → Nat

namespace Weighted

variable {V : Type u} (G : Weighted V)

/-- The edges from `i` through the listed vertices to `j` all exist. -/
def IsWalk : V → List V → V → Prop
  | i, [], j => G.edge i j
  | i, m :: ms, j => G.edge i m ∧ IsWalk m ms j

/-- Total cost of the edges from `i` through the listed vertices to `j`. -/
def total : V → List V → V → Nat
  | i, [], j => G.cost i j
  | i, m :: ms, j => G.cost i m + total m ms j

@[simp] theorem isWalk_nil (i j : V) : G.IsWalk i [] j ↔ G.edge i j := Iff.rfl

@[simp] theorem isWalk_cons (i j m : V) (ms : List V) :
    G.IsWalk i (m :: ms) j ↔ G.edge i m ∧ G.IsWalk m ms j := Iff.rfl

@[simp] theorem total_nil (i j : V) : G.total i [] j = G.cost i j := rfl

@[simp] theorem total_cons (i j m : V) (ms : List V) :
    G.total i (m :: ms) j = G.cost i m + G.total m ms j := rfl

/-- A walk splits at any of its intermediate vertices. -/
theorem isWalk_append (i j k : V) (as bs : List V) :
    G.IsWalk i (as ++ k :: bs) j ↔ G.IsWalk i as k ∧ G.IsWalk k bs j := by
  induction as generalizing i with
  | nil => simp
  | cons a as ih => simp [ih, and_assoc]

/-- The total of a walk is the sum of the totals of its two parts. -/
theorem total_append (i j k : V) (as bs : List V) :
    G.total i (as ++ k :: bs) j = G.total i as k + G.total k bs j := by
  induction as generalizing i with
  | nil => simp
  | cons a as ih => simp [ih, Nat.add_assoc]

/-! ## values that walks attain -/

/-- `d` is the cap or the exact total of some walk from `i` to `j`. -/
def Attained (cap : Nat) (i j : V) (d : Nat) : Prop :=
  d = cap ∨ ∃ ms, G.IsWalk i ms j ∧ G.total i ms j = d

variable {G}

theorem Attained.exists_walk {cap d : Nat} {i j : V} (h : G.Attained cap i j d) (hlt : d < cap) :
    ∃ ms, G.IsWalk i ms j ∧ G.total i ms j = d :=
  h.resolve_left (Nat.ne_of_lt hlt)

/-- An edge in front of an attained value: as long as the sum stays below the
cap it is attained again. -/
theorem Attained.cons {cap d : Nat} {i j k : V} (he : G.edge i k) (h : G.Attained cap k j d)
    (hlt : G.cost i k + d < cap) : G.Attained cap i j (G.cost i k + d) := by
  obtain ⟨ms, hw, rfl⟩ := h.exists_walk (by omega)
  exact .inr ⟨k :: ms, ⟨he, hw⟩, rfl⟩

/-- Two attained values in a row. -/
theorem Attained.append {cap d e : Nat} {i j k : V} (hd : G.Attained cap i k d)
    (he : G.Attained cap k j e) (hlt : d + e < cap) : G.Attained cap i j (d + e) := by
  obtain ⟨as, has, rfl⟩ := hd.exists_walk (by omega)
  obtain ⟨bs, hbs, rfl⟩ := he.exists_walk (by omega)
  exact .inr ⟨as ++ k :: bs, (G.isWalk_append i j k as bs).mpr ⟨has, hbs⟩,
    G.total_append i j k as bs⟩

variable (G)

/-! ## the least total -/

/-- The least total of a walk from `i` to `j`, but at most `cap`. -/
noncomputable def least (cap : Nat) (i j : V) : Nat :=
  sInf (insert cap {d | ∃ ms, G.IsWalk i ms j ∧ G.total i ms j = d})

theorem least_le_cap (cap : Nat) (i j : V) : G.least cap i j ≤ cap :=
  Nat.sInf_le (Set.mem_insert _ _)

theorem least_le_total (cap : Nat) {i j : V} {ms : List V} (h : G.IsWalk i ms j) :
    G.least cap i j ≤ G.total i ms j :=
  Nat.sInf_le (Set.mem_insert_of_mem _ ⟨ms, h, rfl⟩)

theorem least_attained (cap : Nat) (i j : V) : G.Attained cap i j (G.least cap i j) :=
  Nat.sInf_mem (Set.insert_nonempty _ _)

/-- Every attained value is at least the least one. -/
theorem least_le_of_attained {cap d : Nat} {i j : V} (h : G.Attained cap i j d) :
    G.least cap i j ≤ d := by
  rcases h with rfl | ⟨ms, hw, rfl⟩
  · exact G.least_le_cap _ i j
  · exact G.least_le_total cap hw

/-- A value is the least total when it is attained, does not exceed the cap
and bounds every walk from below. -/
theorem eq_least {cap d : Nat} {i j : V} (ha : G.Attained cap i j d) (hcap : d ≤ cap)
    (hle : ∀ ms, G.IsWalk i ms j → d ≤ G.total i ms j) : d = G.least cap i j := by
  refine Nat.le_antisymm ?_ (G.least_le_of_attained ha)
  rcases G.least_attained cap i j with h | ⟨ms, hw, h⟩
  · rw [h]; exact hcap
  · rw [← h]; exact hle ms hw

/-! ## lower bounds -/

/-- Values that respect every edge and every first edge bound all walks. -/
theorem le_total_of_triangle {d : V → V → Nat} (hedge : ∀ i j, G.edge i j → d i j ≤ G.cost i j)
    (htri : ∀ i k j, G.edge i k → d i j ≤ G.cost i k + d k j) {i j : V} {ms : List V}
    (h : G.IsWalk i ms j) : d i j ≤ G.total i ms j := by
  induction ms generalizing i with
  | nil => exact hedge i j h
  | cons m ms ih =>
      have htail := ih h.2
      have hhead := htri i m j h.1
      rw [total_cons]
      omega

/-- `d` bounds from below every walk whose intermediate vertices lie in `S`. -/
def BoundsWithin (S : Set V) (d : V → V → Nat) : Prop :=
  ∀ i j ms, G.IsWalk i ms j → (∀ m ∈ ms, m ∈ S) → d i j ≤ G.total i ms j

/-- With no intermediate vertex allowed there are only edges to bound. -/
theorem boundsWithin_empty {d : V → V → Nat} (h : ∀ i j, G.edge i j → d i j ≤ G.cost i j) :
    G.BoundsWithin ∅ d := by
  intro i j ms hw hS
  cases ms with
  | nil => exact h i j hw
  | cons m ms => exact absurd (hS m List.mem_cons_self) (Set.notMem_empty m)

/-- The part of a walk after the last visit of `k` costs at most the whole. -/
theorem exists_suffix_avoiding [DecidableEq V] (k j : V) (ms : List V) :
    ∀ i, G.IsWalk i ms j → k ∈ ms →
      ∃ bs, G.IsWalk k bs j ∧ k ∉ bs ∧ (∀ m ∈ bs, m ∈ ms) ∧ G.total k bs j ≤ G.total i ms j := by
  induction ms with
  | nil => intro i _ hk; cases hk
  | cons m ms ih =>
      intro i hw hk
      by_cases hms : k ∈ ms
      · obtain ⟨bs, hbs, hnot, hsub, hle⟩ := ih m hw.2 hms
        refine ⟨bs, hbs, hnot, fun x hx => List.mem_cons_of_mem m (hsub x hx), ?_⟩
        rw [total_cons]
        omega
      · have hkm : k = m := (List.mem_cons.mp hk).resolve_right hms
        subst hkm
        exact ⟨ms, hw.2, hms, fun x hx => List.mem_cons_of_mem k hx, Nat.le_add_left _ _⟩

/-- One round of Floyd-Warshall: values that also respect the detour over `k`
bound every walk through `S` and `k`, however often it visits `k`. -/
theorem le_total_insert [DecidableEq V] {S : Set V} {k : V} {d d' : V → V → Nat}
    (hd : G.BoundsWithin S d) (hle : ∀ i j, d' i j ≤ d i j)
    (hvia : ∀ i j, d' i j ≤ d i k + d k j) : G.BoundsWithin (insert k S) d' := by
  intro i j ms hw hS
  by_cases hk : k ∈ ms
  · -- cut at the first visit of `k`, then drop everything up to the last one
    obtain ⟨as, bs, rfl, hnot⟩ := List.eq_append_cons_of_mem hk
    have has : ∀ m ∈ as, m ∈ S := fun m hm =>
      (hS m (List.mem_append_left _ hm)).resolve_left fun h => hnot (h ▸ hm)
    obtain ⟨h₁, h₂⟩ := (G.isWalk_append i j k as bs).mp hw
    have hleft := hd i k as h₁ has
    have hright : d k j ≤ G.total k bs j := by
      by_cases hkb : k ∈ bs
      · obtain ⟨cs, hcs, hkc, hsub, hcost⟩ := G.exists_suffix_avoiding k j bs k h₂ hkb
        refine Nat.le_trans (hd k j cs hcs fun m hm => ?_) hcost
        have hm' := hS m (List.mem_append_right _ (List.mem_cons_of_mem k (hsub m hm)))
        exact hm'.resolve_left fun h => hkc (h ▸ hm)
      · exact hd k j bs h₂ fun m hm =>
          (hS m (List.mem_append_right _ (List.mem_cons_of_mem k hm))).resolve_left
            fun h => hkb (h ▸ hm)
    have := hvia i j
    rw [total_append]
    omega
  · exact Nat.le_trans (hle i j) (hd i j ms hw fun m hm =>
      (hS m hm).resolve_left fun h => hk (h ▸ hm))

/-! ## the least total as a closure -/

/-- A detour is no shorter. -/
theorem least_triangle (cap : Nat) (i k j : V) :
    G.least cap i j ≤ G.least cap i k + G.least cap k j := by
  by_cases hlt : G.least cap i k + G.least cap k j < cap
  · exact G.least_le_of_attained ((G.least_attained cap i k).append (G.least_attained cap k j) hlt)
  · have := G.least_le_cap cap i j
    omega

/-- **The universal property of the least total**: among the capped values that no
edge and no detour undercuts, it is the greatest. -/
theorem isGreatest_least (cap : Nat) :
    IsGreatest {d : V → V → Nat | (∀ i j, d i j ≤ cap) ∧ (∀ i j, G.edge i j → d i j ≤ G.cost i j) ∧
      ∀ i k j, d i j ≤ d i k + d k j} (G.least cap) := by
  constructor
  · exact ⟨G.least_le_cap cap, fun i j he => @least_le_total _ G cap i j [] he,
      G.least_triangle cap⟩
  · rintro d ⟨hcap, hedge, htri⟩ i j
    rcases G.least_attained cap i j with h | ⟨ms, hw, h⟩
    · rw [h]
      exact hcap i j
    · rw [← h]
      refine G.le_total_of_triangle hedge (fun i k j he => ?_) hw
      exact Nat.le_trans (htri i k j) (Nat.add_le_add_right (hedge i k he) _)

end Weighted

end ConcurrencyLab
