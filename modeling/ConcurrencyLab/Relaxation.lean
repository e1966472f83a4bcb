import ConcurrencyLab.Lts
import ConcurrencyLab.Walk
import Mathlib.Algebra.BigOperators.Group.Finset.Basic
import Mathlib.Algebra.Order.BigOperators.Group.Finset
import Mathlib.Data.Fintype.BigOperators

/-!
# ConcurrencyLab.Relaxation

Asynchronous relaxation in a weighted graph: every vertex keeps a table of distances
and now and then improves an entry of it by an edge and an entry of a neighbour,
which need not be up to date.  Any entry that the neighbour has ever had will do, and
entries of different age may be mixed.

- `relaxation_sound`: no entry is ever below the least total, nor above the entry
  that it replaces.
- `not_enabled_iff`: nothing is left to improve exactly when the tables are the least
  totals.
- `length_add_sum_le`: there are no more improvements than the entries have room to
  go down.
- `relaxation_past_le`: with light edges they have little room, since no entry is ever
  heavier than as many edges as there are vertices.
-/

namespace ConcurrencyLab

universe u

/-- The present entry for each vertex and destination, and those it has had. -/
structure Tables (V : Type u) where
  now : V → V → Nat
  past : V → V → Set Nat

/-- What is combined: `vertex` reads the entry `value` that `via` has, or has had, for
`dest`. -/
structure Reading (V : Type u) where
  vertex : V
  via : V
  dest : V
  value : Nat

namespace Tables

variable {V : Type u}

/-- The tables before the first improvement. -/
def start (first : V → V → Nat) : Tables V := ⟨first, fun i k => {first i k}⟩

open Classical in
/-- A new entry. -/
noncomputable def store (i k : V) (d : Nat) (t : Tables V) : Tables V where
  now a b := if a = i ∧ b = k then d else t.now a b
  past a b := if a = i ∧ b = k then insert d (t.past a b) else t.past a b

theorem store_now_self (i k : V) (d : Nat) (t : Tables V) : (t.store i k d).now i k = d :=
  if_pos ⟨rfl, rfl⟩

theorem store_now_of_ne {i k a b : V} (h : ¬ (a = i ∧ b = k)) (d : Nat) (t : Tables V) :
    (t.store i k d).now a b = t.now a b := if_neg h

/-- An improvement raises no entry. -/
theorem store_now_le {i k : V} {d : Nat} {t : Tables V} (hle : d ≤ t.now i k) (a b : V) :
    (t.store i k d).now a b ≤ t.now a b := by
  by_cases hcell : a = i ∧ b = k
  · obtain ⟨rfl, rfl⟩ := hcell
    rwa [store_now_self]
  · rw [store_now_of_ne hcell]

theorem mem_past_store {i k a b : V} {d e : Nat} {t : Tables V} :
    e ∈ (t.store i k d).past a b ↔ (a = i ∧ b = k ∧ e = d) ∨ e ∈ t.past a b := by
  unfold store
  dsimp only
  split_ifs with h
  · rw [Set.mem_insert_iff]
    tauto
  · tauto

end Tables

namespace Weighted

variable {V : Type u} (G : Weighted V) (first : V → V → Nat)

/-- A reading improves an entry. -/
def Improves (t : Tables V) (a : Reading V) : Prop :=
  G.edge a.vertex a.via ∧ a.value ∈ t.past a.via a.dest ∧
    G.cost a.vertex a.via + a.value < t.now a.vertex a.dest

open Classical in
/-- Asynchronous relaxation, started from `first`.  Each step reports the entry that it
improves. -/
noncomputable def relaxation : Lts (Tables V) (Reading V) (V × V) where
  init := .start first
  step t a :=
    if G.Improves t a then
      some ([(a.vertex, a.dest)], t.store a.vertex a.dest (G.cost a.vertex a.via + a.value))
    else none

variable {G first} {t t' : Tables V} {log es : List (V × V)} {a : Reading V}

theorem relaxation_step_iff : (G.relaxation first).step t a = some (es, t') ↔
    G.Improves t a ∧ es = [(a.vertex, a.dest)] ∧
      t' = t.store a.vertex a.dest (G.cost a.vertex a.via + a.value) := by
  simp only [relaxation, Option.ite_none_right_eq_some, Option.some.injEq, Prod.mk.injEq]
  constructor
  · rintro ⟨h, rfl, rfl⟩
    exact ⟨h, rfl, rfl⟩
  · rintro ⟨h, rfl, rfl⟩
    exact ⟨h, rfl, rfl⟩

/-- One improvement, executed. -/
theorem relaxation_exec (h : G.Improves t a) : (G.relaxation first).exec t [a] =
    some ([(a.vertex, a.dest)],
      t.store a.vertex a.dest (G.cost a.vertex a.via + a.value)) :=
  (Lts.exec_cons_eq_some _).mpr
    ⟨_, _, [], relaxation_step_iff.mpr ⟨h, rfl, rfl⟩, rfl, rfl⟩

/-! ## the entries -/

/-- What holds of all entries, old and new. -/
structure Sound (G : Weighted V) (first : V → V → Nat) (cap : Nat) (t : Tables V) : Prop where
  now_mem : ∀ i k, t.now i k ∈ t.past i k
  now_le : ∀ i k, ∀ d ∈ t.past i k, t.now i k ≤ d
  le_first : ∀ i k, ∀ d ∈ t.past i k, d ≤ first i k
  attained : ∀ i k, ∀ d ∈ t.past i k, G.Attained cap i k d

/-- **No entry is ever wrong**: each is the cap or the total of a walk, and they only go
down. -/
theorem relaxation_sound {cap : Nat} (hattained : ∀ i k, G.Attained cap i k (first i k))
    (hcap : ∀ i k, first i k ≤ cap) (h : (G.relaxation first).Run log t) :
    G.Sound first cap t := by
  refine h.invariant (P := fun _ t => G.Sound first cap t) ⟨?_, ?_, ?_, ?_⟩ ?_
  · exact fun i k => rfl
  · rintro i k d rfl
    exact Nat.le_refl _
  · rintro i k d rfl
    exact Nat.le_refl _
  · rintro i k d rfl
    exact hattained i k
  · rintro log t a es t' - hs hstep
    obtain ⟨⟨hedge, hpast, hlt⟩, -, rfl⟩ := relaxation_step_iff.mp hstep
    have hold := hs.le_first a.vertex a.dest _ (hs.now_mem a.vertex a.dest)
    have hbelow := hcap a.vertex a.dest
    constructor
    case now_mem =>
      intro i k
      rw [Tables.mem_past_store]
      by_cases hcell : i = a.vertex ∧ k = a.dest
      · obtain ⟨rfl, rfl⟩ := hcell
        exact .inl ⟨rfl, rfl, Tables.store_now_self _ _ _ _⟩
      · rw [Tables.store_now_of_ne hcell]
        exact .inr (hs.now_mem i k)
    case now_le =>
      intro i k d hd
      rcases Tables.mem_past_store.mp hd with ⟨rfl, rfl, rfl⟩ | hd
      · rw [Tables.store_now_self]
      · exact Nat.le_trans (Tables.store_now_le (Nat.le_of_lt hlt) i k) (hs.now_le i k d hd)
    case le_first =>
      intro i k d hd
      rcases Tables.mem_past_store.mp hd with ⟨rfl, rfl, rfl⟩ | hd
      · omega
      · exact hs.le_first i k d hd
    case attained =>
      intro i k d hd
      rcases Tables.mem_past_store.mp hd with ⟨rfl, rfl, rfl⟩ | hd
      · exact (hs.attained a.via a.dest _ hpast).cons hedge (by omega)
      · exact hs.attained i k d hd

/-! ## where it ends -/

theorem enabled_relaxation_iff : (G.relaxation first).Enabled t ↔ ∃ a, G.Improves t a := by
  constructor
  · rintro ⟨a, hsome⟩
    obtain ⟨⟨es, t'⟩, hs⟩ := Option.isSome_iff_exists.mp hsome
    exact ⟨a, (relaxation_step_iff.mp hs).1⟩
  · rintro ⟨a, ha⟩
    exact ⟨a, Option.isSome_iff_exists.mpr ⟨_, relaxation_step_iff.mpr ⟨ha, rfl, rfl⟩⟩⟩

/-- **Nothing is left to improve** just when the tables are the least totals. -/
theorem not_enabled_iff {cap : Nat} (hattained : ∀ i k, G.Attained cap i k (first i k))
    (hcap : ∀ i k, first i k ≤ cap) (hedge : ∀ i k, G.edge i k → first i k ≤ G.cost i k)
    (h : (G.relaxation first).Run log t) :
    ¬ (G.relaxation first).Enabled t ↔ ∀ i k, t.now i k = G.least cap i k := by
  have hs := relaxation_sound hattained hcap h
  have hfirst : ∀ i k, t.now i k ≤ first i k := fun i k => hs.le_first i k _ (hs.now_mem i k)
  rw [enabled_relaxation_iff]
  constructor
  · intro hstuck i k
    refine G.eq_least (hs.attained i k _ (hs.now_mem i k))
      (Nat.le_trans (hfirst i k) (hcap i k)) fun ms hw => ?_
    refine G.le_total_of_triangle (fun i j he => Nat.le_trans (hfirst i j) (hedge i j he))
      (fun i j k he => ?_) hw
    -- the present entry of the neighbour improves nothing
    by_contra hlt
    exact hstuck ⟨⟨i, j, k, t.now j k⟩, he, hs.now_mem j k, Nat.lt_of_not_le hlt⟩
  · rintro hleast ⟨a, he, hpast, hlt⟩
    have hvalue := G.least_le_of_attained (hs.attained a.via a.dest _ hpast)
    have hrelaxed := (G.least_attained cap a.via a.dest).cons he
    have hle := G.least_le_cap cap a.vertex a.dest
    rw [hleast] at hlt
    have hbest := G.least_le_of_attained (hrelaxed (by omega))
    omega

/-- **How many improvements there are**: each takes one off the sum of the entries. -/
theorem length_add_sum_le [Fintype V] (h : (G.relaxation first).Run log t) :
    log.length + ∑ i, ∑ k, t.now i k ≤ ∑ i, ∑ k, first i k := by
  classical
  refine h.invariant (P := fun log t => log.length + ∑ i, ∑ k, t.now i k ≤ ∑ i, ∑ k, first i k)
    ?_ ?_
  · rw [List.length_nil, Nat.zero_add]
    exact Nat.le_refl _
  · rintro log t a es t' - hle hstep
    obtain ⟨⟨-, -, hlt⟩, rfl, rfl⟩ := relaxation_step_iff.mp hstep
    have hcell := Tables.store_now_le (Nat.le_of_lt hlt)
    have hsum : ∑ i, ∑ k, (t.store a.vertex a.dest (G.cost a.vertex a.via + a.value)).now i k <
        ∑ i, ∑ k, t.now i k := by
      refine Finset.sum_lt_sum (fun i _ => Finset.sum_le_sum fun k _ => hcell i k)
        ⟨a.vertex, Finset.mem_univ _, Finset.sum_lt_sum (fun k _ => hcell a.vertex k)
          ⟨a.dest, Finset.mem_univ _, ?_⟩⟩
      rw [Tables.store_now_self]
      exact hlt
    rw [List.length_append, List.length_singleton]
    omega

/-! ## light edges -/

/-- The vertices that have found `k`. -/
def found [Fintype V] (cap : Nat) (t : Tables V) (k : V) : Finset V :=
  Finset.univ.filter fun i => t.now i k < cap

theorem mem_found [Fintype V] {cap : Nat} {i k : V} : i ∈ found cap t k ↔ t.now i k < cap := by
  simp [found]

/-- **Light edges keep the entries small**: an entry below the cap weighs no more than an
edge for each vertex.  For a vertex finds `k` by one edge more than another one that
had found it before, and from then on its entries go down. -/
theorem relaxation_past_le [Fintype V] {cap w : Nat}
    (hattained : ∀ i k, G.Attained cap i k (first i k)) (hcap : ∀ i k, first i k ≤ cap)
    (hfirst : ∀ i k, first i k < cap → first i k ≤ w) (hcost : ∀ i j, G.edge i j → G.cost i j ≤ w)
    (h : (G.relaxation first).Run log t) :
    ∀ i k, ∀ d ∈ t.past i k, d < cap → d ≤ w * (found cap t k).card := by
  classical
  refine h.invariant (P := fun _ t => ∀ i k, ∀ d ∈ t.past i k, d < cap →
    d ≤ w * (found cap t k).card) ?_ ?_
  · rintro i k d rfl hlt
    have hpos : 0 < (found cap (.start first) k).card := Finset.card_pos.mpr ⟨i, mem_found.mpr hlt⟩
    exact Nat.le_trans (hfirst i k hlt) (Nat.le_mul_of_pos_right w hpos)
  · rintro log t a es t' hr hle hstep
    obtain ⟨⟨hedge, hpast, hlt⟩, -, rfl⟩ := relaxation_step_iff.mp hstep
    have hs := relaxation_sound hattained hcap hr
    -- what is stored at `a.vertex`, and who has found `k` then
    generalize hstored : G.cost a.vertex a.via + a.value = stored at hlt ⊢
    have hsub : ∀ k, found cap t k ⊆ found cap (t.store a.vertex a.dest stored) k := by
      intro k i hi
      rw [mem_found] at hi ⊢
      exact Nat.lt_of_le_of_lt (Tables.store_now_le (Nat.le_of_lt hlt) i k) hi
    intro i k d hd hdcap
    have hmono := Nat.mul_le_mul_left w (Finset.card_le_card (hsub k))
    rcases Tables.mem_past_store.mp hd with ⟨rfl, rfl, rfl⟩ | hold
    · have hnew : a.vertex ∈ found cap (t.store a.vertex a.dest d) a.dest := by
        rw [mem_found, Tables.store_now_self]
        exact hdcap
      by_cases hfound : a.vertex ∈ found cap t a.dest
      · -- it only improves
        have hnow := hle a.vertex a.dest _ (hs.now_mem _ _) (mem_found.mp hfound)
        omega
      · -- it is one more
        have hcard : (found cap t a.dest).card + 1 ≤
            (found cap (t.store a.vertex a.dest d) a.dest).card := by
          rw [← Finset.card_insert_of_notMem hfound]
          exact Finset.card_le_card (Finset.insert_subset hnew (hsub a.dest))
        have hvalue := hle a.via a.dest a.value hpast (by omega)
        have hweight := hcost _ _ hedge
        calc d = G.cost a.vertex a.via + a.value := hstored.symm
          _ ≤ w * ((found cap t a.dest).card + 1) := by
            rw [Nat.mul_succ]
            omega
          _ ≤ w * (found cap (t.store a.vertex a.dest d) a.dest).card :=
            Nat.mul_le_mul_left w hcard
    · exact Nat.le_trans (hle i k d hold hdcap) hmono

end Weighted

end ConcurrencyLab
