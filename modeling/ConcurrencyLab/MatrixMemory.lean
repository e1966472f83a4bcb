import ConcurrencyLab.Topology

/-!
# ConcurrencyLab.MatrixMemory

Where the matrices of `stress.c` lie in memory.

`topology` and `solution` are blocks of `sizeof(distance_t) * num_driver *
num_driver` bytes, indexed by `src * num_driver + dst`.  All of this is `size_t`
arithmetic, that is `UInt64`, and wraps; `create_topology` only checks that
`num_driver` is positive and that `malloc` succeeded.

* `InBlock` — every position of the matrix lies in the block, and no two
  coincide;
* `in_block_iff` — this holds of the sizes below `2 ^ 31` and of no others;
* `toMatrix_setDistance` — for those sizes a block is the `DistanceMatrix` that the
  other modules work with.
-/

namespace ConcurrencyLab

/-- The position in the block that the accessors of lines 22-36 compute. -/
def position (numDriver src dst : UInt64) : UInt64 := src * numDriver + dst

/-- The whole `distance_t` entries in a block of the size that lines 94 and 96
request, and that line 40 copies. -/
def requestedEntries (numDriver : UInt64) : Nat := (4 * numDriver * numDriver).toNat / 4

/-- A block as `malloc` returns it, or as it stands later. -/
abbrev DistanceBlock (numDriver : UInt64) := Vector Nat (requestedEntries numDriver)

/-- `get_link_distance` and `get_solution_distance`; `none` is an access outside
the block. -/
def getDistance {numDriver : UInt64} (block : DistanceBlock numDriver) (src dst : UInt64) :
    Option Nat := block[(position numDriver src dst).toNat]?

/-- `set_link_distance` and `set_solution_distance`. -/
def setDistance {numDriver : UInt64} (block : DistanceBlock numDriver) (src dst : UInt64)
    (distance : Nat) : Option (DistanceBlock numDriver) :=
  if h : (position numDriver src dst).toNat < requestedEntries numDriver then
    some (block.set (position numDriver src dst).toNat distance h)
  else none

/-- Every position of the matrix lies in the block, and different pairs have
different positions. -/
def InBlock (numDriver : UInt64) : Prop :=
  (∀ src dst, src < numDriver → dst < numDriver →
    (position numDriver src dst).toNat < requestedEntries numDriver) ∧
  ∀ src dst src' dst', src < numDriver → dst < numDriver → src' < numDriver → dst' < numDriver →
    position numDriver src dst = position numDriver src' dst' → src = src' ∧ dst = dst'

/-! ## row-major positions -/

/-- The position of the last column of a row is still inside the square. -/
theorem rowMajor_lt {n a b : Nat} (ha : a < n) (hb : b < n) : a * n + b < n * n := by
  have hrow : (a + 1) * n ≤ n * n := Nat.mul_le_mul_right n ha
  rw [Nat.succ_mul] at hrow
  omega

/-- A position determines its row and its column. -/
theorem rowMajor_inj {n a b c d : Nat} (hb : b < n) (hd : d < n) (h : a * n + b = c * n + d) :
    a = c ∧ b = d := by
  have hpos := Nat.zero_lt_of_lt hb
  rw [Nat.mul_comm a, Nat.mul_comm c] at h
  constructor
  · have hdiv := congrArg (· / n) h
    simpa only [Nat.mul_add_div hpos, Nat.div_eq_of_lt hb, Nat.div_eq_of_lt hd,
      Nat.add_zero] using hdiv
  · have hmod := congrArg (· % n) h
    simpa only [Nat.mul_add_mod, Nat.mod_eq_of_lt hb, Nat.mod_eq_of_lt hd] using hmod

/-! ## when the block is large enough -/

section Size

variable {numDriver : UInt64}

theorem toNat_position (src dst : UInt64) : (position numDriver src dst).toNat =
    (src.toNat * numDriver.toNat + dst.toNat) % 2 ^ 64 := by
  rw [position, UInt64.toNat_add, UInt64.toNat_mul, Nat.mod_add_mod]

theorem requestedEntries_eq : requestedEntries numDriver =
    (numDriver.toNat * numDriver.toNat) % 2 ^ 62 := by
  unfold requestedEntries
  rw [UInt64.toNat_mul, UInt64.toNat_mul, show (4 : UInt64).toNat = 4 from rfl, Nat.mod_mul_mod,
    Nat.mul_assoc]
  omega

/-- Below `2 ^ 31` nothing wraps. -/
theorem square_lt (hsmall : numDriver.toNat < 2 ^ 31) :
    numDriver.toNat * numDriver.toNat < 2 ^ 62 := by
  have hlt : numDriver.toNat * numDriver.toNat < 2 ^ 31 * 2 ^ 31 := Nat.mul_lt_mul'' hsmall hsmall
  omega

theorem toNat_position_of_lt (hsmall : numDriver.toNat < 2 ^ 31) {src dst : UInt64}
    (hsrc : src < numDriver) (hdst : dst < numDriver) :
    (position numDriver src dst).toNat = src.toNat * numDriver.toNat + dst.toNat := by
  have hlt := rowMajor_lt (UInt64.lt_iff_toNat_lt.mp hsrc) (UInt64.lt_iff_toNat_lt.mp hdst)
  have hsquare := square_lt hsmall
  rw [toNat_position, Nat.mod_eq_of_lt (by omega)]

theorem toNat_position_lt (hsmall : numDriver.toNat < 2 ^ 31) {src dst : UInt64}
    (hsrc : src < numDriver) (hdst : dst < numDriver) :
    (position numDriver src dst).toNat < requestedEntries numDriver := by
  rw [toNat_position_of_lt hsmall hsrc hdst, requestedEntries_eq,
    Nat.mod_eq_of_lt (square_lt hsmall)]
  exact rowMajor_lt (UInt64.lt_iff_toNat_lt.mp hsrc) (UInt64.lt_iff_toNat_lt.mp hdst)

theorem eq_of_position_eq (hsmall : numDriver.toNat < 2 ^ 31) {src dst src' dst' : UInt64}
    (hsrc : src < numDriver) (hdst : dst < numDriver) (hsrc' : src' < numDriver)
    (hdst' : dst' < numDriver)
    (heq : (position numDriver src dst).toNat = (position numDriver src' dst').toNat) :
    src = src' ∧ dst = dst' := by
  rw [toNat_position_of_lt hsmall hsrc hdst, toNat_position_of_lt hsmall hsrc' hdst'] at heq
  obtain ⟨ha, hb⟩ := rowMajor_inj (UInt64.lt_iff_toNat_lt.mp hdst)
    (UInt64.lt_iff_toNat_lt.mp hdst') heq
  exact ⟨UInt64.toNat_inj.mp ha, UInt64.toNat_inj.mp hb⟩

/-- **The matrices are large enough** exactly for the sizes whose square fits in
the block's own size computation. -/
theorem in_block_iff (numDriver : UInt64) : InBlock numDriver ↔ numDriver.toNat < 2 ^ 31 := by
  constructor
  · rintro ⟨hlt, -⟩
    by_contra hbig
    -- the square covers every number up to `2 ^ 62`, among them the size of the block
    have hsquare : 2 ^ 31 * 2 ^ 31 ≤ numDriver.toNat * numDriver.toNat :=
      Nat.mul_le_mul (by omega) (by omega)
    have hsize : requestedEntries numDriver < 2 ^ 62 := by
      rw [requestedEntries_eq]
      exact Nat.mod_lt _ (by decide)
    have hpos : 0 < numDriver.toNat := by omega
    have hrow : requestedEntries numDriver / numDriver.toNat < numDriver.toNat :=
      Nat.div_lt_of_lt_mul (by omega)
    have hcol := Nat.mod_lt (requestedEntries numDriver) hpos
    have hbound := UInt64.toNat_lt numDriver
    have hpair := hlt (.ofNat (requestedEntries numDriver / numDriver.toNat))
      (.ofNat (requestedEntries numDriver % numDriver.toNat))
    simp only [UInt64.lt_iff_toNat_lt, toNat_position, UInt64.toNat_ofNat',
      Nat.mod_eq_of_lt (Nat.lt_trans hrow hbound), Nat.mod_eq_of_lt (Nat.lt_trans hcol hbound),
      Nat.div_add_mod', Nat.mod_eq_of_lt (show requestedEntries numDriver < 2 ^ 64 by omega)]
      at hpair
    exact Nat.lt_irrefl _ (hpair hrow hcol)
  · intro hsmall
    constructor
    · exact fun src dst hsrc hdst => toNat_position_lt hsmall hsrc hdst
    · intro src dst src' dst' hsrc hdst hsrc' hdst' heq
      exact eq_of_position_eq hsmall hsrc hdst hsrc' hdst' (congrArg UInt64.toNat heq)

/-- A file whose first number is `2 ^ 61 + 1` passes every check with a block of one
entry; the second entry it stores goes behind that block. -/
theorem second_entry_out_of_block :
    ¬ ∀ numDriver : UInt64, 0 < numDriver → InBlock numDriver := by
  intro hall
  have hlt := (hall 2305843009213693953 (by decide)).1 0 1 (by decide) (by decide)
  exact absurd hlt (by decide)

end Size

/-! ## the block as a matrix -/

section Matrix

variable {numDriver : UInt64}

/-- A vertex as the `size_t` that names it. -/
def vertex (i : Fin numDriver.toNat) : UInt64 := .ofNat i

theorem toNat_vertex (i : Fin numDriver.toNat) : (vertex i).toNat = i := by
  rw [vertex, UInt64.toNat_ofNat', Nat.mod_eq_of_lt (Nat.lt_trans i.isLt (UInt64.toNat_lt _))]

theorem vertex_lt (i : Fin numDriver.toNat) : vertex i < numDriver := by
  rw [UInt64.lt_iff_toNat_lt, toNat_vertex]
  exact i.isLt

theorem position_lt (hsmall : numDriver.toNat < 2 ^ 31) (i j : Fin numDriver.toNat) :
    (position numDriver (vertex i) (vertex j)).toNat < requestedEntries numDriver :=
  toNat_position_lt hsmall (vertex_lt i) (vertex_lt j)

theorem position_inj (hsmall : numDriver.toNat < 2 ^ 31) {i j k l : Fin numDriver.toNat}
    (h : (position numDriver (vertex i) (vertex j)).toNat =
      (position numDriver (vertex k) (vertex l)).toNat) : i = k ∧ j = l := by
  obtain ⟨hik, hjl⟩ := eq_of_position_eq hsmall (vertex_lt i) (vertex_lt j) (vertex_lt k)
    (vertex_lt l) h
  have ha := congrArg UInt64.toNat hik
  have hb := congrArg UInt64.toNat hjl
  rw [toNat_vertex, toNat_vertex] at ha hb
  exact ⟨Fin.ext ha, Fin.ext hb⟩

/-- The matrix that a block holds. -/
def toMatrix (hsmall : numDriver.toNat < 2 ^ 31) (block : DistanceBlock numDriver) :
    DistanceMatrix numDriver.toNat where
  entry i j := block.get ⟨(position numDriver (vertex i) (vertex j)).toNat, position_lt hsmall i j⟩

/-- Reading an entry is reading the block. -/
theorem getDistance_eq (hsmall : numDriver.toNat < 2 ^ 31) (block : DistanceBlock numDriver)
    (i j : Fin numDriver.toNat) :
    getDistance block (vertex i) (vertex j) = some (toMatrix hsmall block i j) :=
  Vector.getElem?_eq_getElem (position_lt hsmall i j)

/-- Writing an entry writes that entry of the matrix and no other. -/
theorem toMatrix_setDistance (hsmall : numDriver.toNat < 2 ^ 31) (block : DistanceBlock numDriver)
    (i j : Fin numDriver.toNat) (d : Nat) :
    (setDistance block (vertex i) (vertex j) d).map (toMatrix hsmall) =
      some (Topology.setSolutionDistance i j d (toMatrix hsmall block)) := by
  rw [setDistance, dif_pos (position_lt hsmall i j), Option.map_some]
  refine congrArg (fun entry => some (DistanceMatrix.mk entry)) (funext₂ fun a b => ?_)
  have hab := position_lt hsmall a b
  show (block.set _ d _)[(position numDriver (vertex a) (vertex b)).toNat] = _
  by_cases hcell : a = i ∧ b = j
  · obtain ⟨rfl, rfl⟩ := hcell
    rw [Vector.getElem_set_self, Function.update_self, Function.update_self]
  · rw [Vector.getElem_set_ne]
    · by_cases ha : a = i
      · subst ha
        have hb : b ≠ j := fun hb => hcell ⟨rfl, hb⟩
        rw [Function.update_self, Function.update_of_ne hb]
        rfl
      · rw [Function.update_of_ne ha]
        rfl
    · intro heq
      obtain ⟨rfl, rfl⟩ := position_inj hsmall heq
      exact hcell ⟨rfl, rfl⟩

end Matrix

end ConcurrencyLab
