import ConcurrencyLab.MatrixMemory
import ConcurrencyLab.SizeLoop
import ConcurrencyLab.TopologyFile

/-!
# ConcurrencyLab.TopologyBlocks

`create_topology` and `floyd_warshall` on the memory they work on: two blocks from
`malloc`, indexed by `size_t` arithmetic, filled and updated in place by counting
loops.

The models of `ConcurrencyLab.Topology` and `ConcurrencyLab.TopologyFile` speak of
matrices.  Below `2 ^ 31` drivers the blocks are these matrices
(`createBlocks_represents`): no access leaves a block, whatever `malloc` has left in
it is overwritten before it is read, and the same assertion fails for the same files.

* `relaxBlock`, `floydWarshallBlock` — lines 38-50;
* `populateEntry`, `fillBlocks`, `createBlocks` — lines 82-117.
-/

namespace ConcurrencyLab

open Scanner

/-! ## the functions of stress.c -/

/-- Why `create_topology` does not return: an assertion on what it has read, one on
what `malloc` has returned, or an access outside a block. -/
inductive BlockFailure
  | assertion (a : Assertion)
  | allocation
  | outOfBlock
deriving DecidableEq

/-- An access to a block. -/
def access {α : Type} (o : Option α) : Except BlockFailure α :=
  match o with
  | some a => .ok a
  | none => .error .outOfBlock

section Functions

variable {numDriver : UInt64}

/-- The body of the three nested loops (lines 44-46). -/
def relaxBlock (intermediate src dst : UInt64) (solution : DistanceBlock numDriver) :
    Except BlockFailure (DistanceBlock numDriver) := do
  let left ← access (getDistance solution src intermediate)
  let right ← access (getDistance solution intermediate dst)
  let direct ← access (getDistance solution src dst)
  if add32 left right < direct then access (setDistance solution src dst (add32 left right))
  else pure solution

/-- `floyd_warshall`.  The two blocks have the size that `memcpy` copies, so `solution`
starts as the whole block `topology`. -/
def floydWarshallBlock (topology : DistanceBlock numDriver) :
    Except BlockFailure (DistanceBlock numDriver) :=
  forSize numDriver (fun intermediate solution =>
    forSize numDriver (fun src solution =>
      forSize numDriver (fun dst solution => relaxBlock intermediate src dst solution) 0 solution)
      0 solution) 0 topology

/-- The body of the loops of lines 99-110, with the rest of the file. -/
def populateEntry (src dst : UInt64) (s : DistanceBlock numDriver × List Char) :
    Except BlockFailure (DistanceBlock numDriver × List Char) :=
  match scanNumber.map toDistance s.2 with
  | none => .error (.assertion .numScanned)
  | some (distance, text) => do
      let distance := if infDistance < distance then infDistance else distance
      let block ← access (setDistance s.1 src dst distance)
      pure (block, text)

/-- Lines 98-111. -/
def populate (topology : DistanceBlock numDriver) (text : List Char) :
    Except BlockFailure (DistanceBlock numDriver × List Char) :=
  forSize numDriver (fun src s => forSize numDriver (fun dst s => populateEntry src dst s) 0 s) 0
    (topology, text)

end Functions

/-- The globals that `create_topology` leaves behind, and what is left of the file. -/
structure Blocks where
  numDriver : UInt64
  topology : DistanceBlock numDriver
  solution : DistanceBlock numDriver
  unread : List Char

/-- What `malloc` returns for a matrix: `NULL`, or a block with any contents. -/
abbrev Malloc := (numDriver : UInt64) → Option (DistanceBlock numDriver)

/-- Lines 94-115, the two `malloc`s being those of lines 94 and 96. -/
def fillBlocks (malloc₁ malloc₂ : Malloc) (numDriver : UInt64) (text : List Char) :
    Except BlockFailure Blocks :=
  match malloc₁ numDriver, malloc₂ numDriver with
  | some topology, some _ => do
      let s ← populate topology text
      let solution ← floydWarshallBlock s.1
      pure { numDriver, topology := s.1, solution, unread := s.2 }
  | _, _ => .error .allocation

/-- `create_topology` on the text of the file it has opened. -/
def createBlocks (malloc₁ malloc₂ : Malloc) (text : List Char) : Except BlockFailure Blocks :=
  match scanNumber.map toSize text with
  | none => .error (.assertion .numScanned)
  | some (num, text) =>
      if 0 < UInt64.ofNat num then fillBlocks malloc₁ malloc₂ (.ofNat num) text
      else .error (.assertion .numDriver)

/-! ## floyd_warshall in its block -/

section Refinement

variable {numDriver : UInt64} (hsmall : numDriver.toNat < 2 ^ 31)

/-- Writing succeeds, and writes the entry of the matrix. -/
theorem access_setDistance (block : DistanceBlock numDriver) (i j : Fin numDriver.toNat) (d : Nat) :
    ∃ block', access (setDistance block (vertex i) (vertex j) d) = .ok block' ∧
      toMatrix hsmall block' = Topology.setSolutionDistance i j d (toMatrix hsmall block) := by
  obtain ⟨block', hset, hmatrix⟩ :=
    Option.map_eq_some_iff.mp (toMatrix_setDistance hsmall block i j d)
  exact ⟨block', by rw [hset]; rfl, hmatrix⟩

theorem relaxBlock_spec (k i j : Fin numDriver.toNat) (block : DistanceBlock numDriver) :
    ∃ block', relaxBlock (vertex k) (vertex i) (vertex j) block = .ok block' ∧
      toMatrix hsmall block' = Topology.relaxCell k i j (toMatrix hsmall block) := by
  have hread : relaxBlock (vertex k) (vertex i) (vertex j) block =
      if add32 (toMatrix hsmall block i k) (toMatrix hsmall block k j) <
          toMatrix hsmall block i j then
        access (setDistance block (vertex i) (vertex j)
          (add32 (toMatrix hsmall block i k) (toMatrix hsmall block k j)))
      else pure block := by
    simp only [relaxBlock, getDistance_eq hsmall]
    rfl
  rw [hread, Topology.relaxCell]
  split
  · exact access_setDistance hsmall block i j _
  · exact ⟨block, rfl, rfl⟩

/-- **`floyd_warshall` in memory**: no access leaves the block, and the block ends as the
matrix that the loops compute. -/
theorem floydWarshallBlock_spec (T : Topology numDriver.toNat) {topology : DistanceBlock numDriver}
    (hlink : toMatrix hsmall topology = ⟨T.link⟩) :
    ∃ solution, floydWarshallBlock topology = .ok solution ∧
      toMatrix hsmall solution = T.floydWarshall := by
  unfold floydWarshallBlock Topology.floydWarshall Topology.relaxRound Topology.relaxRow
  simp only [forSize_eq_foldlM]
  refine foldlM_simulates (R := fun block sol => toMatrix hsmall block = sol) ?_ _ hlink
  rintro block _ k rfl
  refine foldlM_simulates (R := fun block sol => toMatrix hsmall block = sol) ?_ _ rfl
  rintro block _ i rfl
  refine foldlM_simulates (R := fun block sol => toMatrix hsmall block = sol) ?_ _ rfl
  rintro block _ j rfl
  exact relaxBlock_spec hsmall k i j block

/-! ## filling the block -/

/-- What is stored for a scanned number. -/
def clamp (distance : Nat) : Nat := if infDistance < distance then infDistance else distance

theorem populateEntry_ok (i j : Fin numDriver.toNat) (block : DistanceBlock numDriver)
    {text rest : List Char} {d : Nat} (hscan : scanNumber.map toDistance text = some (d, rest)) :
    ∃ block', populateEntry (vertex i) (vertex j) (block, text) = .ok (block', rest) ∧
      toMatrix hsmall block' =
        Topology.setSolutionDistance i j (clamp d) (toMatrix hsmall block) := by
  obtain ⟨block', hset, hmatrix⟩ := access_setDistance hsmall block i j (clamp d)
  refine ⟨block', ?_, hmatrix⟩
  unfold clamp at hset
  simp only [populateEntry, hscan, hset]
  rfl

/-- What a row of numbers leaves in a block: itself in the given columns of row `i`. -/
structure RowFilled (i : Fin numDriver.toNat) (ks : List (Fin numDriver.toNat)) (ds : List Nat)
    (block block' : DistanceBlock numDriver) : Prop where
  entry : ∀ p ∈ ks.zip ds, toMatrix hsmall block' i p.1 = clamp p.2
  frame : ∀ a b, a ≠ i ∨ b ∉ ks → toMatrix hsmall block' a b = toMatrix hsmall block a b

/-- The inner loop stores the numbers it scans, in the columns it runs through. -/
theorem populateRow_ok (i : Fin numDriver.toNat) {ks : List (Fin numDriver.toNat)} (hks : ks.Nodup)
    (block : DistanceBlock numDriver) {text rest : List Char} {ds : List Nat}
    (hscan : (scanNumber.map toDistance).many ks.length text = some (ds, rest)) :
    ∃ block', ks.foldlM (fun s k => populateEntry (vertex i) (vertex k) s) (block, text) =
      .ok (block', rest) ∧ RowFilled hsmall i ks ds block block' := by
  induction ks generalizing block text ds with
  | nil =>
      obtain ⟨rfl, rfl⟩ := Prod.mk.inj (Option.some.inj hscan)
      exact ⟨block, rfl, fun p hp => (by cases hp), fun a b _ => rfl⟩
  | cons k ks ih =>
      obtain ⟨hk, hnodup⟩ := List.nodup_cons.mp hks
      obtain ⟨d, mid, ds', hd, hds, rfl⟩ := many_succ_eq_some_iff.mp hscan
      obtain ⟨block₁, hfirst, hmatrix⟩ := populateEntry_ok hsmall i k block hd
      obtain ⟨block', hrest, hfilled⟩ := ih hnodup block₁ hds
      refine ⟨block', ?_, fun p hp => ?_, fun a b hab => ?_⟩
      · rw [List.foldlM_cons, hfirst]
        exact hrest
      · rcases List.mem_cons.mp hp with rfl | htail
        · -- the later columns are other ones
          rw [hfilled.frame i k (.inr hk), hmatrix, Topology.setSolutionDistance_apply,
            if_pos ⟨rfl, rfl⟩]
        · exact hfilled.entry p htail
      · rw [List.mem_cons, not_or] at hab
        have hne : ¬ (a = i ∧ b = k) := fun h => hab.elim (· h.1) (·.1 h.2)
        rw [hfilled.frame a b (hab.imp_right (·.2)), hmatrix, Topology.setSolutionDistance_apply,
          if_neg hne]

include hsmall in
/-- Without a number the assertion fails, whatever the block holds. -/
theorem populateRow_error (i : Fin numDriver.toNat) (ks : List (Fin numDriver.toNat))
    (block : DistanceBlock numDriver) {text : List Char}
    (hscan : (scanNumber.map toDistance).many ks.length text = none) :
    ks.foldlM (fun s k => populateEntry (vertex i) (vertex k) s) (block, text) =
      .error (.assertion .numScanned) := by
  induction ks generalizing block text with
  | nil => cases hscan
  | cons k ks ih =>
      rw [List.foldlM_cons]
      cases hd : scanNumber.map toDistance text with
      | none =>
          simp only [populateEntry, hd]
          rfl
      | some r =>
          obtain ⟨d, mid⟩ := r
          obtain ⟨block₁, hfirst, -⟩ := populateEntry_ok hsmall i k block hd
          rw [hfirst]
          refine ih block₁ ?_
          by_contra hne
          obtain ⟨⟨ds, rest⟩, hds⟩ := Option.ne_none_iff_exists'.mp hne
          rw [List.length_cons, many_succ hd hds] at hscan
          cases hscan

/-- What rows of numbers leave in a block. -/
structure RowsFilled (is : List (Fin numDriver.toNat)) (rows : List (List Nat))
    (block block' : DistanceBlock numDriver) : Prop where
  entry : ∀ r ∈ is.zip rows, ∀ p ∈ (List.finRange numDriver.toNat).zip r.2,
    toMatrix hsmall block' r.1 p.1 = clamp p.2
  frame : ∀ a, a ∉ is → ∀ b, toMatrix hsmall block' a b = toMatrix hsmall block a b

/-- The loop over the rows, as a fold. -/
def populateRows (is : List (Fin numDriver.toNat)) (s : DistanceBlock numDriver × List Char) :
    Except BlockFailure (DistanceBlock numDriver × List Char) :=
  is.foldlM (fun s i => (List.finRange numDriver.toNat).foldlM
    (fun s j => populateEntry (vertex i) (vertex j) s) s) s

theorem populate_eq_populateRows (block : DistanceBlock numDriver) (text : List Char) :
    populate block text = populateRows (List.finRange numDriver.toNat) (block, text) := by
  simp only [populate, forSize_eq_foldlM]
  rfl

theorem populateRows_ok {is : List (Fin numDriver.toNat)} (his : is.Nodup)
    (block : DistanceBlock numDriver) {text rest : List Char} {rows : List (List Nat)}
    (hscan : ((scanNumber.map toDistance).many numDriver.toNat).many is.length text =
      some (rows, rest)) :
    ∃ block', populateRows is (block, text) = .ok (block', rest) ∧
      RowsFilled hsmall is rows block block' := by
  induction is generalizing block text rows with
  | nil =>
      obtain ⟨rfl, rfl⟩ := Prod.mk.inj (Option.some.inj hscan)
      exact ⟨block, rfl, fun r hr => (by cases hr), fun a _ b => rfl⟩
  | cons i is ih =>
      obtain ⟨hi, hnodup⟩ := List.nodup_cons.mp his
      obtain ⟨row, mid, rows', hrow, hrows, rfl⟩ := many_succ_eq_some_iff.mp hscan
      have hcols : (scanNumber.map toDistance).many (List.finRange numDriver.toNat).length text =
          some (row, mid) := by
        rw [List.length_finRange]
        exact hrow
      obtain ⟨block₁, hfirst, hone⟩ := populateRow_ok hsmall i (List.nodup_finRange _) block hcols
      obtain ⟨block', hrest, hfilled⟩ := ih hnodup block₁ hrows
      refine ⟨block', ?_, fun r hr p hp => ?_, fun a ha b => ?_⟩
      · rw [populateRows, List.foldlM_cons, hfirst]
        exact hrest
      · rcases List.mem_cons.mp hr with rfl | htail
        · rw [hfilled.frame i hi]
          exact hone.entry p hp
        · exact hfilled.entry r htail p hp
      · rw [List.mem_cons, not_or] at ha
        rw [hfilled.frame a ha.2, hone.frame a b (.inl ha.1)]

include hsmall in
theorem populateRows_error (is : List (Fin numDriver.toNat)) (block : DistanceBlock numDriver)
    {text : List Char}
    (hscan : ((scanNumber.map toDistance).many numDriver.toNat).many is.length text = none) :
    populateRows is (block, text) = .error (.assertion .numScanned) := by
  induction is generalizing block text with
  | nil => cases hscan
  | cons i is ih =>
      rw [populateRows, List.foldlM_cons]
      cases hrow : (scanNumber.map toDistance).many numDriver.toNat text with
      | none =>
          rw [populateRow_error hsmall i _ block (by rwa [List.length_finRange])]
          rfl
      | some r =>
          obtain ⟨row, mid⟩ := r
          have hcols :
              (scanNumber.map toDistance).many (List.finRange numDriver.toNat).length text =
                some (row, mid) := by
            rw [List.length_finRange]
            exact hrow
          obtain ⟨block₁, hfirst, -⟩ := populateRow_ok hsmall i (List.nodup_finRange _) block hcols
          rw [hfirst]
          refine ih block₁ ?_
          by_contra hne
          obtain ⟨⟨rows, rest⟩, hrows⟩ := Option.ne_none_iff_exists'.mp hne
          rw [List.length_cons, many_succ hrow hrows] at hscan
          cases hscan

/-- A list and the numbers of its places, side by side. -/
theorem mem_zip_finRange {α : Type} {n : Nat} {l : List α} (hl : l.length = n) (k : Fin n) (a : α) :
    (k, l.getD k a) ∈ (List.finRange n).zip l := by
  have hk : k.val < l.length := by rw [hl]; exact k.isLt
  refine List.mem_iff_getElem.mpr ⟨k.val, ?_, ?_⟩
  · rw [List.length_zip, List.length_finRange, hl, Nat.min_self]
    exact k.isLt
  · rw [List.getElem_zip, List.getElem_finRange, List.getD_eq_getElem?_getD,
      List.getElem?_eq_getElem hk]
    rfl

/-- Every row that has been read has as many items as were asked for. -/
theorem forall_length_of_many {α : Type} {scan : Scanner α} {j k : Nat} {rows : List (List α)}
    {text rest : List Char} (h : (scan.many k).many j text = some (rows, rest)) :
    ∀ row ∈ rows, row.length = k := by
  induction j generalizing text rows with
  | zero =>
      obtain ⟨rfl, rfl⟩ := Prod.mk.inj (Option.some.inj h)
      intro row hrow
      cases hrow
  | succ j ih =>
      obtain ⟨row, mid, rows', hrow, hrows, rfl⟩ := many_succ_eq_some_iff.mp h
      intro r hr
      rcases List.mem_cons.mp hr with rfl | htail
      · exact length_of_many hrow
      · exact ih hrows r htail

/-- The filled block is the topology of the rows. -/
theorem RowsFilled.toMatrix_eq {rows : List (List Nat)} {block block' : DistanceBlock numDriver}
    (h : RowsFilled hsmall (List.finRange numDriver.toNat) rows block block')
    (hrows : rows.length = numDriver.toNat) (hrow : ∀ row ∈ rows, row.length = numDriver.toNat) :
    toMatrix hsmall block' = ⟨(Topology.ofRows numDriver.toNat rows).link⟩ := by
  have hcell : ∀ i j, toMatrix hsmall block' i j = clamp ((rows.getD i []).getD j infDistance) := by
    intro i j
    have hmem : rows.getD i [] ∈ rows := by
      have hi : i.val < rows.length := by rw [hrows]; exact i.isLt
      rw [List.getD_eq_getElem?_getD, List.getElem?_eq_getElem hi]
      exact List.getElem_mem hi
    exact h.entry (i, rows.getD i []) (mem_zip_finRange hrows i []) (j, _)
      (mem_zip_finRange (hrow _ hmem) j infDistance)
  exact congrArg DistanceMatrix.mk (funext₂ hcell)

end Refinement

/-! ## create_topology in memory -/

/-- The blocks are the matrices of a file that has been read. -/
structure Represents (b : Blocks) (t : TopologyFile) : Prop where
  numDriver : b.numDriver.toNat = t.numDriver
  small : b.numDriver.toNat < 2 ^ 31
  topology : ∀ i j, toMatrix small b.topology i j =
    t.topology.link (i.cast numDriver) (j.cast numDriver)
  solution : ∀ i j, toMatrix small b.solution i j =
    t.solution (i.cast numDriver) (j.cast numDriver)
  unread : b.unread = t.unread

/-- **`create_topology` in memory does what the model on matrices does.**  For files whose
first number, as `%zu` stores it, is below `2 ^ 31`, and whatever the two blocks hold
when `malloc` returns them: if the reading succeeds the blocks are the clamped matrix
and its table of distances, and no access has left them; if it fails, it fails by the
same assertion. -/
theorem createBlocks_represents {malloc₁ malloc₂ : Malloc} {text : List Char}
    (halloc : ∀ num, (malloc₁ num).isSome ∧ (malloc₂ num).isSome)
    (hsmall : ∀ num rest, scanNumber.map toSize text = some (num, rest) → num < 2 ^ 31) :
    match TopologyFile.createTopology text with
    | .ok t => ∃ b, createBlocks malloc₁ malloc₂ text = .ok b ∧ Represents b t
    | .error a => createBlocks malloc₁ malloc₂ text = .error (.assertion a) := by
  unfold TopologyFile.createTopology createBlocks
  cases hnum : scanNumber.map toSize text with
  | none => rfl
  | some r =>
      obtain ⟨num, body⟩ := r
      have hlt := hsmall num body hnum
      obtain ⟨numDriver, hto⟩ : ∃ numDriver : UInt64, numDriver.toNat = num :=
        ⟨.ofNat num, by rw [UInt64.toNat_ofNat', Nat.mod_eq_of_lt (by omega)]⟩
      subst hto
      simp only [UInt64.ofNat_toNat]
      by_cases hzero : numDriver.toNat = 0
      · have hnot : ¬ 0 < numDriver := by
          rw [UInt64.lt_iff_toNat_lt, hzero]
          exact Nat.lt_irrefl _
        rw [if_pos hzero, if_neg hnot]
      · have hpos : 0 < numDriver := by
          rw [UInt64.lt_iff_toNat_lt]
          exact Nat.pos_of_ne_zero hzero
        obtain ⟨topology, htopology⟩ := Option.isSome_iff_exists.mp (halloc numDriver).1
        obtain ⟨solution, hsolution⟩ := Option.isSome_iff_exists.mp (halloc numDriver).2
        rw [if_neg hzero, if_pos hpos]
        simp only [fillBlocks, htopology, hsolution, populate_eq_populateRows]
        cases hrows : ((scanNumber.map toDistance).many numDriver.toNat).many numDriver.toNat body
          with
        | none =>
            rw [populateRows_error hlt _ topology (by rwa [List.length_finRange])]
            rfl
        | some r =>
            obtain ⟨rows, rest⟩ := r
            have hall : ((scanNumber.map toDistance).many numDriver.toNat).many
                (List.finRange numDriver.toNat).length body = some (rows, rest) := by
              rw [List.length_finRange]
              exact hrows
            obtain ⟨block, hfill, hfilled⟩ :=
              populateRows_ok hlt (List.nodup_finRange _) topology hall
            have hmatrix := hfilled.toMatrix_eq hlt (length_of_many hrows)
              (forall_length_of_many hrows)
            obtain ⟨table, hfloyd, htable⟩ := floydWarshallBlock_spec hlt _ hmatrix
            refine ⟨⟨numDriver, block, table, rest⟩, ?_, rfl, hlt, fun i j => ?_, fun i j => ?_,
              rfl⟩
            · rw [hfill]
              show (floydWarshallBlock block >>= _) = _
              rw [hfloyd]
              rfl
            · rw [hmatrix]
              rfl
            · rw [htable]
              rfl

/-- Two drivers, in blocks that hold `77` everywhere. -/
theorem createBlocks_represents_two : ∃ t b,
    TopologyFile.createTopology "2\n0 5\n-1 0\n".toList = .ok t ∧
    createBlocks (fun _ => some (.replicate _ 77)) (fun _ => some (.replicate _ 77))
      "2\n0 5\n-1 0\n".toList = .ok b ∧ Represents b t := by
  have hspec := @createBlocks_represents (fun _ => some (.replicate _ 77))
    (fun _ => some (.replicate _ 77)) "2\n0 5\n-1 0\n".toList (fun _ => ⟨rfl, rfl⟩) (by
      intro num rest hnum
      have htwo : (scanNumber.map toSize "2\n0 5\n-1 0\n".toList).map Prod.fst = some 2 := by
        decide +kernel
      rw [hnum, Option.map_some, Option.some.injEq] at htwo
      obtain rfl : num = 2 := htwo
      decide)
  have hok : (TopologyFile.createTopology "2\n0 5\n-1 0\n".toList).isOk = true := by
    decide +kernel
  cases hread : TopologyFile.createTopology "2\n0 5\n-1 0\n".toList with
  | error a =>
      rw [hread] at hok
      cases hok
  | ok t =>
      rw [hread] at hspec
      obtain ⟨b, hblocks, hrep⟩ := hspec
      exact ⟨t, b, rfl, hblocks, hrep⟩

end ConcurrencyLab
