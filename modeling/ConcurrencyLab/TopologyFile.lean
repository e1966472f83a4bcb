import ConcurrencyLab.Topology
import ConcurrencyLab.Scan

/-!
# ConcurrencyLab.TopologyFile

The text form of a topology: how `create_topology` reads it and how
`generate_graph.py` prints it.

The reader takes one `%zu` and then one `%d` for each entry.  The `%d` stores
through an `int *` into an unsigned `distance_t`, so a negative entry arrives as a
very large one and is clamped, if it is an `int`: `-4294967291` arrives as 5.  The
generator marks a missing link by `-1`.  The topology files of the repository begin
with four lines of text, which the first `%zu` does not pass.

The text here is what the `print` statements write; the prompts of `input` are no
part of it.
-/

namespace ConcurrencyLab

open Scanner

/-! ## create_topology -/

/-- What `%zu` stores: an unsigned 64-bit integer.  A number out of range is
replaced by the largest one, a negative one is negated in the type. -/
def toSize (z : Int) : Nat :=
  if 2 ^ 64 ≤ z.natAbs then 2 ^ 64 - 1 else (z % 2 ^ 64).toNat

/-- What `%d` leaves in a `distance_t`: the number, limited to a `long`, cut to an
`int` and read as unsigned. -/
def toDistance (z : Int) : Nat :=
  ((max (-2 ^ 63) (min z (2 ^ 63 - 1))) % 2 ^ 32).toNat

/-- The assertions of `create_topology` on what it has read. -/
inductive Assertion
  /-- `assert(num_scanned == 1)`, lines 92 and 103. -/
  | numScanned
  /-- `assert(num_driver > 0)`, line 93. -/
  | numDriver
deriving DecidableEq

/-- What `create_topology` leaves behind. -/
structure TopologyFile where
  numDriver : Nat
  topology : Topology numDriver
  solution : DistanceMatrix numDriver
  /-- What stands in the file behind the last entry. -/
  unread : List Char

namespace TopologyFile

/-- `create_topology` on the text of the file it has opened. -/
def createTopology (text : List Char) : Except Assertion TopologyFile :=
  match scanNumber.map toSize text with
  | none => .error .numScanned
  | some (numDriver, text) =>
      if numDriver = 0 then .error .numDriver
      else
        match ((scanNumber.map toDistance).many numDriver).many numDriver text with
        | none => .error .numScanned
        | some (rows, text) =>
            .ok {
              numDriver
              topology := Topology.ofRows numDriver rows
              solution := (Topology.ofRows numDriver rows).floydWarshall
              unread := text }

/-! ## generate_graph.py -/

variable {n : Nat}

/-- `data[a][b] = info`. -/
def setData (a b : Fin n) (info : Int) (data : Fin n → Fin n → Int) : Fin n → Fin n → Int :=
  Function.update data a (Function.update (data a) b info)

/-- Lines 19-22: `-1` everywhere, then `0` on the diagonal. -/
def initialData (n : Nat) : Fin n → Fin n → Int :=
  (List.finRange n).foldl (fun data i => setData i i 0 data) fun _ _ => -1

/-- The `while` loop (lines 24-33) on the pairs `(a, b)` that it draws, in order.
There is no result when the loop has not ended with the last of them, or has ended
before. -/
def drawEdges : Int → List (Fin n × Fin n) → (Fin n → Fin n → Int) →
    Option (Fin n → Fin n → Int)
  | count, [], data => if count > 0 then none else some data
  | count, (a, b) :: draws, data =>
      if count > 0 then
        if a = b then drawEdges count draws data
        else drawEdges (count - 1) draws (setData b a 1 (setData a b 1 data))
      else none

/-- What lines 38-41 append to `str_`. -/
def printInfo (info : Int) : List Char :=
  if info ≥ 0 then ' ' :: (toString info).toList ++ [' '] else (toString info).toList ++ [' ']

/-- `str_[:-1]` after the loop over a row (lines 36-43). -/
def printRow (row : List Int) : List Char :=
  (row.foldl (fun str_ info => str_ ++ printInfo info) []).dropLast

/-- The lines printed for `data` (lines 34-43). -/
def printData (data : Fin n → Fin n → Int) : List Char :=
  (toString (n : Int)).toList ++ ['\n'] ++
    (List.ofFn fun a => List.ofFn (data a)).flatMap fun row => printRow row ++ ['\n']

/-- `generate_graph.py` on these inputs and draws.  `xrange` refuses a number
beyond a signed 64-bit integer. -/
def generateGraph (n : Nat) (count : Int) (draws : List (Fin n × Fin n)) : Option (List Char) :=
  if 2 ^ 63 ≤ n then none
  else (drawEdges count draws (initialData n)).map printData

/-! ## the drawn matrix -/

theorem setData_apply (a b i j : Fin n) (info : Int) (data : Fin n → Fin n → Int) :
    setData a b info data i j = if i = a ∧ j = b then info else data i j := by
  unfold setData
  by_cases hi : i = a
  · subst hi
    by_cases hj : j = b <;> simp [hj]
  · simp [hi]

theorem initialData_apply (i j : Fin n) : initialData n i j = if i = j then 0 else -1 := by
  have hfold : ∀ (l : List (Fin n)) (data : Fin n → Fin n → Int),
      l.foldl (fun data i => setData i i 0 data) data i j =
        if i = j ∧ i ∈ l then 0 else data i j := by
    intro l
    induction l with
    | nil => intro data; simp
    | cons k l ih =>
        intro data
        rw [List.foldl_cons, ih, setData_apply]
        grind
  rw [initialData, hfold]
  simp [List.mem_finRange]

/-- The loop sets the drawn pairs, both ways round, and nothing else; a pair drawn
twice counts twice, a vertex drawn with itself not at all. -/
theorem drawEdges_apply {count : Int} {draws : List (Fin n × Fin n)}
    {data data' : Fin n → Fin n → Int} (h : drawEdges count draws data = some data')
    (i j : Fin n) :
    data' i j = if i ≠ j ∧ ((i, j) ∈ draws ∨ (j, i) ∈ draws) then 1 else data i j := by
  induction draws generalizing count data with
  | nil =>
      simp only [drawEdges, Option.ite_none_left_eq_some, Option.some.injEq] at h
      simp [h.2]
  | cons draw draws ih =>
      obtain ⟨a, b⟩ := draw
      simp only [drawEdges, Option.ite_none_right_eq_some] at h
      obtain ⟨-, h⟩ := h
      by_cases hab : a = b
      · rw [if_pos hab] at h
        rw [ih h]
        grind
      · rw [if_neg hab] at h
        rw [ih h, setData_apply, setData_apply]
        grind

/-! ## reading the printed text -/

/-- The blank in front of an entry, if it has one. -/
def infoBlank (info : Int) : List Char := if info ≥ 0 then [' '] else []

theorem isBlank_infoBlank (info : Int) : ∀ c ∈ infoBlank info, isBlank c = true := by
  unfold infoBlank
  split <;> simp [isBlank]

theorem printInfo_eq (info : Int) :
    printInfo info = infoBlank info ++ ((toString info).toList ++ [' ']) := by
  unfold printInfo infoBlank
  split <;> rfl

theorem printRow_eq (row : List Int) : printRow row = (row.flatMap printInfo).dropLast := by
  rw [printRow, List.flatMap_eq_foldl]

theorem printRow_singleton (info : Int) :
    printRow [info] = infoBlank info ++ (toString info).toList := by
  rw [printRow_eq, List.flatMap_singleton, printInfo_eq, ← List.append_assoc,
    List.dropLast_concat]

/-- The cut takes the blank behind the last entry only. -/
theorem printRow_cons (info next : Int) (row : List Int) :
    printRow (info :: next :: row) =
      infoBlank info ++ ((toString info).toList ++ ' ' :: printRow (next :: row)) := by
  have hne : (next :: row).flatMap printInfo ≠ [] := by
    rw [List.flatMap_cons, printInfo_eq]
    simp
  rw [printRow_eq, List.flatMap_cons, List.dropLast_append_of_ne_nil hne, printInfo_eq,
    ← printRow_eq]
  simp only [List.append_assoc, List.cons_append, List.nil_append]

/-- A printed row is read back entry by entry, up to the end of its line. -/
theorem many_printRow {row : List Int} (hrow : row ≠ []) (blanks : List Char)
    (hblanks : ∀ c ∈ blanks, isBlank c = true) (rest : List Char) :
    scanNumber.many row.length (blanks ++ (printRow row ++ '\n' :: rest)) =
      some (row, '\n' :: rest) := by
  induction row generalizing blanks with
  | nil => exact absurd rfl hrow
  | cons info row ih =>
      have hfront : ∀ c ∈ blanks ++ infoBlank info, isBlank c = true := by
        intro c hc
        rcases List.mem_append.mp hc with hc | hc
        · exact hblanks c hc
        · exact isBlank_infoBlank info c hc
      cases row with
      | nil =>
          have hread := scanNumber_printed info _ hfront
            (EndsNumber.cons (c := '\n') (by decide) rest)
          rw [printRow_singleton]
          simp only [List.append_assoc] at hread ⊢
          exact many_succ hread rfl
      | cons next row =>
          have hread := scanNumber_printed info _ hfront
            (EndsNumber.cons (c := ' ') (by decide) (printRow (next :: row) ++ '\n' :: rest))
          have htail := ih (List.cons_ne_nil next row) [' '] (by simp [isBlank])
          rw [printRow_cons]
          simp only [List.append_assoc, List.cons_append] at hread ⊢
          exact many_succ hread htail

/-- The printed rows are read back; only the last line break is left. -/
theorem many_printRows (hn : 0 < n) (rows : List (List Int))
    (hrows : ∀ row ∈ rows, row.length = n) :
    (scanNumber.many n).many rows.length
      ('\n' :: rows.flatMap fun row => printRow row ++ ['\n']) = some (rows, ['\n']) := by
  induction rows with
  | nil => rfl
  | cons row rows ih =>
      have hlen : row.length = n := hrows row List.mem_cons_self
      have hne : row ≠ [] := List.ne_nil_of_length_pos (by omega)
      have hread := many_printRow hne ['\n'] (by simp [isBlank])
        (rows.flatMap fun row => printRow row ++ ['\n'])
      have htail := ih fun r hr => hrows r (List.mem_cons_of_mem row hr)
      rw [hlen] at hread
      rw [List.flatMap_cons, List.append_assoc]
      exact many_succ hread htail

/-- The first number of a printed file is `input_`, the rows follow. -/
theorem scan_printData (data : Fin n → Fin n → Int) (hn : 0 < n) :
    ∃ body, scanNumber (printData data) = some ((n : Int), body) ∧
      (scanNumber.many n).many n body =
        some (List.ofFn fun a => List.ofFn (data a), ['\n']) := by
  have hread := scanNumber_printed (n : Int) [] (by simp)
    (EndsNumber.cons (c := '\n') (by decide)
      ((List.ofFn fun a => List.ofFn (data a)).flatMap fun row => printRow row ++ ['\n']))
  have hrows := many_printRows hn (List.ofFn fun a => List.ofFn (data a)) (by
    intro row hrow
    obtain ⟨a, rfl⟩ := List.mem_ofFn.mp hrow
    exact List.length_ofFn)
  rw [List.length_ofFn] at hrows
  refine ⟨_, ?_, hrows⟩
  simpa only [printData, List.append_assoc, List.cons_append, List.nil_append] using hread

/-- `createTopology` on a text whose numbers are known. -/
theorem createTopology_eq_ok {text body rest : List Char} {rows : List (List Int)}
    (hn : 0 < n) (hsize : n < 2 ^ 64) (hfirst : scanNumber text = some ((n : Int), body))
    (hrows : (scanNumber.many n).many n body = some (rows, rest)) :
    createTopology text = .ok {
      numDriver := n
      topology := Topology.ofRows n (rows.map (List.map toDistance))
      solution := (Topology.ofRows n (rows.map (List.map toDistance))).floydWarshall
      unread := rest } := by
  have htoSize : toSize (n : Int) = n := by
    rw [toSize, if_neg (by omega)]
    omega
  have hfirst' := map_eq_some (f := toSize) hfirst
  have hrows' : ((scanNumber.map toDistance).many n).many n body =
      some (rows.map (List.map toDistance), rest) := by
    rw [many_map, many_map]
    exact map_eq_some hrows
  rw [htoSize] at hfirst'
  rw [createTopology]
  simp only [hfirst', hrows', if_neg (by omega : n ≠ 0)]

/-! ## the topology of a drawn matrix -/

/-- The topology that `create_topology` makes of the rows of `data`. -/
def ofData (data : Fin n → Fin n → Int) : Topology n :=
  Topology.ofRows n ((List.ofFn fun a => List.ofFn (data a)).map (List.map toDistance))

theorem ofData_link (data : Fin n → Fin n → Int) (a b : Fin n) :
    (ofData data).link a b = min (toDistance (data a b)) infDistance := by
  simp only [ofData, Topology.ofRows, Topology.createTopology, List.getD_eq_getElem?_getD,
    List.getElem?_map, List.getElem?_ofFn, a.isLt, b.isLt, dite_true, Option.map_some,
    Option.getD_some, Fin.eta]
  split <;> omega

/-- The `-1` of a missing link is read as the largest distance and clamped. -/
theorem ofData_link_of_drawEdges {count : Int} {draws : List (Fin n × Fin n)}
    {data : Fin n → Fin n → Int} (h : drawEdges count draws (initialData n) = some data)
    (a b : Fin n) :
    (ofData data).link a b = if a = b then 0
      else if (a, b) ∈ draws ∨ (b, a) ∈ draws then 1 else infDistance := by
  have hzero : min (toDistance 0) infDistance = 0 := by decide
  have hone : min (toDistance 1) infDistance = 1 := by decide
  have hmissing : min (toDistance (-1)) infDistance = infDistance := by decide
  rw [ofData_link, drawEdges_apply h, initialData_apply]
  by_cases hab : a = b
  · rw [if_neg (by simp [hab]), if_pos hab, if_pos hab, hzero]
  · by_cases hdraw : (a, b) ∈ draws ∨ (b, a) ∈ draws
    · rw [if_pos ⟨hab, hdraw⟩, if_neg hab, if_pos hdraw, hone]
    · rw [if_neg (by simp [hdraw]), if_neg hab, if_neg hab, if_neg hdraw, hmissing]

/-- **Generator and reader agree**: whatever has been drawn, the printed text is the
number of vertices and `n * n` entries, and `create_topology` makes of them the
symmetric topology whose links of weight one are the drawn pairs.  This is about the
text and how it is read; the blocks in memory hold the result for `n < 2 ^ 31`
(`createBlocks_represents`). -/
theorem createTopology_generateGraph {count : Int} {draws : List (Fin n × Fin n)}
    {text : List Char} (hn : 0 < n) (h : generateGraph n count draws = some text) :
    ∃ T : Topology n,
      createTopology text = .ok ⟨n, T, T.floydWarshall, ['\n']⟩ ∧
      (∃ entries, entries.length = n * n ∧
        scanNumber.many (n * n + 1) text = some ((n : Int) :: entries, ['\n'])) ∧
      scanNumber ['\n'] = none ∧
      (∀ a b, T.link a b = if a = b then 0
        else if (a, b) ∈ draws ∨ (b, a) ∈ draws then 1 else infDistance) ∧
      (∀ a b, T.link a b = T.link b a) ∧ T.TwoWay := by
  simp only [generateGraph, Option.ite_none_left_eq_some, Option.map_eq_some_iff] at h
  obtain ⟨hsize, data, hdata, rfl⟩ := h
  obtain ⟨body, hfirst, hrows⟩ := scan_printData data hn
  have hlink := ofData_link_of_drawEdges hdata
  have hsymm : ∀ a b : Fin n, (ofData data).link a b = (ofData data).link b a := by
    intro a b
    rw [hlink, hlink]
    simp only [eq_comm, or_comm]
  have hentries := many_flatten hrows
  refine ⟨ofData data, createTopology_eq_ok hn (by omega) hfirst hrows,
    ⟨_, length_of_many hentries, many_succ hfirst hentries⟩, by decide, hlink, hsymm, ?_⟩
  intro a b
  rw [hsymm]

/-- Three vertices and two edges, with a vertex drawn with itself and an edge drawn
twice. -/
theorem createTopology_generateGraph_three :
    generateGraph 3 2 [(0, 1), (2, 2), (1, 0)] =
      some "3\n 0  1 -1\n 1  0 -1\n-1 -1  0\n".toList ∧
    ∃ T : Topology 3,
      createTopology "3\n 0  1 -1\n 1  0 -1\n-1 -1  0\n".toList =
        .ok ⟨3, T, T.floydWarshall, ['\n']⟩ ∧
      T.link 1 0 = 1 ∧ T.link 1 2 = infDistance := by
  have htext : generateGraph 3 2 [(0, 1), (2, 2), (1, 0)] =
      some "3\n 0  1 -1\n 1  0 -1\n-1 -1  0\n".toList := by decide +kernel
  obtain ⟨T, hread, -, -, hlink, -⟩ := createTopology_generateGraph (by decide) htext
  exact ⟨htext, T, hread, hlink 1 0, hlink 1 2⟩

end TopologyFile

end ConcurrencyLab
