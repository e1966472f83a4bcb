import ConcurrencyLab.Numerals
import ConcurrencyLab.Solution
import ConcurrencyLab.TopologyFile

/-!
# ConcurrencyLab.TopologyText

The language of topology files, and what `print_graph` and `print_solution` have to
do with it.

`create_topology` accepts the texts that consist of one numeral for the number of
drivers and one for each link, and nothing else decides: the layout in lines is
free, and what stands behind the last entry does not matter as long as it is no
digit (`createTopology_eq_ok_iff`).

The two printing functions of `stress.c` write a matrix in a form of its own, with
`inf` for a missing link.  With the number of drivers in place of the title it is a
topology file again, but for the missing links (`createTopology_print`), and the print
tells any two matrices apart (`printMatrix_injective`).
-/

namespace ConcurrencyLab

open Scanner

/-! ## the accepted files -/

namespace TopologyFile

/-- `create_topology` stores what `%zu` and `%d` make of the numbers. -/
theorem createTopology_eq_ok_iff_scan {text : List Char} {t : TopologyFile} :
    createTopology text = .ok t ↔
      ∃ z body rows, scanNumber text = some (z, body) ∧ toSize z = t.numDriver ∧
        0 < t.numDriver ∧ (scanNumber.many t.numDriver).many t.numDriver body =
          some (rows, t.unread) ∧
        t.topology = Topology.ofRows t.numDriver (rows.map (List.map toDistance)) ∧
        t.solution = t.topology.floydWarshall := by
  have hscanner : ∀ n, ((scanNumber.map toDistance).many n).many n =
      ((scanNumber.many n).many n).map (List.map (List.map toDistance)) := by
    intro n
    rw [many_map, many_map]
  constructor
  · intro h
    unfold createTopology at h
    cases hnum : scanNumber text with
    | none => simp [Scanner.map, hnum] at h
    | some r =>
        rw [map_eq_some hnum] at h
        simp only [hscanner] at h
        by_cases hzero : toSize r.1 = 0
        · simp [hzero] at h
        · rw [if_neg hzero] at h
          cases hrows : (scanNumber.many (toSize r.1)).many (toSize r.1) r.2 with
          | none => simp [Scanner.map, hrows] at h
          | some s =>
              rw [map_eq_some hrows] at h
              obtain rfl := Except.ok.inj h
              exact ⟨r.1, r.2, s.1, rfl, rfl, Nat.pos_of_ne_zero hzero, hrows, rfl, rfl⟩
  · obtain ⟨n, T, solution, unread⟩ := t
    rintro ⟨z, body, rows, hnum, rfl, hpos, hrows, hT, hsol⟩
    dsimp only at hpos hrows hT hsol
    subst hT hsol
    simp only [createTopology, map_eq_some hnum, hscanner, map_eq_some hrows,
      if_neg (Nat.ne_of_gt hpos)]

/-- **The files that are accepted, and as what.**  This is about reading; that the blocks in
memory hold these matrices is `createBlocks_represents`, for fewer than `2 ^ 31` drivers. -/
theorem createTopology_eq_ok_iff {text : List Char} {t : TopologyFile} :
    createTopology text = .ok t ↔
      ∃ (first : Numeral) (entries : Fin t.numDriver → Fin t.numDriver → Numeral),
        Written (first :: tableNumerals entries) text t.unread ∧
        toSize first.value = t.numDriver ∧ 0 < t.numDriver ∧
        (∀ a b, t.topology.link a b = min (toDistance (entries a b).value) infDistance) ∧
        t.solution = t.topology.floydWarshall := by
  rw [createTopology_eq_ok_iff_scan]
  constructor
  · rintro ⟨z, body, rows, hnum, hsize, hpos, hrows, hT, hsol⟩
    obtain ⟨first, rfl, rfl, hends⟩ := scanNumber_eq_some_iff.mp hnum
    obtain ⟨entries, rfl, hentries⟩ := many_many_eq_some_iff.mp hrows
    refine ⟨first, entries, ⟨body, rfl, hends, hentries⟩, hsize, hpos, ?_, hsol⟩
    rw [hT]
    exact ofData_link fun a b => (entries a b).value
  · rintro ⟨first, entries, ⟨body, rfl, hends, hentries⟩, hsize, hpos, hlink, hsol⟩
    refine ⟨first.value, body, _, scanNumber_eq_some_iff.mpr ⟨first, rfl, rfl, hends⟩, hsize, hpos,
      many_many_eq_some_iff.mpr ⟨entries, rfl, hentries⟩, Topology.eq_of_link fun a b => ?_, hsol⟩
    rw [hlink]
    exact (ofData_link (fun a b => (entries a b).value) a b).symm

/-- The second assertion fails for the files that begin with a zero. -/
theorem createTopology_eq_numDriver_iff {text : List Char} :
    createTopology text = .error .numDriver ↔
      ∃ (first : Numeral) (body : List Char), text = first.text ++ body ∧ EndsNumber body ∧
        first.value = 0 := by
  have hzero : ∀ z, toSize z = 0 ↔ z = 0 := by
    intro z
    unfold toSize
    split <;> omega
  constructor
  · intro h
    unfold createTopology at h
    cases hnum : scanNumber text with
    | none => simp [Scanner.map, hnum] at h
    | some r =>
        rw [map_eq_some hnum] at h
        obtain ⟨first, htext, hvalue, hends⟩ := scanNumber_eq_some_iff.mp hnum
        by_cases hsize : toSize r.1 = 0
        · exact ⟨first, r.2, htext, hends, by rw [hvalue]; exact (hzero _).mp hsize⟩
        · simp only [if_neg hsize] at h
          split at h <;> cases h
  · rintro ⟨first, body, rfl, hends, hvalue⟩
    have hnum := scanNumber_eq_some_iff.mpr ⟨first, rfl, rfl, hends⟩
    simp only [createTopology, map_eq_some hnum, hvalue, if_pos ((hzero 0).mpr rfl)]

/-! ## print_graph and print_solution -/

/-- The conversion `%03u`. -/
def printUnsigned (distance : Nat) : List Char := (Nat.toDigits 10 distance).leftpad 3 '0'

/-- The body of the inner loop of both functions. -/
def printDistance (distance : Nat) : List Char :=
  if distance = infDistance then "inf ".toList else printUnsigned distance ++ [' ']

/-- The loops of both functions, behind the line that they print first. -/
def printMatrix {n : Nat} (title : List Char) (distance : Fin n → Fin n → Nat) : List Char :=
  title ++ (List.finRange n).flatMap fun src =>
    ((List.finRange n).flatMap fun dst => printDistance (distance src dst)) ++ ['\n']

/-- `print_graph`. -/
def printGraph {n : Nat} (T : Topology n) : List Char := printMatrix "GRAPH\n".toList T.link

/-- `print_solution`. -/
def printSolution {n : Nat} (solution : DistanceMatrix n) : List Char :=
  printMatrix "SOLUTION\n".toList solution

/-- One line of the print. -/
def printDistances (row : List Nat) : List Char := row.flatMap printDistance ++ ['\n']

theorem printMatrix_eq {n : Nat} (title : List Char) (distance : Fin n → Fin n → Nat) :
    printMatrix title distance =
      title ++ (List.ofFn fun src => List.ofFn (distance src)).flatMap printDistances := by
  simp only [printMatrix, printDistances, List.ofFn_eq_map, List.flatMap_map]

theorem isDigit_of_mem_printUnsigned (distance : Nat) :
    ∀ c ∈ printUnsigned distance, c.isDigit = true := by
  intro c hc
  rcases List.mem_append.mp hc with hc | hc
  · rw [List.eq_of_mem_replicate hc]
    decide
  · exact Nat.isDigit_of_mem_toDigits (by decide) (by decide) hc

theorem printUnsigned_ne_nil (distance : Nat) : printUnsigned distance ≠ [] := by
  rw [printUnsigned, List.leftpad, Ne, List.append_eq_nil_iff, not_and]
  exact fun _ => Nat.toDigits_ne_nil

/-- Padding does not change the number. -/
theorem ofDigitChars_printUnsigned (distance : Nat) :
    Nat.ofDigitChars 10 (printUnsigned distance) 0 = distance := by
  rw [printUnsigned, List.leftpad, Nat.ofDigitChars_append, Nat.ofDigitChars_replicate_zero,
    Nat.mul_zero, Nat.ofDigitChars_ten_toDigits]

theorem scanNumber_printUnsigned (distance : Nat) {blanks rest : List Char}
    (hblanks : ∀ c ∈ blanks, isBlank c = true) (hrest : EndsNumber rest) :
    scanNumber (blanks ++ (printUnsigned distance ++ rest)) = some ((distance : Int), rest) := by
  refine scanNumber_eq_some_iff.mpr ⟨⟨blanks, .bare, printUnsigned distance, hblanks,
    isDigit_of_mem_printUnsigned distance, printUnsigned_ne_nil distance⟩, ?_, ?_, hrest⟩
  · exact (List.append_assoc _ _ _).symm
  · exact congrArg Nat.cast (ofDigitChars_printUnsigned distance)

/-- `inf` is no number. -/
theorem scanNumber_inf {blanks : List Char} (hblanks : ∀ c ∈ blanks, isBlank c = true)
    (rest : List Char) : scanNumber (blanks ++ ("inf ".toList ++ rest)) = none := by
  rw [scanNumber_eq_scanSigned, List.dropWhile_append_of_pos hblanks]
  rfl

theorem printDistance_append (distance : Nat) (rest : List Char) :
    printDistance distance ++ rest =
      if distance = infDistance then "inf ".toList ++ rest
      else printUnsigned distance ++ ' ' :: rest := by
  unfold printDistance
  split
  · rfl
  · rw [List.append_assoc, List.singleton_append]

/-! ## reading a print back -/

/-- The reading of an entry stops at a missing link. -/
theorem scanNumber_printDistance (distance : Nat) {blanks : List Char}
    (hblanks : ∀ c ∈ blanks, isBlank c = true) (rest : List Char) :
    scanNumber (blanks ++ (printDistance distance ++ rest)) =
      if distance ≠ infDistance then some ((distance : Int), [' '] ++ rest) else none := by
  rw [printDistance_append]
  by_cases hinf : distance = infDistance
  · rw [if_pos hinf, if_neg (not_not_intro hinf)]
    exact scanNumber_inf hblanks rest
  · rw [if_neg hinf, if_pos hinf]
    exact scanNumber_printUnsigned distance hblanks (EndsNumber.cons (by decide) rest)

/-- A line is read up to its last blank. -/
theorem many_printDistances {row : List Nat} (hrow : row ≠ []) {blanks : List Char}
    (hblanks : ∀ c ∈ blanks, isBlank c = true) (rest : List Char) :
    scanNumber.many row.length (blanks ++ (printDistances row ++ rest)) =
      if ∀ distance ∈ row, distance ≠ infDistance then
        some (row.map Nat.cast, [' ', '\n'] ++ rest) else none := by
  rw [printDistances, List.append_assoc]
  exact many_printed (by simp [isBlank]) hrow
    (fun distance _ _ hblanks rest => scanNumber_printDistance distance hblanks rest) hblanks
    ('\n' :: rest)

theorem ne_nil_ofFn {α : Type} {n : Nat} (hn : 0 < n) (f : Fin n → α) : List.ofFn f ≠ [] :=
  List.ne_nil_of_length_pos (by rwa [List.length_ofFn])

/-- So are the lines of a matrix. -/
theorem many_many_printDistances {n : Nat} (hn : 0 < n) (distance : Fin n → Fin n → Nat) :
    (scanNumber.many n).many n
      ('\n' :: (List.ofFn fun src => List.ofFn (distance src)).flatMap printDistances) =
      if ∀ src dst, distance src dst ≠ infDistance then
        some (List.ofFn fun src => List.ofFn fun dst => (distance src dst : Int), [' ', '\n'])
      else none := by
  have hrow : ∀ row ∈ List.ofFn fun src => List.ofFn (distance src), ∀ blanks : List Char,
      (∀ c ∈ blanks, isBlank c = true) → ∀ rest,
      scanNumber.many n (blanks ++ (printDistances row ++ rest)) =
        if ∀ distance ∈ row, distance ≠ infDistance then
          some (row.map Nat.cast, [' ', '\n'] ++ rest) else none := by
    intro row hrow blanks hblanks rest
    obtain ⟨src, rfl⟩ := List.mem_ofFn.mp hrow
    have hread := many_printDistances (ne_nil_ofFn hn (distance src)) hblanks rest
    rwa [List.length_ofFn] at hread
  have hlines := many_printed (by simp [isBlank]) (ne_nil_ofFn hn _) hrow
    (by simp [isBlank] : ∀ c ∈ ['\n'], isBlank c = true) []
  simpa only [List.length_ofFn, List.append_nil, List.singleton_append, List.map_ofFn,
    List.forall_mem_ofFn_iff, Function.comp_def] using hlines

/-- The links of a topology, stored once more. -/
theorem ofData_link_self {n : Nat} (T : Topology n) :
    ofData (fun src dst => (T.link src dst : Int)) = T := by
  refine Topology.eq_of_link fun src dst => ?_
  have hcap := T.link_le src dst
  rw [ofData_link, toDistance]
  unfold infDistance at hcap ⊢
  omega

/-- The lines of a print behind the number of drivers: `create_topology` finds the printed
topology in them, but the first missing link makes an assertion fail. -/
theorem createTopology_printMatrix {n : Nat} (hn : 0 < n) (hsize : n < 2 ^ 64) (T : Topology n) :
    createTopology (printMatrix (Nat.toDigits 10 n ++ ['\n']) T.link) =
      if ∀ src dst, T.link src dst ≠ infDistance then
        .ok ⟨n, T, T.floydWarshall, [' ', '\n']⟩
      else .error .numScanned := by
  have hfirst := scanNumber_nat n (by simp : ∀ c ∈ ([] : List Char), isBlank c = true)
    (EndsNumber.cons (c := '\n') (by decide)
      ((List.ofFn fun src => List.ofFn (T.link src)).flatMap printDistances))
  have hrows := many_many_printDistances hn T.link
  rw [printMatrix_eq, List.append_assoc, List.singleton_append]
  rw [List.nil_append] at hfirst
  split
  · next hfinite =>
      rw [if_pos hfinite] at hrows
      have hread := createTopology_eq_ok hn hsize hfirst hrows
      have hdata := ofData_link_self T
      unfold ofData at hdata
      rwa [hdata] at hread
  · next hmissing =>
      rw [if_neg hmissing] at hrows
      have htoSize : toSize (n : Int) = n := by
        rw [toSize, if_neg (by omega)]
        omega
      have hnone : ((scanNumber.map toDistance).many n).many n
          ('\n' :: (List.ofFn fun src => List.ofFn (T.link src)).flatMap printDistances) =
          none := by
        rw [many_map, many_map, Scanner.map, hrows]
        rfl
      simp only [createTopology, map_eq_some hfirst, htoSize, if_neg (Nat.ne_of_gt hn), hnone]

/-- A print under another title. -/
theorem printMatrix_of_eq {n : Nat} {title lines : List Char} {distance : Fin n → Fin n → Nat}
    (h : printMatrix title distance = title ++ lines) (title' : List Char) :
    printMatrix title' distance = title' ++ lines := by
  rw [printMatrix, List.append_cancel_left_eq] at h
  rw [printMatrix, h]

/-- **What is printed can be read.**  Put the number of drivers in place of the title: if no
distance is `inf_distance`, `create_topology` reads the printed graph back, and makes of
the printed solution a topology that is its own solution; otherwise an assertion
fails.  As above this is about reading, for every number that a `size_t` can be; in memory
there is room for fewer than `2 ^ 31` drivers (`createBlocks_represents`). -/
theorem createTopology_print {n : Nat} (hn : 0 < n) (hsize : n < 2 ^ 64) (T : Topology n) :
    (∀ lines, printGraph T = "GRAPH\n".toList ++ lines →
      createTopology (Nat.toDigits 10 n ++ ['\n'] ++ lines) =
        if ∀ src dst, T.link src dst ≠ infDistance then
          .ok ⟨n, T, T.floydWarshall, [' ', '\n']⟩
        else .error .numScanned) ∧
    (∀ lines, printSolution T.floydWarshall = "SOLUTION\n".toList ++ lines →
      createTopology (Nat.toDigits 10 n ++ ['\n'] ++ lines) =
        if ∀ src dst, T.floydWarshall src dst ≠ infDistance then
          .ok ⟨n, T.solved, T.floydWarshall, [' ', '\n']⟩
        else .error .numScanned) := by
  constructor
  · intro lines hprint
    rw [← printMatrix_of_eq hprint]
    exact createTopology_printMatrix hn hsize T
  · intro lines hprint
    have hread := createTopology_printMatrix hn hsize T.solved
    rw [T.floydWarshall_solved] at hread
    rw [← printMatrix_of_eq hprint]
    exact hread

/-- Two drivers, and a graph without a link from the second to the first one. -/
theorem createTopology_print_two :
    let T : Topology 2 := .createTopology fun src dst => if src ≤ dst then 7 else infDistance
    printGraph T = "GRAPH\n007 007 \ninf 007 \n".toList ∧
    createTopology "2\n007 007 \ninf 007 \n".toList = .error .numScanned := by
  intro T
  have hgraph : printGraph T = "GRAPH\n".toList ++ "007 007 \ninf 007 \n".toList := by
    decide +kernel
  have htitle : "GRAPH\n".toList ++ "007 007 \ninf 007 \n".toList =
      "GRAPH\n007 007 \ninf 007 \n".toList := by decide +kernel
  have htext : Nat.toDigits 10 2 ++ ['\n'] ++ "007 007 \ninf 007 \n".toList =
      "2\n007 007 \ninf 007 \n".toList := by decide +kernel
  have hread := (createTopology_print (by decide) (by decide) T).1 _ hgraph
  rw [if_neg (by decide +kernel), htext] at hread
  exact ⟨hgraph.trans htitle, hread⟩

/-! ## prints tell matrices apart -/

/-- A number and `inf` differ in their first character. -/
theorem printUnsigned_append_ne (distance : Nat) (s t : List Char) :
    printUnsigned distance ++ s ≠ "inf ".toList ++ t := by
  obtain ⟨c, cs, hcs⟩ := List.exists_cons_of_ne_nil (printUnsigned_ne_nil distance)
  have hc : c.isDigit = true :=
    isDigit_of_mem_printUnsigned distance c (hcs ▸ List.mem_cons_self)
  rw [hcs]
  intro heq
  exact ne_of_isDigit (d := 'i') hc (by decide) (List.cons.inj heq).1

/-- The print of a distance is a prefix of no other one. -/
theorem printDistance_append_inj {d e : Nat} {s t : List Char}
    (h : printDistance d ++ s = printDistance e ++ t) : d = e ∧ s = t := by
  rw [printDistance_append, printDistance_append] at h
  by_cases hd : d = infDistance <;> by_cases he : e = infDistance
  · rw [if_pos hd, if_pos he] at h
    exact ⟨hd.trans he.symm, List.append_cancel_left h⟩
  · rw [if_pos hd, if_neg he] at h
    exact absurd h.symm (printUnsigned_append_ne e _ s)
  · rw [if_neg hd, if_pos he] at h
    exact absurd h (printUnsigned_append_ne d _ t)
  · rw [if_neg hd, if_neg he] at h
    have hblanks : ∀ c ∈ ([] : List Char), isBlank c = true := by simp
    have hreadd := scanNumber_printUnsigned d hblanks (EndsNumber.cons (c := ' ') (by decide) s)
    have hreade := scanNumber_printUnsigned e hblanks (EndsNumber.cons (c := ' ') (by decide) t)
    rw [h, hreade] at hreadd
    obtain ⟨hde, hst⟩ := Prod.mk.inj (Option.some.inj hreadd)
    exact ⟨(Int.ofNat.inj hde).symm, (List.cons.inj hst).2.symm⟩

/-- No distance begins with a line break. -/
theorem printDistance_append_ne (d : Nat) (s t : List Char) : printDistance d ++ s ≠ '\n' :: t := by
  rw [printDistance_append]
  split
  · intro heq
    exact absurd (List.cons.inj heq).1 (by decide)
  · obtain ⟨c, cs, hcs⟩ := List.exists_cons_of_ne_nil (printUnsigned_ne_nil d)
    have hc : c.isDigit = true := isDigit_of_mem_printUnsigned d c (hcs ▸ List.mem_cons_self)
    rw [hcs]
    intro heq
    exact ne_of_isDigit hc (by decide) (List.cons.inj heq).1

theorem printDistances_append_inj {row row' : List Nat} {s t : List Char}
    (h : printDistances row ++ s = printDistances row' ++ t) : row = row' ∧ s = t := by
  simp only [printDistances, List.append_assoc, List.singleton_append] at h
  induction row generalizing row' with
  | nil =>
      cases row' with
      | nil => exact ⟨rfl, (List.cons.inj h).2⟩
      | cons e row' =>
          rw [List.flatMap_cons, List.append_assoc] at h
          exact absurd h.symm (printDistance_append_ne e _ s)
  | cons d row ih =>
      cases row' with
      | nil =>
          rw [List.flatMap_cons, List.append_assoc] at h
          exact absurd h (printDistance_append_ne d _ t)
      | cons e row' =>
          rw [List.flatMap_cons, List.flatMap_cons, List.append_assoc, List.append_assoc] at h
          obtain ⟨rfl, htail⟩ := printDistance_append_inj h
          obtain ⟨rfl, hst⟩ := ih htail
          exact ⟨rfl, hst⟩

theorem flatMap_printDistances_inj {rows rows' : List (List Nat)}
    (h : rows.flatMap printDistances = rows'.flatMap printDistances) : rows = rows' := by
  have hne : ∀ (row : List Nat) (s : List Char), printDistances row ++ s ≠ [] := by
    intro row s
    simp [printDistances]
  induction rows generalizing rows' with
  | nil =>
      cases rows' with
      | nil => rfl
      | cons row' rows' => exact absurd h.symm (hne row' _)
  | cons row rows ih =>
      cases rows' with
      | nil => exact absurd h (hne row _)
      | cons row' rows' =>
          rw [List.flatMap_cons, List.flatMap_cons] at h
          obtain ⟨rfl, htail⟩ := printDistances_append_inj h
          rw [ih htail]

/-- **A print tells which matrix it is**, its size included; `inf` is no other distance. -/
theorem printMatrix_injective (title : List Char) :
    Function.Injective fun M : (n : Nat) × DistanceMatrix n => printMatrix title M.2.entry := by
  rintro ⟨n, M⟩ ⟨m, N⟩ h
  simp only [printMatrix_eq, List.append_cancel_left_eq] at h
  have hrows := flatMap_printDistances_inj h
  have hsize := congrArg List.length hrows
  rw [List.length_ofFn, List.length_ofFn] at hsize
  subst hsize
  have hentry : M.entry = N.entry := by
    funext src
    exact List.ofFn_injective (congrFun (List.ofFn_injective hrows) src)
  rw [show M = N from congrArg DistanceMatrix.mk hentry]

end TopologyFile

end ConcurrencyLab
