import Mathlib.Init

/-!
# ConcurrencyLab.Scan

Formatted input: a scanner reads one item off the front of a text and hands on
what it left.

- `scanNumber` is the integer conversion of `scanf`: blanks, an optional sign,
  decimal digits as far as they go.  The value is exact; what an integer type
  makes of it is left to the caller.
- `many` runs a scanner a given number of times.

A printed number is read back whole from anywhere between blanks
(`scanNumber_printed`).
-/

namespace ConcurrencyLab

universe u v

/-- Reads an item off the front of a text, or fails. -/
abbrev Scanner (α : Type u) := List Char → Option (α × List Char)

namespace Scanner

variable {α : Type u} {β : Type v}

/-- The scanner that converts what `scan` reads. -/
def map (f : α → β) (scan : Scanner α) : Scanner β := fun text =>
  (scan text).map fun r => (f r.1, r.2)

/-- Runs a scanner `k` times, each time on what the last run left. -/
def many (scan : Scanner α) : Nat → Scanner (List α)
  | 0, text => some ([], text)
  | k + 1, text =>
      match scan text with
      | none => none
      | some (a, text) =>
          match many scan k text with
          | none => none
          | some (as, text) => some (a :: as, text)

theorem map_eq_some {f : α → β} {scan : Scanner α} {a : α} {text rest : List Char}
    (h : scan text = some (a, rest)) : scan.map f text = some (f a, rest) := by
  rw [map, h]
  rfl

theorem many_succ {scan : Scanner α} {k : Nat} {a : α} {as : List α}
    {text mid rest : List Char} (ha : scan text = some (a, mid))
    (has : scan.many k mid = some (as, rest)) :
    scan.many (k + 1) text = some (a :: as, rest) := by
  simp only [many, ha, has]

/-- One more run is a run in front. -/
theorem many_succ_eq_some_iff {scan : Scanner α} {k : Nat} {as : List α}
    {text rest : List Char} :
    scan.many (k + 1) text = some (as, rest) ↔
      ∃ a mid as', scan text = some (a, mid) ∧ scan.many k mid = some (as', rest) ∧
        as = a :: as' := by
  constructor
  · intro h
    cases ha : scan text with
    | none => simp [many, ha] at h
    | some r =>
        cases has : scan.many k r.2 with
        | none => simp [many, ha, has] at h
        | some s =>
            simp only [many, ha, has, Option.some.injEq, Prod.mk.injEq] at h
            obtain ⟨rfl, rfl⟩ := h
            exact ⟨r.1, r.2, s.1, rfl, has, rfl⟩
  · rintro ⟨a, mid, as', ha, has, rfl⟩
    exact many_succ ha has

/-- `k` runs read `k` items. -/
theorem length_of_many {scan : Scanner α} {k : Nat} {as : List α} {text rest : List Char}
    (h : scan.many k text = some (as, rest)) : as.length = k := by
  induction k generalizing text as with
  | zero =>
      obtain ⟨rfl, rfl⟩ := Prod.mk.inj (Option.some.inj h)
      rfl
  | succ k ih =>
      obtain ⟨a, mid, as', -, has, rfl⟩ := many_succ_eq_some_iff.mp h
      rw [List.length_cons, ih has]

theorem many_add {scan : Scanner α} {j k : Nat} {as bs : List α} {text mid rest : List Char}
    (has : scan.many j text = some (as, mid)) (hbs : scan.many k mid = some (bs, rest)) :
    scan.many (j + k) text = some (as ++ bs, rest) := by
  induction j generalizing text as with
  | zero =>
      obtain ⟨rfl, rfl⟩ := Prod.mk.inj (Option.some.inj has)
      rwa [Nat.zero_add, List.nil_append]
  | succ j ih =>
      obtain ⟨a, next, as', ha, has', rfl⟩ := many_succ_eq_some_iff.mp has
      rw [Nat.add_right_comm]
      exact many_succ ha (ih has')

/-- Rows of `k` items each are `j * k` items in a row. -/
theorem many_flatten {scan : Scanner α} {j k : Nat} {rows : List (List α)}
    {text rest : List Char} (h : (scan.many k).many j text = some (rows, rest)) :
    scan.many (j * k) text = some (rows.flatten, rest) := by
  induction j generalizing text rows with
  | zero =>
      obtain ⟨rfl, rfl⟩ := Prod.mk.inj (Option.some.inj h)
      rw [Nat.zero_mul]
      rfl
  | succ j ih =>
      obtain ⟨row, mid, rows', hrow, hrows, rfl⟩ := many_succ_eq_some_iff.mp h
      rw [Nat.succ_mul, Nat.add_comm, List.flatten_cons]
      exact many_add hrow (ih hrows)

/-- Converting each item is converting the list. -/
theorem many_map (f : α → β) (scan : Scanner α) (k : Nat) :
    (scan.map f).many k = (scan.many k).map (List.map f) := by
  induction k with
  | zero => rfl
  | succ k ih =>
      funext text
      cases ha : scan text with
      | none => simp only [many, map, ha, Option.map_none]
      | some r =>
          have htail := congrFun ih r.2
          cases has : scan.many k r.2 with
          | none => simp_all only [many, map, Option.map_some, Option.map_none]
          | some s => simp_all only [many, map, Option.map_some, List.map_cons]

end Scanner

/-! ## numbers -/

/-- `isspace` in the "C" locale. -/
def isBlank (c : Char) : Bool :=
  c = ' ' || c = '\t' || c = '\n' || c = '\x0b' || c = '\x0c' || c = '\r'

/-- A nonempty run of decimal digits. -/
def scanDigits : Scanner Nat := fun text =>
  if text.takeWhile Char.isDigit = [] then none
  else some (Nat.ofDigitChars 10 (text.takeWhile Char.isDigit) 0, text.dropWhile Char.isDigit)

/-- Blanks are skipped, then comes an optional sign and at least one digit. -/
def scanNumber : Scanner Int := fun text =>
  match text.dropWhile isBlank with
  | '-' :: text => scanDigits.map (fun n : Nat => -(n : Int)) text
  | '+' :: text => scanDigits.map (fun n : Nat => (n : Int)) text
  | text => scanDigits.map (fun n : Nat => (n : Int)) text

/-- No digit follows. -/
def EndsNumber (rest : List Char) : Prop := rest.takeWhile Char.isDigit = []

theorem EndsNumber.cons {c : Char} (h : c.isDigit = false) (rest : List Char) :
    EndsNumber (c :: rest) := by
  simp [EndsNumber, h]

theorem scanDigits_toDigits (n : Nat) {rest : List Char} (h : EndsNumber rest) :
    scanDigits (Nat.toDigits 10 n ++ rest) = some (n, rest) := by
  have hdigits : ∀ c ∈ Nat.toDigits 10 n, c.isDigit = true := fun c hc =>
    Nat.isDigit_of_mem_toDigits (by decide) (by decide) hc
  have hread : (Nat.toDigits 10 n ++ rest).takeWhile Char.isDigit = Nat.toDigits 10 n := by
    rw [List.takeWhile_append_of_pos hdigits, h, List.append_nil]
  have hleft : (Nat.toDigits 10 n ++ rest).dropWhile Char.isDigit = rest := by
    have hsplit := List.takeWhile_append_dropWhile (p := Char.isDigit) (l := rest)
    rw [List.dropWhile_append_of_pos hdigits]
    rwa [h, List.nil_append] at hsplit
  rw [scanDigits, hread, hleft, if_neg Nat.toDigits_ne_nil, Nat.ofDigitChars_ten_toDigits]

/-- Digits are neither blanks nor signs. -/
theorem ne_of_isDigit {c d : Char} (hc : c.isDigit = true) (hd : d.isDigit = false) : c ≠ d := by
  rintro rfl
  rw [hc] at hd
  contradiction

theorem isBlank_of_isDigit {c : Char} (h : c.isDigit = true) : isBlank c = false := by
  have hne : ∀ d : Char, d.isDigit = false → c ≠ d := fun d hd => ne_of_isDigit h hd
  simp [isBlank, hne]

/-- Without a sign the number begins with its first digit. -/
theorem scanNumber_nat (n : Nat) {blanks rest : List Char}
    (hblanks : ∀ c ∈ blanks, isBlank c = true) (hrest : EndsNumber rest) :
    scanNumber (blanks ++ (Nat.toDigits 10 n ++ rest)) = some ((n : Int), rest) := by
  obtain ⟨c, cs, hcs⟩ := List.exists_cons_of_ne_nil (Nat.toDigits_ne_nil (n := n) (b := 10))
  have hc : c.isDigit = true := by
    refine Nat.isDigit_of_mem_toDigits (b := 10) (n := n) (by decide) (by decide) ?_
    rw [hcs]
    exact List.mem_cons_self
  have hskip : (blanks ++ (Nat.toDigits 10 n ++ rest)).dropWhile isBlank =
      Nat.toDigits 10 n ++ rest := by
    rw [List.dropWhile_append_of_pos hblanks, hcs, List.cons_append,
      List.dropWhile_cons_of_neg (by simp [isBlank_of_isDigit hc])]
  have hminus : c ≠ '-' := ne_of_isDigit hc (by decide)
  have hplus : c ≠ '+' := ne_of_isDigit hc (by decide)
  have hread := Scanner.map_eq_some (f := fun n : Nat => (n : Int)) (scanDigits_toDigits n hrest)
  rw [scanNumber, hskip]
  rw [hcs, List.cons_append] at hread ⊢
  split
  · next heq => exact absurd (List.cons.inj heq).1 hminus
  · next heq => exact absurd (List.cons.inj heq).1 hplus
  · exact hread

theorem scanNumber_neg (n : Nat) {blanks rest : List Char}
    (hblanks : ∀ c ∈ blanks, isBlank c = true) (hrest : EndsNumber rest) :
    scanNumber (blanks ++ '-' :: (Nat.toDigits 10 n ++ rest)) = some (-(n : Int), rest) := by
  have hskip : (blanks ++ '-' :: (Nat.toDigits 10 n ++ rest)).dropWhile isBlank =
      '-' :: (Nat.toDigits 10 n ++ rest) := by
    rw [List.dropWhile_append_of_pos hblanks, List.dropWhile_cons_of_neg (by decide)]
  rw [scanNumber, hskip]
  exact Scanner.map_eq_some (scanDigits_toDigits n hrest)

/-- A number printed between blanks is read back, and the reading stops at its
last digit. -/
theorem scanNumber_printed (z : Int) (blanks : List Char) {rest : List Char}
    (hblanks : ∀ c ∈ blanks, isBlank c = true) (hrest : EndsNumber rest) :
    scanNumber (blanks ++ ((toString z).toList ++ rest)) = some (z, rest) := by
  by_cases hz : 0 ≤ z
  · have hprint : (toString z).toList = Nat.toDigits 10 z.toNat := by
      rw [Int.toString_eq_repr, Int.repr_eq_if, if_pos hz, Nat.toList_repr]
    have hread := scanNumber_nat z.toNat hblanks hrest
    rwa [Int.toNat_of_nonneg hz, ← hprint] at hread
  · have hprint : (toString z).toList = '-' :: Nat.toDigits 10 (-z).toNat := by
      rw [Int.toString_eq_repr, Int.repr_eq_if, if_neg hz, String.toList_append, Nat.toList_repr]
      rfl
    have hread := scanNumber_neg (-z).toNat hblanks hrest
    rw [Int.toNat_of_nonneg (by omega), Int.neg_neg] at hread
    rwa [hprint, List.cons_append]

end ConcurrencyLab
