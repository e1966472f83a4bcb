import ConcurrencyLab.Scan
import Mathlib.Data.List.OfFn
import Mathlib.Data.List.TakeWhile

/-!
# ConcurrencyLab.Numerals

The grammar behind the scanner of numbers: which texts `scanNumber` accepts, and
what it makes of them.

- `Numeral` is a number as it is written: blanks, a sign, at least one digit.
- `scanNumber` reads exactly the numerals in front of what is no digit
  (`scanNumber_eq_some_iff`).
- `many` reads exactly the rows of numerals that are kept apart, by a blank or by
  a sign (`many_scanNumber_eq_some_iff`), and rows of rows likewise
  (`many_many_eq_some_iff`).
- A printed list is read back if its items are (`many_printed`).
-/

namespace ConcurrencyLab

open Scanner

/-! ## numerals -/

/-- The optional sign of a number. -/
inductive Sign
  | bare
  | plus
  | minus
deriving DecidableEq

namespace Sign

def text : Sign → List Char
  | bare => []
  | plus => ['+']
  | minus => ['-']

/-- The number with this sign and this absolute value. -/
def value : Sign → Nat → Int
  | bare, n => n
  | plus, n => n
  | minus, n => -n

end Sign

/-- A number as it is written, with the blanks in front of it. -/
structure Numeral where
  blanks : List Char
  sign : Sign
  digits : List Char
  isBlank_of_mem : ∀ c ∈ blanks, isBlank c = true
  isDigit_of_mem : ∀ c ∈ digits, c.isDigit = true
  digits_ne_nil : digits ≠ []

namespace Numeral

def text (w : Numeral) : List Char := w.blanks ++ (w.sign.text ++ w.digits)

def value (w : Numeral) : Int := w.sign.value (Nat.ofDigitChars 10 w.digits 0)

end Numeral

/-! ## splitting a text by a predicate -/

section Split

variable {α : Type} {p : α → Bool}

/-- A text whose front satisfies `p` and whose rest does not begin so is split
there. -/
theorem takeWhile_append_eq {xs ys : List α} (hxs : ∀ x ∈ xs, p x = true)
    (hys : ys.takeWhile p = []) : (xs ++ ys).takeWhile p = xs := by
  rw [List.takeWhile_append_of_pos hxs, hys, List.append_nil]

theorem dropWhile_append_eq {xs ys : List α} (hxs : ∀ x ∈ xs, p x = true)
    (hys : ys.takeWhile p = []) : (xs ++ ys).dropWhile p = ys := by
  have hsplit := List.takeWhile_append_dropWhile (p := p) (l := ys)
  rw [hys, List.nil_append] at hsplit
  rw [List.dropWhile_append_of_pos hxs, hsplit]

theorem takeWhile_dropWhile {l : List α} : (l.dropWhile p).takeWhile p = [] := by
  induction l with
  | nil => rfl
  | cons a l ih =>
      cases ha : p a with
      | false => simp [ha]
      | true => simpa [List.dropWhile_cons, ha] using ih

end Split

/-! ## one number -/

/-- What the digits of a number are, and where they end. -/
theorem scanDigits_eq_some_iff {text rest : List Char} {n : Nat} :
    scanDigits text = some (n, rest) ↔
      ∃ digits, digits ≠ [] ∧ (∀ c ∈ digits, c.isDigit = true) ∧ text = digits ++ rest ∧
        Nat.ofDigitChars 10 digits 0 = n ∧ EndsNumber rest := by
  constructor
  · intro h
    rw [scanDigits, Option.ite_none_left_eq_some] at h
    obtain ⟨hne, h⟩ := h
    obtain ⟨rfl, rfl⟩ := Prod.mk.inj (Option.some.inj h)
    exact ⟨text.takeWhile Char.isDigit, hne, (fun _ => List.mem_takeWhile_imp),
      List.takeWhile_append_dropWhile.symm, rfl, takeWhile_dropWhile⟩
  · rintro ⟨digits, hne, hdigits, rfl, rfl, hrest⟩
    rw [scanDigits, takeWhile_append_eq hdigits hrest, dropWhile_append_eq hdigits hrest,
      if_neg hne]

/-- The part of a number behind its blanks. -/
def scanSigned : Scanner Int := fun text =>
  match text with
  | '-' :: text => scanDigits.map (fun n : Nat => -(n : Int)) text
  | '+' :: text => scanDigits.map (fun n : Nat => (n : Int)) text
  | text => scanDigits.map (fun n : Nat => (n : Int)) text

theorem scanNumber_eq_scanSigned (text : List Char) :
    scanNumber text = scanSigned (text.dropWhile isBlank) := rfl

/-- A sign is read with the digits behind it. -/
theorem scanSigned_sign (sign : Sign) {digits rest : List Char} (hne : digits ≠ [])
    (hdigits : ∀ c ∈ digits, c.isDigit = true) (hrest : EndsNumber rest) :
    scanSigned (sign.text ++ (digits ++ rest)) =
      some (sign.value (Nat.ofDigitChars 10 digits 0), rest) := by
  have hread := scanDigits_eq_some_iff.mpr ⟨digits, hne, hdigits, rfl, rfl, hrest⟩
  cases sign with
  | plus => exact map_eq_some hread
  | minus => exact map_eq_some (f := fun n : Nat => -(n : Int)) hread
  | bare =>
      obtain ⟨c, cs, rfl⟩ := List.exists_cons_of_ne_nil hne
      have hc := hdigits c List.mem_cons_self
      have hminus : c ≠ '-' := ne_of_isDigit hc (by decide)
      have hplus : c ≠ '+' := ne_of_isDigit hc (by decide)
      show (match (c :: (cs ++ rest) : List Char) with
        | '-' :: text => scanDigits.map (fun n : Nat => -(n : Int)) text
        | '+' :: text => scanDigits.map (fun n : Nat => (n : Int)) text
        | text => scanDigits.map (fun n : Nat => (n : Int)) text) = _
      split
      · next heq => exact absurd (List.cons.inj heq).1 hminus
      · next heq => exact absurd (List.cons.inj heq).1 hplus
      · exact map_eq_some hread

/-- Every number that is read has a sign and digits. -/
theorem sign_of_scanSigned {text rest : List Char} {z : Int}
    (h : scanSigned text = some (z, rest)) :
    ∃ sign : Sign, ∃ digits, digits ≠ [] ∧ (∀ c ∈ digits, c.isDigit = true) ∧
      text = sign.text ++ (digits ++ rest) ∧ sign.value (Nat.ofDigitChars 10 digits 0) = z ∧
      EndsNumber rest := by
  have hsplit : ∀ (f : Nat → Int) (text : List Char), scanDigits.map f text = some (z, rest) →
      ∃ digits, digits ≠ [] ∧ (∀ c ∈ digits, c.isDigit = true) ∧ text = digits ++ rest ∧
        f (Nat.ofDigitChars 10 digits 0) = z ∧ EndsNumber rest := by
    intro f text h
    obtain ⟨⟨n, rest'⟩, hread, heq⟩ := Option.map_eq_some_iff.mp h
    obtain ⟨rfl, rfl⟩ := Prod.mk.inj heq
    obtain ⟨digits, hne, hdigits, htext, rfl, hrest⟩ := scanDigits_eq_some_iff.mp hread
    exact ⟨digits, hne, hdigits, htext, rfl, hrest⟩
  unfold scanSigned at h
  split at h
  · obtain ⟨digits, hne, hdigits, rfl, hvalue, hrest⟩ := hsplit _ _ h
    exact ⟨.minus, digits, hne, hdigits, rfl, hvalue, hrest⟩
  · obtain ⟨digits, hne, hdigits, rfl, hvalue, hrest⟩ := hsplit _ _ h
    exact ⟨.plus, digits, hne, hdigits, rfl, hvalue, hrest⟩
  · obtain ⟨digits, hne, hdigits, rfl, hvalue, hrest⟩ := hsplit _ _ h
    exact ⟨.bare, digits, hne, hdigits, rfl, hvalue, hrest⟩

/-- Neither a sign nor a digit is a blank. -/
theorem takeWhile_isBlank_sign (sign : Sign) {digits : List Char} (hne : digits ≠ [])
    (hdigits : ∀ c ∈ digits, c.isDigit = true) (rest : List Char) :
    (sign.text ++ (digits ++ rest)).takeWhile isBlank = [] := by
  obtain ⟨c, cs, rfl⟩ := List.exists_cons_of_ne_nil hne
  have hc : isBlank c = false := isBlank_of_isDigit (hdigits c List.mem_cons_self)
  cases sign with
  | bare => simp [Sign.text, hc]
  | plus => rfl
  | minus => rfl

/-- **The numbers that are read**: a numeral in front of what is no digit. -/
theorem scanNumber_eq_some_iff {text rest : List Char} {z : Int} :
    scanNumber text = some (z, rest) ↔
      ∃ w : Numeral, text = w.text ++ rest ∧ w.value = z ∧ EndsNumber rest := by
  constructor
  · intro h
    rw [scanNumber_eq_scanSigned] at h
    obtain ⟨sign, digits, hne, hdigits, htext, hvalue, hrest⟩ := sign_of_scanSigned h
    refine ⟨⟨text.takeWhile isBlank, sign, digits, (fun _ => List.mem_takeWhile_imp), hdigits,
      hne⟩, ?_, hvalue, hrest⟩
    rw [Numeral.text, List.append_assoc, List.append_assoc, ← htext,
      List.takeWhile_append_dropWhile]
  · rintro ⟨w, rfl, rfl, hrest⟩
    have hskip := dropWhile_append_eq w.isBlank_of_mem
      (takeWhile_isBlank_sign w.sign w.digits_ne_nil w.isDigit_of_mem rest)
    rw [scanNumber_eq_scanSigned, Numeral.text, List.append_assoc, List.append_assoc, hskip]
    exact scanSigned_sign w.sign w.digits_ne_nil w.isDigit_of_mem hrest

/-! ## many numbers -/

/-- `text` is these numerals and then `rest`, and no numeral runs on into what
stands behind it. -/
def Written : List Numeral → List Char → List Char → Prop
  | [], text, rest => text = rest
  | w :: ws, text, rest => ∃ mid, text = w.text ++ mid ∧ EndsNumber mid ∧ Written ws mid rest

theorem written_append {ws ws' : List Numeral} {text rest : List Char} :
    Written (ws ++ ws') text rest ↔ ∃ mid, Written ws text mid ∧ Written ws' mid rest := by
  induction ws generalizing text with
  | nil => simp [Written]
  | cons w ws ih =>
      simp only [List.cons_append, Written, ih]
      constructor
      · rintro ⟨mid, rfl, hends, next, hws, hws'⟩
        exact ⟨next, ⟨mid, rfl, hends, hws⟩, hws'⟩
      · rintro ⟨next, ⟨mid, rfl, hends, hws⟩, hws'⟩
        exact ⟨mid, rfl, hends, next, hws, hws'⟩

/-- **The lists of numbers that are read.** -/
theorem many_scanNumber_eq_some_iff {k : Nat} {zs : List Int} {text rest : List Char} :
    scanNumber.many k text = some (zs, rest) ↔
      ∃ ws : List Numeral, ws.length = k ∧ ws.map Numeral.value = zs ∧ Written ws text rest := by
  induction k generalizing text zs with
  | zero =>
      constructor
      · intro h
        obtain ⟨rfl, rfl⟩ := Prod.mk.inj (Option.some.inj h)
        exact ⟨[], rfl, rfl, rfl⟩
      · rintro ⟨ws, hlen, rfl, hws⟩
        obtain rfl := List.length_eq_zero_iff.mp hlen
        obtain rfl : text = rest := hws
        rfl
  | succ k ih =>
      rw [many_succ_eq_some_iff]
      constructor
      · rintro ⟨z, mid, zs', hz, hzs, rfl⟩
        obtain ⟨w, rfl, rfl, hends⟩ := scanNumber_eq_some_iff.mp hz
        obtain ⟨ws, rfl, rfl, hws⟩ := ih.mp hzs
        exact ⟨w :: ws, rfl, rfl, mid, rfl, hends, hws⟩
      · rintro ⟨ws, hlen, rfl, hws⟩
        obtain ⟨w, ws, rfl⟩ := List.exists_cons_of_length_eq_add_one hlen
        obtain ⟨mid, rfl, hends, hws⟩ := hws
        exact ⟨w.value, mid, ws.map Numeral.value, scanNumber_eq_some_iff.mpr ⟨w, rfl, rfl, hends⟩,
          ih.mpr ⟨ws, by simpa using hlen, rfl, hws⟩, rfl⟩

/-- A list of known length as a function. -/
theorem exists_eq_ofFn {α : Type} {k : Nat} {l : List α} (h : l.length = k) :
    ∃ f : Fin k → α, l = List.ofFn f := by
  subst h
  exact ⟨l.get, (List.ofFn_get l).symm⟩

/-- The numerals of a table, row by row. -/
def tableNumerals {j k : Nat} (ws : Fin j → Fin k → Numeral) : List Numeral :=
  (List.ofFn fun a => List.ofFn (ws a)).flatten

/-- Their values. -/
def tableValues {j k : Nat} (ws : Fin j → Fin k → Numeral) : List (List Int) :=
  List.ofFn fun a => List.ofFn fun b => (ws a b).value

/-- **The tables of numbers that are read**, row by row. -/
theorem many_many_eq_some_iff {j k : Nat} {rows : List (List Int)} {text rest : List Char} :
    (scanNumber.many k).many j text = some (rows, rest) ↔
      ∃ ws : Fin j → Fin k → Numeral,
        rows = tableValues ws ∧ Written (tableNumerals ws) text rest := by
  induction j generalizing text rows with
  | zero =>
      constructor
      · intro h
        obtain ⟨rfl, rfl⟩ := Prod.mk.inj (Option.some.inj h)
        exact ⟨fun a => a.elim0, rfl, rfl⟩
      · rintro ⟨ws, rfl, hws⟩
        obtain rfl : text = rest := hws
        rfl
  | succ j ih =>
      rw [many_succ_eq_some_iff]
      constructor
      · rintro ⟨row, mid, rows', hrow, hrows, rfl⟩
        obtain ⟨us, hlen, rfl, hus⟩ := many_scanNumber_eq_some_iff.mp hrow
        obtain ⟨u, rfl⟩ := exists_eq_ofFn hlen
        obtain ⟨ws, rfl, hws⟩ := ih.mp hrows
        refine ⟨Fin.cons u ws, ?_, ?_⟩
        · simp only [tableValues, List.ofFn_succ (n := j), Fin.cons_zero, Fin.cons_succ,
            List.map_ofFn]
          rfl
        · simp only [tableNumerals, List.ofFn_succ (n := j), Fin.cons_zero, Fin.cons_succ,
            List.flatten_cons]
          exact written_append.mpr ⟨mid, hus, hws⟩
      · rintro ⟨ws, rfl, hws⟩
        simp only [tableNumerals, List.ofFn_succ (n := j), List.flatten_cons] at hws
        obtain ⟨mid, hfirst, hrest⟩ := written_append.mp hws
        refine ⟨_, mid, _, many_scanNumber_eq_some_iff.mpr ⟨_, List.length_ofFn, rfl, hfirst⟩,
          ih.mpr ⟨fun a => ws a.succ, rfl, hrest⟩, ?_⟩
        simp only [tableValues, List.ofFn_succ (n := j), List.map_ofFn]
        rfl

/-! ## reading a print back -/

section Print

variable {α β : Type} {scan : Scanner α} {item : β → List Char} {good : β → Prop}
  [DecidablePred good] {value : β → α} {left : List Char}

/-- If the good items are read back from behind blanks, up to some blanks again, and
the others are not read, then a list of items is read back in the same way. -/
theorem many_printed (hleft : ∀ c ∈ left, isBlank c = true) {l : List β} (hl : l ≠ [])
    (hitem : ∀ b ∈ l, ∀ blanks : List Char, (∀ c ∈ blanks, isBlank c = true) → ∀ rest,
      scan (blanks ++ (item b ++ rest)) = if good b then some (value b, left ++ rest) else none)
    {blanks : List Char} (hblanks : ∀ c ∈ blanks, isBlank c = true) (rest : List Char) :
    scan.many l.length (blanks ++ (l.flatMap item ++ rest)) =
      if ∀ b ∈ l, good b then some (l.map value, left ++ rest) else none := by
  induction l generalizing blanks with
  | nil => exact absurd rfl hl
  | cons b l ih =>
      have hread := hitem b List.mem_cons_self blanks hblanks (l.flatMap item ++ rest)
      rw [List.flatMap_cons, List.append_assoc]
      by_cases hb : good b
      · rw [if_pos hb] at hread
        cases l with
        | nil =>
            rw [if_pos (by simpa using hb)]
            exact many_succ hread rfl
        | cons next l =>
            have htail := ih (List.cons_ne_nil next l)
              (fun b' hb' => hitem b' (List.mem_cons_of_mem b hb')) hleft
            simp only [List.forall_mem_cons (a := b), hb, true_and]
            split
            · next hgood =>
                rw [if_pos hgood] at htail
                exact many_succ hread htail
            · next hbad =>
                rw [if_neg hbad] at htail
                simp only [List.length_cons, many, hread] at htail ⊢
                rw [htail]
      · rw [if_neg hb] at hread
        rw [if_neg fun h => hb (h b List.mem_cons_self)]
        simp only [List.length_cons, many, hread]

end Print

end ConcurrencyLab
