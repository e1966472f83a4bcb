import Mathlib.Data.List.FinRange

/-!
# ConcurrencyLab.SizeLoop

Counting loops over a machine integer.

`forSize bound body 0` is `for (size_t i = 0; i < bound; i++)`, the body being a
program that may fail.  The counter never wraps, because it stays below a number of
its own type, so the loop runs through the numbers below the bound
(`forSize_eq_foldlM`); `foldlM_simulates` is the rule by which it does what a fold of
another data type does.
-/

namespace ConcurrencyLab

universe u v w

section Loop

variable {m : Type u → Type v} [Monad m] {σ : Type u}

/-- The counter goes on by one. -/
theorem toNat_succ_of_lt {i bound : UInt64} (h : i < bound) : (i + 1).toNat = i.toNat + 1 := by
  have hi := UInt64.lt_iff_toNat_lt.mp h
  have hbound := bound.toNat_lt
  rw [UInt64.toNat_add, UInt64.toNat_one, Nat.mod_eq_of_lt (by omega)]

/-- The loop from a value of the counter on. -/
def forSize (bound : UInt64) (body : UInt64 → σ → m σ) (i : UInt64) (s : σ) : m σ :=
  if h : i < bound then body i s >>= forSize bound body (i + 1) else pure s
termination_by bound.toNat - i.toNat
decreasing_by
  have hi := UInt64.lt_iff_toNat_lt.mp h
  rw [toNat_succ_of_lt h]
  omega

/-- What is left of the loop is a fold over the numbers that are left. -/
theorem forSize_eq_foldlM_drop [LawfulMonad m] (bound : UInt64) (body : UInt64 → σ → m σ)
    (i : UInt64) (s : σ) : forSize bound body i s =
      ((List.finRange bound.toNat).drop i.toNat).foldlM
        (fun s (k : Fin bound.toNat) => body (.ofNat k.val) s) s := by
  induction hleft : bound.toNat - i.toNat generalizing i s with
  | zero =>
      have hge : ¬ i < bound := by
        rw [UInt64.lt_iff_toNat_lt]
        omega
      rw [forSize, dif_neg hge, List.drop_eq_nil_of_le (by rw [List.length_finRange]; omega)]
      rfl
  | succ left ih =>
      have hlt : i < bound := by
        rw [UInt64.lt_iff_toNat_lt]
        omega
      have hi : i.toNat < (List.finRange bound.toNat).length := by
        rw [List.length_finRange]
        omega
      rw [forSize, dif_pos hlt, List.drop_eq_getElem_cons hi, List.foldlM_cons,
        List.getElem_finRange]
      have hcounter : UInt64.ofNat i.toNat = i := UInt64.ofNat_toNat
      show body i s >>= _ = body (UInt64.ofNat i.toNat) s >>= _
      rw [hcounter]
      congr 1
      funext s'
      rw [ih (i + 1) s' (by rw [toNat_succ_of_lt hlt]; omega), toNat_succ_of_lt hlt]

/-- **The loop is a fold** over the numbers below the bound. -/
theorem forSize_eq_foldlM [LawfulMonad m] (bound : UInt64) (body : UInt64 → σ → m σ) (s : σ) :
    forSize bound body 0 s =
      (List.finRange bound.toNat).foldlM
        (fun s (k : Fin bound.toNat) => body (.ofNat k.val) s) s := by
  rw [forSize_eq_foldlM_drop, UInt64.toNat_zero, List.drop_zero]

end Loop

/-- If each step succeeds and does what a step of `g` does, so does the fold. -/
theorem foldlM_simulates {ε : Type u} {α : Type v} {σ : Type w} {τ : Type w} {R : σ → τ → Prop}
    {f : σ → α → Except ε σ} {g : τ → α → τ}
    (hstep : ∀ s t a, R s t → ∃ s', f s a = .ok s' ∧ R s' (g t a)) (l : List α) {s : σ} {t : τ}
    (h : R s t) : ∃ s', l.foldlM f s = .ok s' ∧ R s' (l.foldl g t) := by
  induction l generalizing s t with
  | nil => exact ⟨s, rfl, h⟩
  | cons a l ih =>
      obtain ⟨s₁, h₁, hr₁⟩ := hstep s t a h
      obtain ⟨s', hs', hr'⟩ := ih hr₁
      refine ⟨s', ?_, hr'⟩
      rw [List.foldlM_cons, h₁]
      exact hs'

end ConcurrencyLab
