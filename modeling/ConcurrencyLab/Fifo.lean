import ConcurrencyLab.Lts
import Mathlib.Data.Nat.ModEq

/-!
# ConcurrencyLab.Fifo

The bounded first-in first-out queue, as a transition system: what a queue of a
given capacity is for, whatever holds its jobs.

A call adds a job behind the stored ones or removes the oldest of them.  A full
queue refuses the addition, an empty one the removal.  A removal goes through an
out-parameter, so it names what that variable held before; a refused one hands
this value back.

* `Fifo.lts` — the queue, its state the list of stored jobs, oldest first;
* `Fifo.added`, `Fifo.removed` — the jobs a log reports as gone in and come out;
* `Fifo.added_eq` — nothing is lost, invented or reordered;
* `mod_ne_mod_of_lt` — distinct numbers within one revolution name distinct slots.
-/

namespace ConcurrencyLab

universe u

/-- A call on a queue. -/
inductive QueueCall (α : Type u)
  | add (job : α)
  | remove (out : α)
deriving DecidableEq

/-- What a call reports: the job that went in or came out, or the refusal; a
refused removal reports the out-parameter. -/
inductive QueueResult (α : Type u)
  | added (job : α)
  | full
  | removed (job : α)
  | empty (out : α)
deriving DecidableEq

namespace Fifo

variable {α : Type u} {capacity : Nat}

/-- One call on the stored jobs. -/
def call (capacity : Nat) (stored : List α) : QueueCall α → QueueResult α × List α
  | .add job =>
      if stored.length < capacity then (.added job, stored ++ [job]) else (.full, stored)
  | .remove out =>
      match stored with
      | [] => (.empty out, [])
      | job :: rest => (.removed job, rest)

/-- The bounded queue; every call returns. -/
def lts (α : Type u) (capacity : Nat) : Lts (List α) (QueueCall α) (QueueResult α) where
  init := []
  step stored c := some ([(call capacity stored c).1], (call capacity stored c).2)

/-- The jobs successfully added, in order. -/
def added (log : List (QueueResult α)) : List α :=
  log.filterMap fun
    | .added job => some job
    | _ => none

/-- The jobs successfully removed, in order. -/
def removed (log : List (QueueResult α)) : List α :=
  log.filterMap fun
    | .removed job => some job
    | _ => none

/-! ## the two histories -/

@[simp] theorem added_nil : added ([] : List (QueueResult α)) = [] := rfl

@[simp] theorem removed_nil : removed ([] : List (QueueResult α)) = [] := rfl

@[simp] theorem added_append (log es : List (QueueResult α)) :
    added (log ++ es) = added log ++ added es := List.filterMap_append

@[simp] theorem removed_append (log es : List (QueueResult α)) :
    removed (log ++ es) = removed log ++ removed es := List.filterMap_append

/-- **Conservation**: what has been added is what has been removed followed by
what is stored. -/
theorem added_eq {log : List (QueueResult α)} {stored : List α}
    (h : (lts α capacity).Run log stored) : added log = removed log ++ stored := by
  induction h with
  | init => rfl
  | @step log stored c es stored' _ hstep ih =>
      simp only [lts, Option.some.injEq, Prod.mk.injEq] at hstep
      obtain ⟨rfl, rfl⟩ := hstep
      rw [added_append, removed_append, ih]
      cases c with
      | add job =>
          by_cases hroom : stored.length < capacity
          · simp [call, hroom, added, removed]
          · simp [call, hroom, added, removed]
      | remove out =>
          cases stored with
          | nil => simp [call, added, removed]
          | cons job rest => simp [call, added, removed]

/-- A queue never stores more than its capacity. -/
theorem length_le {log : List (QueueResult α)} {stored : List α}
    (h : (lts α capacity).Run log stored) : stored.length ≤ capacity := by
  induction h with
  | init => exact Nat.zero_le _
  | @step log stored c es stored' _ hstep ih =>
      simp only [lts, Option.some.injEq, Prod.mk.injEq] at hstep
      obtain ⟨-, rfl⟩ := hstep
      cases c with
      | add job =>
          by_cases hroom : stored.length < capacity
          · simp only [call, if_pos hroom, List.length_append, List.length_singleton]
            omega
          · simpa only [call, if_neg hroom] using ih
      | remove out =>
          cases stored with
          | nil => exact Nat.zero_le _
          | cons job rest =>
              rw [List.length_cons] at ih
              show rest.length ≤ capacity
              omega

/-! ## runs without a refusal -/

/-- The run with a job added. -/
theorem run_add {log : List (QueueResult α)} {stored : List α}
    (h : (lts α capacity).Run log stored) (job : α) (hroom : stored.length < capacity) :
    (lts α capacity).Run (log ++ [.added job]) (stored ++ [job]) :=
  h.step (a := .add job) (by simp [lts, call, hroom])

/-- The run with the oldest job removed. -/
theorem run_remove {log : List (QueueResult α)} {job : α} {rest : List α}
    (h : (lts α capacity).Run log (job :: rest)) :
    (lts α capacity).Run (log ++ [.removed job]) rest :=
  h.step (a := .remove job) rfl

end Fifo

/-! ## positions on a ring -/

/-- Two numbers less than one revolution apart name different slots. -/
theorem mod_ne_mod_of_lt {a b m : Nat} (hab : a < b) (hb : b < a + m) : a % m ≠ b % m := by
  intro heq
  have hdvd : m ∣ b - a := (Nat.modEq_iff_dvd' hab.le).mp heq
  have hle := Nat.le_of_dvd (by omega) hdvd
  omega

/-- Conditional subtraction is the remainder, as long as the sum goes round the
ring at most once. -/
theorem sub_if_eq_mod {a m : Nat} (h : a < 2 * m) : (if m ≤ a then a - m else a) = a % m := by
  by_cases hle : m ≤ a
  · rw [if_pos hle, Nat.mod_eq_sub_mod hle, Nat.mod_eq_of_lt (by omega)]
  · rw [if_neg hle, Nat.mod_eq_of_lt (by omega)]

end ConcurrencyLab
