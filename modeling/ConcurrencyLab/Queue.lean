import ConcurrencyLab.Fifo

/-!
# ConcurrencyLab.Queue

The ring buffer of `queue.c`, the queue behind a driver.

`size_t` is `UInt64`, whose arithmetic wraps.  `queue_create` asks `malloc` for
`capacity * sizeof(void*)` bytes without a check, so the block it gets holds
`requestedSlots capacity` whole pointers, which need not be `capacity` many; what
they hold at first is arbitrary.  The block is a field of the queue whose type
fixes its length, and an access outside it has no defined result: the call is
`none`.  The job type stands for `void*`, so a job may be `NULL` and may occur
twice.

* `queueAdd`, `queueRemove` — the two operations as the code computes them;
* `Queue.calls` — a queue under any sequence of calls;
* `Queue.Step` — the four things a call can do;
* `Queue.Valid` — what holds of a queue whose block is large enough, and with it
  that no operation wraps;
* `queue_in_bounds_iff` — which capacities keep every access inside the block.
-/

namespace ConcurrencyLab

universe u

/-! ## data -/

/-- `enum queue_status` (`queue.h`). -/
inductive QueueStatus
  | success
  | error
deriving DecidableEq

/-- `queue_t` (`queue.h`), with the block of `slots` pointers that `job` points
to. -/
structure Queue (α : Type u) (slots : Nat) where
  size : UInt64
  next : UInt64
  capacity : UInt64
  job : Vector α slots
deriving DecidableEq

/-- The whole `void*` slots in the block that `queue_create` requests: the product
is a `size_t` and wraps. -/
def requestedSlots (capacity : UInt64) : Nat := (capacity * 8).toNat / 8

variable {α : Type u} {slots : Nat}

/-! ## operations -/

/-- `queue_create`, when both of its `malloc` calls succeed. -/
def queueCreate (capacity : UInt64) (block : Vector α (requestedSlots capacity)) :
    Queue α (requestedSlots capacity) where
  size := 0
  next := 0
  capacity := capacity
  job := block

/-- The position that `queue_add` writes (lines 27-30). -/
def Queue.addPos (queue : Queue α slots) : UInt64 :=
  let pos := queue.next + queue.size
  if pos ≥ queue.capacity then pos - queue.capacity else pos

/-- `queue_add`.  The comments above it and in `queue.h` have the two statuses the other
way round. -/
def queueAdd (queue : Queue α slots) (job : α) : Option (QueueStatus × Queue α slots) :=
  if queue.size ≥ queue.capacity then some (.error, queue)
  else if h : queue.addPos.toNat < slots then
    some (.success,
      { queue with job := queue.job.set queue.addPos.toNat job h, size := queue.size + 1 })
  else none

/-- The position behind the one `queue_remove` reads (lines 44-47). -/
def Queue.nextPos (queue : Queue α slots) : UInt64 :=
  let next := queue.next + 1
  if next ≥ queue.capacity then next - queue.capacity else next

/-- `queue_remove`; `out` is what `*job` holds before the call, and the last
component what it holds afterwards. -/
def queueRemove (queue : Queue α slots) (out : α) :
    Option (QueueStatus × Queue α slots × α) :=
  if queue.size > 0 then
    if h : queue.next.toNat < slots then
      some (.success, { queue with size := queue.size - 1, next := queue.nextPos },
        queue.job[queue.next.toNat])
    else none
  else some (.error, queue, out)

/-- `queue_current_size`. -/
def queueCurrentSize (queue : Queue α slots) : UInt64 := queue.size

/-- `queue_capacity`. -/
def queueCapacity (queue : Queue α slots) : UInt64 := queue.capacity

/-- `peek_queue`. -/
def peekQueue (queue : Queue α slots) (index : UInt64) : Option α := queue.job[index.toNat]?

/-! ## sequences of calls -/

/-- One call as an observer with a view of the block sees it: the slot it wrote or
read, if any, and what it reported. -/
structure QueueEvent (α : Type u) where
  slot : Option Nat
  result : QueueResult α
deriving DecidableEq

/-- The event of a `queue_add` on `queue`. -/
def Queue.addEvent (queue : Queue α slots) (job : α) : QueueStatus → QueueEvent α
  | .success => ⟨some queue.addPos.toNat, .added job⟩
  | .error => ⟨none, .full⟩

/-- The event of a `queue_remove` on `queue` that leaves `job` in the
out-parameter. -/
def Queue.removeEvent (queue : Queue α slots) (job : α) : QueueStatus → QueueEvent α
  | .success => ⟨some queue.next.toNat, .removed job⟩
  | .error => ⟨none, .empty job⟩

/-- A queue under calls.  It stops at an access outside its block. -/
def Queue.calls (capacity : UInt64) (block : Vector α (requestedSlots capacity)) :
    Lts (Queue α (requestedSlots capacity)) (QueueCall α) (QueueEvent α) where
  init := queueCreate capacity block
  step queue
    | .add job => (queueAdd queue job).map fun r => ([queue.addEvent job r.1], r.2)
    | .remove out =>
        (queueRemove queue out).map fun r => ([queue.removeEvent r.2.2 r.1], r.2.1)

/-! ## the operations in natural numbers -/

/-- What every queue keeps whose block has a slot for each of its `capacity`
jobs. -/
structure Queue.Valid (queue : Queue α slots) : Prop where
  allocated : queue.capacity.toNat ≤ slots
  small : queue.capacity.toNat < 2 ^ 61
  size_le : queue.size.toNat ≤ queue.capacity.toNat
  next_le : queue.next.toNat ≤ queue.capacity.toNat - 1

/-- No `size_t` operation of either call wraps. -/
structure Queue.NoWrap (queue : Queue α slots) : Prop where
  add_pos : queue.size < queue.capacity →
    (queue.next + queue.size).toNat = queue.next.toNat + queue.size.toNat
  add_sub : queue.size < queue.capacity → queue.next + queue.size ≥ queue.capacity →
    (queue.next + queue.size - queue.capacity).toNat + queue.capacity.toNat =
      (queue.next + queue.size).toNat
  add_size : queue.size < queue.capacity → (queue.size + 1).toNat = queue.size.toNat + 1
  remove_size : queue.size > 0 → (queue.size - 1).toNat + 1 = queue.size.toNat
  remove_next : queue.size > 0 → (queue.next + 1).toNat = queue.next.toNat + 1
  remove_sub : queue.size > 0 → queue.next + 1 ≥ queue.capacity →
    (queue.next + 1 - queue.capacity).toNat + queue.capacity.toNat = (queue.next + 1).toNat

/-- The slots that are left of the capacity when the request wraps. -/
theorem requestedSlots_eq (capacity : UInt64) :
    requestedSlots capacity = capacity.toNat % 2 ^ 61 := by
  unfold requestedSlots
  rw [UInt64.toNat_mul, show (8 : UInt64).toNat = 8 from rfl]
  omega

theorem toNat_add_of_lt {a b : UInt64} (h : a.toNat + b.toNat < 2 ^ 64) :
    (a + b).toNat = a.toNat + b.toNat := by
  rw [UInt64.toNat_add, Nat.mod_eq_of_lt h]

namespace Queue

variable {queue : Queue α slots}

theorem Valid.noWrap (hv : queue.Valid) : queue.NoWrap := by
  obtain ⟨-, hsmall, hsize, hnext⟩ := hv
  have hsub : ∀ {a b : UInt64}, a ≥ b → (a - b).toNat + b.toNat = a.toNat := by
    intro a b hge
    rw [UInt64.toNat_sub_of_le a b hge, Nat.sub_add_cancel (UInt64.le_iff_toNat_le.mp hge)]
  have hone : (1 : UInt64).toNat = 1 := rfl
  constructor
  case add_pos => exact fun _ => toNat_add_of_lt (by omega)
  case add_sub => exact fun _ => hsub
  case add_size => exact fun _ => toNat_add_of_lt (by rw [hone]; omega)
  case remove_size =>
    intro hpos
    refine hsub (UInt64.le_iff_toNat_le.mpr ?_)
    exact UInt64.lt_iff_toNat_lt.mp hpos
  case remove_next => exact fun _ => toNat_add_of_lt (by rw [hone]; omega)
  case remove_sub => exact fun _ => hsub

/-- The position of an addition is the end of the window that starts at `next`. -/
theorem Valid.addPos_toNat (hv : queue.Valid) (hroom : queue.size < queue.capacity) :
    queue.addPos.toNat = (queue.next.toNat + queue.size.toNat) % queue.capacity.toNat := by
  have hlt := UInt64.lt_iff_toNat_lt.mp hroom
  have hnext := hv.next_le
  have hpos := hv.noWrap.add_pos hroom
  rw [← sub_if_eq_mod (by omega), ← hpos]
  unfold addPos
  by_cases hge : queue.next + queue.size ≥ queue.capacity
  · have hsub := hv.noWrap.add_sub hroom hge
    rw [if_pos hge, if_pos (UInt64.le_iff_toNat_le.mp hge)]
    omega
  · rw [if_neg hge, if_neg (fun h => hge (UInt64.le_iff_toNat_le.mpr h))]

/-- `next` moves one slot on. -/
theorem Valid.nextPos_toNat (hv : queue.Valid) (hpos : queue.size > 0) :
    queue.nextPos.toNat = (queue.next.toNat + 1) % queue.capacity.toNat := by
  have hlt : 0 < queue.size.toNat := UInt64.lt_iff_toNat_lt.mp hpos
  have hsize := hv.size_le
  have hnext := hv.next_le
  have hadd := hv.noWrap.remove_next hpos
  rw [← sub_if_eq_mod (by omega), ← hadd]
  unfold nextPos
  by_cases hge : queue.next + 1 ≥ queue.capacity
  · have hsub := hv.noWrap.remove_sub hpos hge
    rw [if_pos hge, if_pos (UInt64.le_iff_toNat_le.mp hge)]
    omega
  · rw [if_neg hge, if_neg (fun h => hge (UInt64.le_iff_toNat_le.mpr h))]

end Queue

/-! ## what one call does -/

/-- The four outcomes of a call. -/
inductive Queue.Step (queue : Queue α slots) : QueueCall α → QueueEvent α → Queue α slots → Prop
  | added (job : α) (hroom : queue.size < queue.capacity) (h : queue.addPos.toNat < slots) :
      Step queue (.add job) ⟨some queue.addPos.toNat, .added job⟩
        { queue with job := queue.job.set queue.addPos.toNat job h, size := queue.size + 1 }
  | full (job : α) (hfull : queue.capacity ≤ queue.size) :
      Step queue (.add job) ⟨none, .full⟩ queue
  | removed (out : α) (hpos : queue.size > 0) (h : queue.next.toNat < slots) :
      Step queue (.remove out) ⟨some queue.next.toNat, .removed queue.job[queue.next.toNat]⟩
        { queue with size := queue.size - 1, next := queue.nextPos }
  | empty (out : α) (hempty : ¬ queue.size > 0) :
      Step queue (.remove out) ⟨none, .empty out⟩ queue

theorem queueAdd_eq_some {queue queue' : Queue α slots} {job : α} {status : QueueStatus}
    (h : queueAdd queue job = some (status, queue')) :
    queue.Step (.add job) (queue.addEvent job status) queue' := by
  unfold queueAdd at h
  split at h
  · next hfull =>
      obtain ⟨rfl, rfl⟩ := Prod.mk.inj (Option.some.inj h)
      exact .full job hfull
  · next hroom =>
      split at h
      · next hslot =>
          obtain ⟨rfl, rfl⟩ := Prod.mk.inj (Option.some.inj h)
          exact .added job (UInt64.not_le.mp hroom) hslot
      · contradiction

theorem queueRemove_eq_some {queue queue' : Queue α slots} {out job : α} {status : QueueStatus}
    (h : queueRemove queue out = some (status, queue', job)) :
    queue.Step (.remove out) (queue.removeEvent job status) queue' := by
  unfold queueRemove at h
  split at h
  · next hpos =>
      split at h
      · next hslot =>
          simp only [Option.some.injEq, Prod.mk.injEq] at h
          obtain ⟨rfl, rfl, rfl⟩ := h
          exact .removed out hpos hslot
      · contradiction
  · next hempty =>
      simp only [Option.some.injEq, Prod.mk.injEq] at h
      obtain ⟨rfl, rfl, rfl⟩ := h
      exact .empty _ hempty

namespace Queue

variable {capacity : UInt64} {block : Vector α (requestedSlots capacity)}

/-- Every step of a queue is one of the four. -/
theorem step_of_calls {queue queue' : Queue α (requestedSlots capacity)} {c : QueueCall α}
    {es : List (QueueEvent α)} (h : (calls capacity block).step queue c = some (es, queue')) :
    ∃ e, es = [e] ∧ queue.Step c e queue' := by
  cases c with
  | add job =>
      obtain ⟨⟨status, q⟩, hadd, heq⟩ := Option.map_eq_some_iff.mp h
      obtain ⟨rfl, rfl⟩ := Prod.mk.inj heq
      exact ⟨_, rfl, queueAdd_eq_some hadd⟩
  | remove out =>
      obtain ⟨⟨status, q, job⟩, hremove, heq⟩ := Option.map_eq_some_iff.mp h
      obtain ⟨rfl, rfl⟩ := Prod.mk.inj heq
      exact ⟨_, rfl, queueRemove_eq_some hremove⟩

/-! ## the accesses stay inside the block -/

/-- Both calls stay inside the block, and an addition writes the exact position
behind the stored jobs. -/
def InBounds (queue : Queue α slots) : Prop :=
  (queue.size < queue.capacity →
    queue.addPos.toNat < slots ∧
      queue.addPos.toNat = (queue.next.toNat + queue.size.toNat) % queue.capacity.toNat) ∧
  (queue.size > 0 → queue.next.toNat < slots)

theorem Valid.inBounds {queue : Queue α slots} (hv : queue.Valid) : queue.InBounds := by
  have halloc := hv.allocated
  constructor
  · intro hroom
    have hlt := UInt64.lt_iff_toNat_lt.mp hroom
    have hpos := hv.addPos_toNat hroom
    have hmod := Nat.mod_lt (queue.next.toNat + queue.size.toNat) (Nat.zero_lt_of_lt hlt)
    exact ⟨by omega, hpos⟩
  · intro hpos
    have hlt : 0 < queue.size.toNat := UInt64.lt_iff_toNat_lt.mp hpos
    have hsize := hv.size_le
    have hnext := hv.next_le
    omega

theorem InBounds.queueAdd_isSome {queue : Queue α slots} (hb : queue.InBounds) (job : α) :
    (queueAdd queue job).isSome := by
  unfold queueAdd
  split
  · rfl
  · next hroom =>
      rw [dif_pos (hb.1 (UInt64.not_le.mp hroom)).1]
      rfl

theorem InBounds.queueRemove_isSome {queue : Queue α slots} (hb : queue.InBounds) (out : α) :
    (queueRemove queue out).isSome := by
  unfold queueRemove
  split
  · next hpos =>
      rw [dif_pos (hb.2 hpos)]
      rfl
  · rfl

/-- On a queue that stays inside its block every call returns. -/
theorem InBounds.call_isSome {queue : Queue α (requestedSlots capacity)} (hb : queue.InBounds)
    (c : QueueCall α) : ((calls capacity block).step queue c).isSome := by
  cases c with
  | add job =>
      show ((queueAdd queue job).map _).isSome
      rw [Option.isSome_map]
      exact hb.queueAdd_isSome job
  | remove out =>
      show ((queueRemove queue out).map _).isSome
      rw [Option.isSome_map]
      exact hb.queueRemove_isSome out

/-- A call keeps a queue valid. -/
theorem Valid.step {queue queue' : Queue α slots} {c : QueueCall α} {e : QueueEvent α}
    (hv : queue.Valid) (h : queue.Step c e queue') : queue'.Valid := by
  cases h with
  | added job hroom hslot =>
      have hlt := UInt64.lt_iff_toNat_lt.mp hroom
      have hsize := hv.noWrap.add_size hroom
      exact ⟨hv.allocated, hv.small, by show (queue.size + 1).toNat ≤ queue.capacity.toNat; omega,
        hv.next_le⟩
  | full => exact hv
  | removed out hpos hslot =>
      have hlt : 0 < queue.size.toNat := UInt64.lt_iff_toNat_lt.mp hpos
      have hle := hv.size_le
      have hsize := hv.noWrap.remove_size hpos
      have hnext := hv.nextPos_toNat hpos
      have hmod := Nat.mod_lt (queue.next.toNat + 1) (show 0 < queue.capacity.toNat by omega)
      exact ⟨hv.allocated, hv.small, by show (queue.size - 1).toNat ≤ queue.capacity.toNat; omega,
        by show queue.nextPos.toNat ≤ queue.capacity.toNat - 1; omega⟩
  | empty => exact hv

theorem valid_create (hcap : capacity.toNat < 2 ^ 61) : (queueCreate capacity block).Valid where
  allocated := by
    show capacity.toNat ≤ requestedSlots capacity
    rw [requestedSlots_eq, Nat.mod_eq_of_lt hcap]
  small := hcap
  size_le := Nat.zero_le _
  next_le := Nat.zero_le _

theorem run_capacity {log : List (QueueEvent α)} {queue : Queue α (requestedSlots capacity)}
    (h : (calls capacity block).Run log queue) : queue.capacity = capacity := by
  refine h.invariant (P := fun _ queue => queue.capacity = capacity) rfl ?_
  intro log s c es s' _ hcap hstep
  obtain ⟨e, -, hs⟩ := step_of_calls hstep
  cases hs <;> exact hcap

theorem run_valid (hcap : capacity.toNat < 2 ^ 61) {log : List (QueueEvent α)}
    {queue : Queue α (requestedSlots capacity)} (h : (calls capacity block).Run log queue) :
    queue.Valid := by
  refine h.invariant (P := fun _ queue => queue.Valid) (valid_create hcap) ?_
  intro log s c es s' _ hv hstep
  obtain ⟨e, -, hs⟩ := step_of_calls hstep
  exact hv.step hs

theorem calls_add {queue queue' : Queue α (requestedSlots capacity)} {job : α}
    {status : QueueStatus} (h : queueAdd queue job = some (status, queue')) :
    (calls capacity block).step queue (.add job) =
      some ([queue.addEvent job status], queue') := by
  show (queueAdd queue job).map _ = _
  rw [h, Option.map_some]

/-- As long as the block has a slot left, additions fill it from position 0 on. -/
theorem run_filled (block : Vector α (requestedSlots capacity)) (job : α) (k : Nat)
    (hblock : k ≤ requestedSlots capacity) (hk : k < capacity.toNat) :
    ∃ log queue, (calls capacity block).Run log queue ∧ queue.capacity = capacity ∧
      queue.next = 0 ∧ queue.size.toNat = k := by
  induction k with
  | zero => exact ⟨[], _, .init, rfl, rfl, rfl⟩
  | succ k ih =>
      obtain ⟨log, queue, hrun, hcap, hnext, hsize⟩ := ih (by omega) (by omega)
      have hroom : queue.size < queue.capacity := UInt64.lt_iff_toNat_lt.mpr (by rw [hcap]; omega)
      have hpos : queue.addPos.toNat = k := by
        unfold addPos
        rw [hnext, UInt64.zero_add, if_neg (UInt64.not_le.mpr hroom), hsize]
      have hslot : queue.addPos.toNat < requestedSlots capacity := by omega
      have hadd : queueAdd queue job = some (.success, { queue with
          job := queue.job.set queue.addPos.toNat job hslot, size := queue.size + 1 }) := by
        rw [queueAdd, if_neg (UInt64.not_le.mpr hroom), dif_pos hslot]
      have hbound := UInt64.toNat_lt capacity
      have hone : (1 : UInt64).toNat = 1 := rfl
      refine ⟨_, _, hrun.step (calls_add hadd), hcap, hnext, ?_⟩
      show (queue.size + 1).toNat = k + 1
      rw [toNat_add_of_lt (by omega), hsize, hone]

/-- **The block is large enough** exactly when the product in `queue_create` does
not wrap. -/
theorem queue_in_bounds_iff [Inhabited α] (capacity : UInt64) :
    (∀ (block : Vector α (requestedSlots capacity)) log queue,
      (calls capacity block).Run log queue → queue.InBounds) ↔ capacity.toNat < 2 ^ 61 := by
  constructor
  · intro hall
    by_contra hbig
    have hslots := requestedSlots_eq capacity
    -- the additions before the first one behind the block
    obtain ⟨log, queue, hrun, hcap, hnext, hsize⟩ :=
      run_filled (Vector.replicate _ (default : α)) default (requestedSlots capacity)
        (Nat.le_refl _) (by omega)
    have hroom : queue.size < queue.capacity := UInt64.lt_iff_toNat_lt.mpr (by rw [hcap]; omega)
    have hpos : queue.addPos = queue.size := by
      unfold addPos
      rw [hnext, UInt64.zero_add, if_neg (UInt64.not_le.mpr hroom)]
    have hslot := ((hall _ log queue hrun).1 hroom).1
    rw [hpos] at hslot
    omega
  · exact fun hsmall _ _ _ hrun => (run_valid hsmall hrun).inBounds

/-- A capacity of `2 ^ 61 + 1` gets a block of one slot; the second addition is
accepted and writes slot 1. -/
theorem second_add_out_of_block :
    ¬ ∀ (capacity : UInt64) (block : Vector (Option Nat) (requestedSlots capacity))
      (log : List (QueueEvent (Option Nat))) (queue : Queue (Option Nat) _),
      (calls capacity block).Run log queue → queue.InBounds := by
  intro hall
  obtain ⟨log, queue, hrun, hp⟩ := Lts.Run.exists_of_exec
    (calls 2305843009213693953 (Vector.replicate _ none)) [.add (some 7)]
    (fun r => decide (r.2.size < r.2.capacity) && decide (r.2.addPos.toNat = 1)) (by decide +kernel)
  simp only [Bool.and_eq_true, decide_eq_true_eq] at hp
  have hslot := ((hall _ _ log queue hrun).1 hp.1).1
  rw [hp.2, requestedSlots_eq] at hslot
  exact absurd hslot (by decide)

end Queue

end ConcurrencyLab
