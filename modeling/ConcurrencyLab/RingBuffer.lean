import ConcurrencyLab.Queue

/-!
# ConcurrencyLab.RingBuffer

The ring buffer of `queue.c` refines the bounded FIFO queue, and where it keeps
each job.

`Represents` relates a queue to the jobs it stores: they lie in the window of
`size` slots that starts at `next` and goes round the end of the block.  Every
call moves the window as the FIFO queue moves its list
(`run_represents`, `ring_buffer_refines_fifo`).

The tests look at fixed slots through `peek_queue`.  `Layout` ties `next` and the
slots to how many additions and removals there have been: addition number `k` and
removal number `k` both use slot `k % capacity`, so a slot holds the last job that
was added to it (`ring_buffer_layout`).
-/

namespace ConcurrencyLab

universe u

variable {α : Type u} {slots : Nat}

/-- The calls of a log as the FIFO queue sees them. -/
def results (log : List (QueueEvent α)) : List (QueueResult α) := log.map QueueEvent.result

/-- The slots that the successful additions wrote, in order. -/
def addedSlots (log : List (QueueEvent α)) : List Nat :=
  log.filterMap fun e =>
    match e.result with
    | .added _ => e.slot
    | _ => none

/-- The slots that the successful removals read, in order. -/
def removedSlots (log : List (QueueEvent α)) : List Nat :=
  log.filterMap fun e =>
    match e.result with
    | .removed _ => e.slot
    | _ => none

theorem results_append (log es : List (QueueEvent α)) :
    results (log ++ es) = results log ++ results es := List.map_append

@[simp] theorem addedSlots_append (log es : List (QueueEvent α)) :
    addedSlots (log ++ es) = addedSlots log ++ addedSlots es := List.filterMap_append

@[simp] theorem removedSlots_append (log es : List (QueueEvent α)) :
    removedSlots (log ++ es) = removedSlots log ++ removedSlots es := List.filterMap_append

namespace Queue

/-! ## the window of stored jobs -/

/-- `stored` lists the jobs in the queue, oldest first. -/
structure Represents (queue : Queue α slots) (stored : List α) : Prop where
  valid : queue.Valid
  length : queue.size.toNat = stored.length
  window : ∀ k, k < stored.length →
    queue.job[(queue.next.toNat + k) % queue.capacity.toNat]? = stored[k]?

variable {queue queue' : Queue α slots} {stored : List α} {c : QueueCall α} {e : QueueEvent α}

theorem Represents.size_lt_iff (h : queue.Represents stored) :
    queue.size < queue.capacity ↔ stored.length < queue.capacity.toNat := by
  rw [UInt64.lt_iff_toNat_lt, h.length]

theorem Represents.size_pos_iff (h : queue.Represents stored) :
    queue.size > 0 ↔ 0 < stored.length := by
  rw [← h.length]
  exact UInt64.lt_iff_toNat_lt

/-- The slot of an addition lies outside the window. -/
theorem Represents.added (h : queue.Represents stored) (job : α)
    (hroom : queue.size < queue.capacity) (hslot : queue.addPos.toNat < slots) :
    Represents { queue with
      job := queue.job.set queue.addPos.toNat job hslot, size := queue.size + 1 }
      (stored ++ [job]) where
  valid := h.valid.step (.added job hroom hslot)
  length := by
    rw [List.length_append, List.length_singleton, ← h.length]
    exact h.valid.noWrap.add_size hroom
  window := by
    intro k hk
    have hlt := h.size_lt_iff.mp hroom
    have hpos := h.valid.addPos_toNat hroom
    rw [h.length] at hpos
    rw [List.length_append, List.length_singleton] at hk
    show (queue.job.set queue.addPos.toNat job hslot)[_]? = _
    by_cases hnew : k = stored.length
    · subst hnew
      simp only [← hpos]
      rw [Vector.getElem?_set_self, List.getElem?_concat_length]
    · have hne : queue.addPos.toNat ≠ (queue.next.toNat + k) % queue.capacity.toNat := by
        rw [hpos]
        exact (mod_ne_mod_of_lt (by omega) (by omega)).symm
      rw [Vector.getElem?_set_ne _ hne, List.getElem?_append_left (by omega)]
      exact h.window k (by omega)

/-- A removal takes the job at the front of the window. -/
theorem Represents.removed {job : α} (h : queue.Represents (job :: stored))
    (hpos : queue.size > 0) :
    queue.job[queue.next.toNat]? = some job ∧
      Represents { queue with size := queue.size - 1, next := queue.nextPos } stored := by
  have hlen := h.length
  have hsize := h.valid.size_le
  have hnext := h.valid.next_le
  rw [List.length_cons] at hlen
  constructor
  · have hfront := h.window 0 (Nat.zero_lt_succ _)
    rwa [Nat.add_zero, Nat.mod_eq_of_lt (by omega)] at hfront
  · constructor
    case valid =>
      have hslot := h.valid.inBounds.2 hpos
      exact h.valid.step (.removed job hpos hslot)
    case length =>
      have := h.valid.noWrap.remove_size hpos
      show (queue.size - 1).toNat = stored.length
      omega
    case window =>
      intro k hk
      show queue.job[(queue.nextPos.toNat + k) % queue.capacity.toNat]? = stored[k]?
      rw [h.valid.nextPos_toNat hpos, Nat.mod_add_mod, Nat.add_assoc, Nat.add_comm 1 k]
      exact h.window (k + 1) (Nat.succ_lt_succ hk)

/-- Each call does to the stored jobs what the FIFO queue does. -/
theorem Represents.step (h : queue.Represents stored) (hs : queue.Step c e queue') :
    ∃ stored', Fifo.call queue.capacity.toNat stored c = (e.result, stored') ∧
      queue'.Represents stored' := by
  cases hs with
  | added job hroom hslot =>
      have hlt := h.size_lt_iff.mp hroom
      exact ⟨stored ++ [job], if_pos hlt, h.added job hroom hslot⟩
  | full job hfull =>
      have hlt := h.size_lt_iff.not.mp (UInt64.not_lt.mpr hfull)
      exact ⟨stored, if_neg hlt, h⟩
  | removed out hpos hslot =>
      cases stored with
      | nil => exact absurd (h.size_pos_iff.mp hpos) (Nat.lt_irrefl 0)
      | cons job rest =>
          obtain ⟨hjob, hrest⟩ := h.removed hpos
          rw [Vector.getElem?_eq_getElem hslot, Option.some.injEq] at hjob
          exact ⟨rest, by rw [hjob]; rfl, hrest⟩
  | empty out hempty =>
      cases stored with
      | nil => exact ⟨[], rfl, h⟩
      | cons job rest => exact absurd (h.size_pos_iff.mpr (Nat.zero_lt_succ _)) hempty

/-- `queue_add` succeeds exactly when there is room, and else changes nothing. -/
theorem Represents.queueAdd_spec (h : queue.Represents stored) (job : α) :
    ∃ status queue', queueAdd queue job = some (status, queue') ∧
      (status = .success ↔ stored.length < queue.capacity.toNat) ∧
      (status = .error → queue' = queue) := by
  obtain ⟨⟨status, queue'⟩, heq⟩ :=
    Option.isSome_iff_exists.mp (h.valid.inBounds.queueAdd_isSome job)
  refine ⟨status, queue', heq, ?_⟩
  rw [← h.size_lt_iff]
  cases status with
  | success =>
      cases queueAdd_eq_some heq with
      | added _ hroom _ => exact ⟨iff_of_true rfl hroom, fun h => nomatch h⟩
  | error =>
      cases queueAdd_eq_some heq with
      | full _ hfull =>
          exact ⟨iff_of_false (fun h => nomatch h) (UInt64.not_lt.mpr hfull), fun _ => rfl⟩

/-- `queue_remove` succeeds exactly when a job is stored, and else changes
nothing. -/
theorem Represents.queueRemove_spec (h : queue.Represents stored) (out : α) :
    ∃ status queue' job, queueRemove queue out = some (status, queue', job) ∧
      (status = .success ↔ 0 < stored.length) ∧
      (status = .error → queue' = queue ∧ job = out) := by
  obtain ⟨⟨status, queue', job⟩, heq⟩ :=
    Option.isSome_iff_exists.mp (h.valid.inBounds.queueRemove_isSome out)
  refine ⟨status, queue', job, heq, ?_⟩
  rw [← h.size_pos_iff]
  cases status with
  | success =>
      cases queueRemove_eq_some heq with
      | removed _ hpos _ => exact ⟨iff_of_true rfl hpos, fun h => nomatch h⟩
  | error =>
      cases queueRemove_eq_some heq with
      | empty _ hempty =>
          exact ⟨iff_of_false (fun h => nomatch h) hempty, fun _ => ⟨rfl, rfl⟩⟩

/-! ## refinement -/

variable {capacity : UInt64} {block : Vector α (requestedSlots capacity)}
  {log : List (QueueEvent α)}

theorem represents_create (halloc : capacity.toNat ≤ requestedSlots capacity) :
    (queueCreate capacity block).Represents [] where
  valid := valid_create (by rw [requestedSlots_eq] at halloc; omega)
  length := rfl
  window k hk := absurd hk (Nat.not_lt_zero k)

/-- **Refinement**: every run of the ring buffer is a run of the bounded FIFO queue
of the same capacity, which stores what the queue represents. -/
theorem run_represents {queue : Queue α (requestedSlots capacity)}
    (halloc : capacity.toNat ≤ requestedSlots capacity)
    (h : (calls capacity block).Run log queue) :
    ∃ stored, (Fifo.lts α capacity.toNat).Run (results log) stored ∧
      queue.Represents stored := by
  have hsim := h.simulate (M := Fifo.lts α capacity.toNat) (f := QueueEvent.result)
    (R := fun queue stored => queue.capacity = capacity ∧ queue.Represents stored)
    ⟨rfl, represents_create halloc⟩ ?_
  · obtain ⟨stored, hrun, -, hrep⟩ := hsim
    exact ⟨stored, hrun, hrep⟩
  · rintro q stored c es q' ⟨hcap, hrep⟩ hstep
    obtain ⟨e, rfl, hs⟩ := step_of_calls hstep
    obtain ⟨stored', hcall, hrep'⟩ := hrep.step hs
    rw [hcap] at hcall
    refine ⟨c, stored', ?_, ?_, hrep'⟩
    · show some _ = some _
      rw [hcall]
      rfl
    · cases hs <;> exact hcap

/-- The converse: whatever is asked of a FIFO queue, the ring buffer gives the same
answers. -/
theorem run_of_fifo (block : Vector α (requestedSlots capacity))
    {results' : List (QueueResult α)} {stored : List α}
    (halloc : capacity.toNat ≤ requestedSlots capacity)
    (h : (Fifo.lts α capacity.toNat).Run results' stored) :
    ∃ log queue, (calls capacity block).Run log queue ∧ queue.Represents stored ∧
      results log = results' := by
  refine h.invariant (P := fun results' stored => ∃ log queue, (calls capacity block).Run log
    queue ∧ queue.Represents stored ∧ results log = results')
    ⟨[], queueCreate capacity block, .init, represents_create halloc, rfl⟩ ?_
  rintro _ stored c es stored' - ⟨log, queue, hrun, hrep, rfl⟩ hstep
  have hsome : ((calls capacity block).step queue c).isSome := hrep.valid.inBounds.call_isSome c
  obtain ⟨⟨es', queue'⟩, hserved⟩ := Option.isSome_iff_exists.mp hsome
  obtain ⟨e, rfl, hs⟩ := step_of_calls hserved
  obtain ⟨stored₁, hcall, hrep'⟩ := hrep.step hs
  rw [run_capacity hrun] at hcall
  simp only [Fifo.lts, hcall, Option.some.injEq, Prod.mk.injEq] at hstep
  obtain ⟨rfl, rfl⟩ := hstep
  exact ⟨_, _, hrun.step hserved, hrep', results_append _ _⟩

/-- Every slot in the log of a run is below the capacity. -/
theorem run_slot_lt {queue : Queue α (requestedSlots capacity)}
    (halloc : capacity.toNat ≤ requestedSlots capacity)
    (h : (calls capacity block).Run log queue) :
    ∀ e ∈ log, ∀ i, e.slot = some i → i < capacity.toNat := by
  refine h.invariant (P := fun log _ => ∀ e ∈ log, ∀ i, e.slot = some i → i < capacity.toNat)
    (fun e he => nomatch he) ?_
  intro log s c es s' hrun hlog hstep e he i hi
  rcases List.mem_append.mp he with hold | hnew
  · exact hlog e hold i hi
  obtain ⟨e', rfl, hs⟩ := step_of_calls hstep
  obtain rfl := List.mem_singleton.mp hnew
  have hcap := run_capacity hrun
  obtain ⟨stored, -, hrep⟩ := run_represents halloc hrun
  cases hs with
  | added job hroom hslot =>
      obtain rfl := Option.some.inj hi
      rw [hrep.valid.addPos_toNat hroom, hcap]
      have hlt := UInt64.lt_iff_toNat_lt.mp hroom
      exact Nat.mod_lt _ (by rw [← hcap]; omega)
  | full => contradiction
  | removed out hpos hslot =>
      obtain rfl := Option.some.inj hi
      have hlt := hrep.size_pos_iff.mp hpos
      have hle := hrep.valid.size_le
      have hnext := hrep.valid.next_le
      have hlen := hrep.length
      rw [hcap] at hle hnext
      omega
  | empty => contradiction

/-- **The ring buffer is a bounded FIFO queue**, over whole runs: the stored jobs
are those added and not yet removed, in order; each call returns, succeeds exactly
when there is room or a job for it, and changes nothing when it fails; no slot is
outside the capacity and no `size_t` operation wraps. -/
theorem ring_buffer_refines_fifo {queue : Queue α (requestedSlots capacity)}
    (halloc : capacity.toNat ≤ requestedSlots capacity)
    (h : (calls capacity block).Run log queue) :
    (∃ stored, (Fifo.lts α capacity.toNat).Run (results log) stored ∧
      Fifo.added (results log) = Fifo.removed (results log) ++ stored ∧
      (queueCurrentSize queue).toNat = stored.length ∧
      (∀ job, ∃ status queue', queueAdd queue job = some (status, queue') ∧
        (status = .success ↔ stored.length < capacity.toNat) ∧
        (status = .error → queue' = queue)) ∧
      (∀ out, ∃ status queue' job, queueRemove queue out = some (status, queue', job) ∧
        (status = .success ↔ 0 < stored.length) ∧
        (status = .error → queue' = queue ∧ job = out))) ∧
    Fifo.removed (results log) <+: Fifo.added (results log) ∧
    (queueCurrentSize queue).toNat =
      (Fifo.added (results log)).length - (Fifo.removed (results log)).length ∧
    (∀ e ∈ log, ∀ i, e.slot = some i → i < capacity.toNat) ∧
    queue.NoWrap := by
  obtain ⟨stored, hrun, hrep⟩ := run_represents halloc h
  have hcap := run_capacity h
  have hadded := Fifo.added_eq hrun
  have hadd := fun job => hrep.queueAdd_spec job
  rw [hcap] at hadd
  refine ⟨⟨stored, hrun, hadded, hrep.length, hadd, hrep.queueRemove_spec⟩,
    ⟨stored, hadded.symm⟩, ?_, run_slot_lt halloc h, hrep.valid.noWrap⟩
  rw [hadded, List.length_append, Nat.add_sub_cancel_left]
  exact hrep.length

/-- A queue of two that is filled, refuses a job and is drained by one. -/
theorem ring_buffer_refines_fifo_filled :
    ∃ log queue, (calls 2 (Vector.replicate _ none)).Run log queue ∧
      Fifo.removed (results log) = [some 1] ∧
      [some 1] <+: Fifo.added (results log) ∧ queue.NoWrap := by
  obtain ⟨log, queue, hrun, hp⟩ := Lts.Run.exists_of_exec
    (calls 2 (Vector.replicate _ none))
    [.remove none, .add (some 1), .add (some 2), .add (some 3), .remove none]
    (fun r => decide (Fifo.removed (results r.1) = [some 1])) (by decide +kernel)
  have hremoved := of_decide_eq_true hp
  obtain ⟨-, hprefix, -, -, hnowrap⟩ := ring_buffer_refines_fifo (by decide) hrun
  rw [hremoved] at hprefix
  exact ⟨log, queue, hrun, hremoved, hprefix, hnowrap⟩

/-! ## physical layout -/

/-- Where the queue is on its ring after the additions of `jobs` and `taken`
removals: `next` counts the removals, and a slot holds the last job added to it. -/
structure Layout (queue : Queue α slots) (jobs : List α) (taken : Nat) : Prop where
  size : jobs.length = taken + queue.size.toNat
  next : queue.next.toNat = taken % queue.capacity.toNat
  latest : ∀ k, k < jobs.length → jobs.length ≤ k + queue.capacity.toNat →
    queue.job[k % queue.capacity.toNat]? = jobs[k]?

variable {jobs : List α} {taken : Nat}

/-- The next addition goes to the slot of its number. -/
theorem Layout.addPos_toNat (h : queue.Layout jobs taken) (hv : queue.Valid)
    (hroom : queue.size < queue.capacity) :
    queue.addPos.toNat = jobs.length % queue.capacity.toNat := by
  rw [hv.addPos_toNat hroom, h.next, h.size, Nat.mod_add_mod]

theorem Layout.added_job (h : queue.Layout jobs taken) (hv : queue.Valid) (job : α)
    (hroom : queue.size < queue.capacity) (hslot : queue.addPos.toNat < slots) :
    Layout { queue with
      job := queue.job.set queue.addPos.toNat job hslot, size := queue.size + 1 }
      (jobs ++ [job]) taken where
  size := by
    have hsize := hv.noWrap.add_size hroom
    have hcount := h.size
    rw [List.length_append, List.length_singleton]
    show jobs.length + 1 = taken + (queue.size + 1).toNat
    omega
  next := h.next
  latest := by
    intro k hk hlast
    have hpos := h.addPos_toNat hv hroom
    change _ ≤ k + queue.capacity.toNat at hlast
    rw [List.length_append, List.length_singleton] at hk hlast
    show (queue.job.set queue.addPos.toNat job hslot)[k % queue.capacity.toNat]? = _
    by_cases hnew : k = jobs.length
    · subst hnew
      simp only [← hpos]
      rw [Vector.getElem?_set_self, List.getElem?_concat_length]
    · have hne : queue.addPos.toNat ≠ k % queue.capacity.toNat := by
        rw [hpos]
        exact (mod_ne_mod_of_lt (by omega) (by omega)).symm
      rw [Vector.getElem?_set_ne _ hne, List.getElem?_append_left (by omega)]
      exact h.latest k (by omega) (by omega)

theorem Layout.removed_job (h : queue.Layout jobs taken) (hv : queue.Valid)
    (hpos : queue.size > 0) :
    Layout { queue with size := queue.size - 1, next := queue.nextPos } jobs (taken + 1) where
  size := by
    have hsize := hv.noWrap.remove_size hpos
    have hcount := h.size
    show jobs.length = taken + 1 + (queue.size - 1).toNat
    omega
  next := by
    show queue.nextPos.toNat = (taken + 1) % queue.capacity.toNat
    rw [hv.nextPos_toNat hpos, h.next, Nat.mod_add_mod]
  latest := h.latest

/-- The layout after the calls of `log`, and the slots these calls used. -/
structure Numbered (log : List (QueueEvent α)) (queue : Queue α slots) : Prop where
  layout : queue.Layout (Fifo.added (results log)) (Fifo.removed (results log)).length
  added : addedSlots log =
    (List.range (Fifo.added (results log)).length).map (· % queue.capacity.toNat)
  removed : removedSlots log =
    (List.range (Fifo.removed (results log)).length).map (· % queue.capacity.toNat)

theorem added_concat (log : List (QueueEvent α)) (e : QueueEvent α) :
    Fifo.added (results (log ++ [e])) = Fifo.added (results log) ++ Fifo.added [e.result] := by
  rw [results_append, Fifo.added_append]
  rfl

theorem removed_concat (log : List (QueueEvent α)) (e : QueueEvent α) :
    Fifo.removed (results (log ++ [e])) =
      Fifo.removed (results log) ++ Fifo.removed [e.result] := by
  rw [results_append, Fifo.removed_append]
  rfl

/-- A call that moves no job leaves the numbering as it is. -/
theorem Numbered.refused (h : Numbered log queue) (hadd : Fifo.added [e.result] = [])
    (hrem : Fifo.removed [e.result] = []) (hadds : addedSlots [e] = [])
    (hrems : removedSlots [e] = []) : Numbered (log ++ [e]) queue where
  layout := by
    rw [added_concat, removed_concat, hadd, hrem, List.append_nil, List.append_nil]
    exact h.layout
  added := by
    rw [addedSlots_append, added_concat, hadd, hadds, List.append_nil, List.append_nil]
    exact h.added
  removed := by
    rw [removedSlots_append, removed_concat, hrem, hrems, List.append_nil, List.append_nil]
    exact h.removed

theorem Numbered.step (h : Numbered log queue) (hv : queue.Valid) (hs : queue.Step c e queue') :
    Numbered (log ++ [e]) queue' := by
  cases hs with
  | added job hroom hslot =>
      have hpos := h.layout.addPos_toNat hv hroom
      constructor
      case layout =>
        rw [added_concat, removed_concat]
        show Layout _ (_ ++ [job]) (_ ++ []).length
        rw [List.append_nil]
        exact h.layout.added_job hv job hroom hslot
      case added =>
        rw [addedSlots_append, h.added, added_concat]
        show _ ++ [queue.addPos.toNat] =
          (List.range (_ ++ [job]).length).map (· % queue.capacity.toNat)
        rw [List.length_append, List.length_singleton, List.range_succ, List.map_append,
          List.map_singleton, hpos]
      case removed =>
        rw [removedSlots_append, h.removed, removed_concat]
        show _ ++ [] = (List.range (_ ++ []).length).map (· % queue.capacity.toNat)
        rw [List.append_nil, List.append_nil]
  | full job hfull => exact h.refused rfl rfl rfl rfl
  | removed out hpos hslot =>
      constructor
      case layout =>
        rw [added_concat, removed_concat, List.length_append]
        show Layout _ (_ ++ []) (_ + 1)
        rw [List.append_nil]
        exact h.layout.removed_job hv hpos
      case added =>
        rw [addedSlots_append, h.added, added_concat]
        show _ ++ [] = (List.range (_ ++ []).length).map (· % queue.capacity.toNat)
        rw [List.append_nil, List.append_nil]
      case removed =>
        rw [removedSlots_append, h.removed, removed_concat, List.length_append]
        show _ ++ [queue.next.toNat] =
          (List.range (_ + 1)).map (· % queue.capacity.toNat)
        rw [List.range_succ, List.map_append, List.map_singleton, h.layout.next]
  | empty out hempty => exact h.refused rfl rfl rfl rfl

theorem run_numbered {queue : Queue α (requestedSlots capacity)}
    (halloc : capacity.toNat ≤ requestedSlots capacity)
    (h : (calls capacity block).Run log queue) : Numbered log queue := by
  refine h.invariant (P := fun log queue => Numbered log queue) ?_ ?_
  · exact ⟨⟨rfl, (Nat.zero_mod _).symm, fun k hk => absurd hk (Nat.not_lt_zero k)⟩, rfl, rfl⟩
  · intro log s c es s' hrun hnum hstep
    obtain ⟨e, rfl, hs⟩ := step_of_calls hstep
    obtain ⟨stored, -, hrep⟩ := run_represents halloc hrun
    exact hnum.step hrep.valid hs

/-- **Physical layout**: addition number `k` writes slot `k % capacity` and no
other, removal number `k` reads slot `k % capacity`, `next` counts the removals,
and `peek_queue` finds in each slot the job of the last addition that went there. -/
theorem ring_buffer_layout {queue : Queue α (requestedSlots capacity)}
    (halloc : capacity.toNat ≤ requestedSlots capacity)
    (h : (calls capacity block).Run log queue) :
    addedSlots log =
      (List.range (Fifo.added (results log)).length).map (· % capacity.toNat) ∧
    removedSlots log =
      (List.range (Fifo.removed (results log)).length).map (· % capacity.toNat) ∧
    queue.next.toNat = (Fifo.removed (results log)).length % capacity.toNat ∧
    (∀ job status queue', queueAdd queue job = some (status, queue') →
      ∀ i, status = .error ∨ i ≠ (Fifo.added (results log)).length % capacity.toNat →
        queue'.job[i]? = queue.job[i]?) ∧
    (∀ out status queue' job, queueRemove queue out = some (status, queue', job) →
      queue'.job = queue.job) ∧
    (∀ (i : UInt64) (k : Nat) (job : α), i < capacity → k % capacity.toNat = i.toNat →
      (Fifo.added (results log))[k]? = some job →
      (∀ k', k' < (Fifo.added (results log)).length → k' % capacity.toNat = i.toNat → k' ≤ k) →
      peekQueue queue i = some job) := by
  have hcap := run_capacity h
  obtain ⟨hlayout, hadded, hremoved⟩ := run_numbered halloc h
  obtain ⟨stored, -, hrep⟩ := run_represents halloc h
  have hnext := hlayout.next
  rw [hcap] at hadded hremoved hnext
  refine ⟨hadded, hremoved, hnext, ?_, ?_, ?_⟩
  · intro job status queue' hadd i hi
    cases status with
    | success =>
        cases queueAdd_eq_some hadd with
        | added _ hroom hslot =>
            have hpos := hlayout.addPos_toNat hrep.valid hroom
            rw [hcap] at hpos
            have hne := hi.resolve_left (fun h => nomatch h)
            exact Vector.getElem?_set_ne hslot (by rw [hpos]; exact hne.symm)
    | error => cases queueAdd_eq_some hadd; rfl
  · intro out status queue' job hremove
    cases status with
    | success => cases queueRemove_eq_some hremove; rfl
    | error => cases queueRemove_eq_some hremove; rfl
  · intro i k job hi hki hk hlast
    obtain ⟨hlt, -⟩ := List.getElem?_eq_some_iff.mp hk
    have hlatest := hlayout.latest k hlt ?_
    · rw [hcap, hki, hk] at hlatest
      exact hlatest
    · -- a later addition to the same slot would come one revolution after `k`
      rw [hcap]
      by_contra hle
      have := hlast (k + capacity.toNat) (by omega) (by rw [Nat.add_mod_right]; exact hki)
      have := UInt64.lt_iff_toNat_lt.mp hi
      omega

/-- The third job of a queue of two goes round the end of the block. -/
theorem ring_buffer_layout_wrapped :
    ∃ log queue, (calls 2 (Vector.replicate _ none)).Run log queue ∧
      Fifo.added (results log) = [some 1, some 2, some 3] ∧ addedSlots log = [0, 1, 0] ∧
      peekQueue queue 0 = some (some 3) := by
  obtain ⟨log, queue, hrun, hp⟩ := Lts.Run.exists_of_exec
    (calls 2 (Vector.replicate _ none))
    [.add (some 1), .add (some 2), .add (some 3), .remove none, .add (some 3), .remove none]
    (fun r => decide (Fifo.added (results r.1) = [some 1, some 2, some 3])) (by decide +kernel)
  have hadded := of_decide_eq_true hp
  obtain ⟨hslots, -, -, -, -, hpeek⟩ := ring_buffer_layout (by decide) hrun
  rw [hadded] at hslots hpeek
  refine ⟨log, queue, hrun, hadded, hslots, hpeek 0 2 (some 3) (by decide) (by decide) rfl ?_⟩
  intro k hk _
  exact Nat.le_of_lt_succ hk

end Queue

end ConcurrencyLab
