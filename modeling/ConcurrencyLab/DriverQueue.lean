import ConcurrencyLab.Pipeline
import ConcurrencyLab.RingBuffer

/-!
# ConcurrencyLab.DriverQueue

The drivers of the stress run on the queues of `queue.c`.

A driver has to keep its jobs in the `queue_t` that `driver.h` puts into `driver_t`.
The stress run says no more of a driver than that it is a FIFO of `buffer_size` jobs,
so it remains to be shown that the queue gives it that, in every run: that no
`queue_add` is refused and no `queue_remove` finds nothing, that the jobs come out as
the routers and the main thread get them, and that the queue holds what is stored.

* `run_driverFifo`, `run_completedFifo` — what a driver does in a run is a run of a
  FIFO queue in which no call fails;
* `drivers_keep_queues` — so by `Queue.run_of_fifo` it is one of a ring buffer.
-/

namespace ConcurrencyLab

variable {n : Nat}

/-! ## what a driver does -/

/-- The result of a call on a queue, with its jobs renamed. -/
def QueueResult.map {α β : Type} (f : α → β) : QueueResult α → QueueResult β
  | .added job => .added (f job)
  | .full => .full
  | .removed job => .removed (f job)
  | .empty out => .empty (f out)

/-- Whose vector a job is; the `NULL` of a probe is nobody's. -/
def sender (job : Job n) : Option (Fin n) := job.map StatePtr.owner

/-- An event at `drivers[j]`: a job goes in or comes out.  A vector is told by its
`src`. -/
def Event.atDriver (j : Fin n) : Event n → Option (QueueResult (Option (Fin n)))
  | .accept _ dst vector =>
      if dst = j then some (.added (vector.map DistanceVector.src)) else none
  | .probe index => if index = j then some (.added none) else none
  | .take index vector =>
      if index = j then some (.removed (vector.map DistanceVector.src)) else none
  | _ => none

/-- An event at `completed_driver`. -/
def Event.atCompleted : Event n → Option (QueueResult (Job n))
  | .reply _ job _ => some (.added job)
  | .collect job => some (.removed job)
  | _ => none

section Steps

variable {C : Config n} {log : List (Event n)} {s s' : State n} {es : List (Event n)}

/-- The `src` of a vector names its owner. -/
theorem sender_eq (h : (stress C).Run log s) (job : Job n) :
    (job.map s.load).map DistanceVector.src = sender job := by
  cases job with
  | none => rfl
  | some p => exact congrArg some ((run_routerInv h p.owner).buffer.src p.slot)

/-- Between two driver calls nothing happens at a driver. -/
theorem LocalStep.atDriver {i : Fin n} {r : Router n} (h : LocalStep C s i es r) :
    (∀ j, es.filterMap (Event.atDriver j) = []) ∧ es.filterMap Event.atCompleted = [] := by
  cases h <;> exact ⟨fun _ => rfl, rfl⟩

theorem MainStep.atDriver {m : Main n} {closed : Bool} (h : MainStep C s es m closed) :
    (∀ j, es.filterMap (Event.atDriver j) = []) ∧ es.filterMap Event.atCompleted = [] := by
  cases h <;> exact ⟨fun _ => rfl, rfl⟩

/-- What `drivers[j]` does is what a FIFO queue does in which no call fails. -/
theorem run_driverFifo (hbuf : C.bufferSize = 1) (h : (stress C).Run log s) (j : Fin n) :
    ∃ flog, (Fifo.lts (Job n) 1).Run flog (s.queues j) ∧
      flog.map (QueueResult.map sender) = log.filterMap (Event.atDriver j) := by
  refine run_invariant (P := fun log s => ∃ flog, (Fifo.lts (Job n) 1).Run flog (s.queues j) ∧
    flog.map (QueueResult.map sender) = log.filterMap (Event.atDriver j))
    ⟨[], .init, rfl⟩ (fun {log s es s'} hr hp ht => ?_) h
  obtain ⟨flog, hfifo, hlog⟩ := hp
  -- a step that does nothing at `drivers[j]`
  have hsame : s'.queues j = s.queues j → es.filterMap (Event.atDriver j) = [] →
      ∃ flog, (Fifo.lts (Job n) 1).Run flog (s'.queues j) ∧
        flog.map (QueueResult.map sender) = (log ++ es).filterMap (Event.atDriver j) := by
    intro hqueue hnone
    refine ⟨flog, by rwa [hqueue], ?_⟩
    rw [List.filterMap_append, hnone, List.append_nil, hlog]
  cases ht with
  | @handle i job rest hpc hq =>
      by_cases hij : i = j
      · subst hij
        rw [hq] at hfifo
        refine ⟨_, by simpa using Fifo.run_remove hfifo, ?_⟩
        rw [List.map_append, List.filterMap_append, hlog]
        simp [Event.atDriver, QueueResult.map, sender_eq hr]
      · exact hsame (by simp [Ne.symm hij]) (by simp [Event.atDriver, hij])
  | @schedule i k m job hpc hm he hroom =>
      by_cases hkj : k = j
      · subst hkj
        rw [hbuf] at hroom
        refine ⟨_, by simpa using Fifo.run_add hfifo job hroom, ?_⟩
        rw [List.map_append, List.filterMap_append, hlog]
        simp [Event.atDriver, QueueResult.map, sender_eq hr]
      · exact hsame (by simp [Ne.symm hkj]) (by simp [Event.atDriver, hkj])
  | @probe round k hmain hroom =>
      by_cases hkj : k = j
      · subst hkj
        rw [hbuf] at hroom
        refine ⟨_, by simpa using Fifo.run_add hfifo none hroom, ?_⟩
        rw [List.map_append, List.filterMap_append, hlog]
        simp [Event.atDriver, QueueResult.map, sender]
      · exact hsame (by simp [Ne.symm hkj]) (by simp [Event.atDriver, hkj])
  | router hlocal => exact hsame rfl (hlocal.atDriver.1 j)
  | main hmain => exact hsame rfl (hmain.atDriver.1 j)
  | reply | collect | abort => exact hsame rfl rfl
  | meet _ _ _ hzero | replyMeet _ hzero | probeMeet _ hzero => omega

/-- The same of `completed_driver`, whose jobs are the answers. -/
theorem run_completedFifo (hbuf : C.bufferSize = 1) (h : (stress C).Run log s) :
    (Fifo.lts (Job n) 1).Run (log.filterMap Event.atCompleted) s.completedQueue := by
  refine run_invariant (P := fun log s =>
    (Fifo.lts (Job n) 1).Run (log.filterMap Event.atCompleted) s.completedQueue)
    .init (fun {log s es s'} hr hp ht => ?_) h
  rw [List.filterMap_append]
  have hsame : s'.completedQueue = s.completedQueue → es.filterMap Event.atCompleted = [] →
      (Fifo.lts (Job n) 1).Run (log.filterMap Event.atCompleted ++ es.filterMap Event.atCompleted)
        s'.completedQueue := by
    intro hqueue hnone
    rwa [hqueue, hnone, List.append_nil]
  cases ht with
  | reply hpc hroom =>
      rw [hbuf] at hroom
      exact Fifo.run_add hp _ hroom
  | collect hmain hk hq =>
      rw [hq] at hp
      exact Fifo.run_remove hp
  | router hlocal => exact hsame rfl hlocal.atDriver.2
  | main hmain => exact hsame rfl hmain.atDriver.2
  | handle | schedule | probe | abort => exact hsame rfl rfl
  | meet _ _ _ hzero | replyMeet _ hzero | probeMeet _ hzero => omega

end Steps

/-- **The queue of `queue.c` is all a driver needs.**  With `buffer_size = 1`, in every
run each driver can keep its jobs in a ring buffer made by `queue_create(1)`: a
`queue_add` for each job the driver accepts and a `queue_remove` for each it hands out
all succeed, the jobs go in and come out as the threads give and get them, and the ring
buffer holds the stored ones at every moment. -/
theorem drivers_keep_queues {C : Config n} {log : List (Event n)} {s : State n}
    (hbuf : C.bufferSize = 1) (h : (stress C).Run log s)
    (block : Vector (Job n) (requestedSlots 1)) :
    (∀ j, ∃ qlog queue, (Queue.calls 1 block).Run qlog queue ∧ queue.Represents (s.queues j) ∧
      (results qlog).map (QueueResult.map sender) = log.filterMap (Event.atDriver j)) ∧
    ∃ qlog queue, (Queue.calls 1 block).Run qlog queue ∧ queue.Represents s.completedQueue ∧
      results qlog = log.filterMap Event.atCompleted := by
  have halloc : (1 : UInt64).toNat ≤ requestedSlots 1 := by decide
  constructor
  · intro j
    obtain ⟨flog, hfifo, hlog⟩ := run_driverFifo hbuf h j
    obtain ⟨qlog, queue, hrun, hrep, rfl⟩ := Queue.run_of_fifo block halloc hfifo
    exact ⟨qlog, queue, hrun, hrep, hlog⟩
  · exact Queue.run_of_fifo block halloc (run_completedFifo hbuf h)

/-- The two routers in the middle of a call. -/
theorem drivers_keep_queues_twoRouters : ∃ log s, (stress twoRouters).Run log s ∧
    ∃ qlog queue, (Queue.calls 1 (Vector.replicate _ none)).Run qlog queue ∧
      queue.Represents s.completedQueue ∧ results qlog = [.added none] := by
  obtain ⟨log, s, hr, hp⟩ := Lts.Run.exists_of_exec (stress twoRouters)
    (unroll [(2, .main), (1, .handle 0), (1, .reply 0)])
    (fun q => decide (q.1.filterMap Event.atCompleted = [.added none])) (by decide +kernel)
  obtain ⟨-, qlog, queue, hrun, hrep, hlog⟩ :=
    drivers_keep_queues rfl hr (Vector.replicate _ none)
  exact ⟨log, s, hr, qlog, queue, hrun, hrep, hlog.trans (of_decide_eq_true hp)⟩

end ConcurrencyLab
