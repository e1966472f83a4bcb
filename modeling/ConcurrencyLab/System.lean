import ConcurrencyLab.Lts
import ConcurrencyLab.Router

/-!
# ConcurrencyLab.System

The whole stress run: the main thread of `run_stress` with its repeated
`check_done` calls (lines 235-328), every router thread, and the drivers
between them.

`driver.c` is an empty stub, so the drivers are what the stress test assumes
of them: a driver is a FIFO of `buffer_size` jobs, `driver_schedule` and
`driver_handle` wait until they can proceed, and `driver_select` performs
exactly one ready entry of its list, or reports a closed driver.  With
`buffer_size = 0` nothing is ever stored: a job passes directly from a thread
that offers it to a thread that waits for it, and both go on.

`step` is executable; its argument says which thread moves and, in a select,
which entry is performed.  A step reports the `Event`s an observer of the
drivers would record; no thread reads them.
-/

namespace ConcurrencyLab

/-! ## data -/

/-- The input of `run_stress`: the topology read from the file and the buffer
size, which line 295 asserts to be at most 1. -/
structure Config (n : Nat) where
  topology : Topology n
  bufferSize : Nat
  bufferSize_le : bufferSize ≤ 1

/-- The two rounds of probes in `check_done`. -/
inductive Round
  | first
  | second
deriving DecidableEq

/-- Where the main thread stands.  `between` is line 320, `probe` and `collect`
are the loops of lines 242 and 247 (first round) and 261 and 266 (second
round), `compare` is line 275, `results` the loops of lines 282-286, `close`
line 324 and `join` the loop of lines 327-329. -/
inductive MainPc (n : Nat)
  | between
  | probe (round : Round) (i : Nat)
  | collect (round : Round) (i : Nat)
  | compare (i : Nat) (newJob : StatePtr n)
  | results (src dst : Nat)
  | close
  | join (i : Nat)
  | joined
deriving DecidableEq

/-- The main thread and the local variables of `check_done`.  `completed` is
`malloc`ed anew by each call; `none` is an entry not yet written. -/
structure Main (n : Nat) where
  pc : MainPc n
  valid : Bool
  completed : Fin n → Option (StatePtr n)

/-- What ends the process: the asserts of lines 179, 224 and 284, or following
an entry of `completed` that was never written. -/
inductive Fault
  | neighborDist
  | driverged
  | result
  | unwritten
deriving DecidableEq

/-- All threads, all drivers, and whether the process has been aborted. -/
structure State (n : Nat) where
  routers : Fin n → Router n
  queues : Fin n → List (Job n)
  completedQueue : List (Job n)
  doneClosed : Bool
  main : Main n
  fault : Option Fault

/-- What an observer records.  A vector is recorded with the contents its
address has at that moment; `NULL` is `none`. -/
inductive Event (n : Nat)
  /-- `drivers[dst]` accepts a job of router `src`. -/
  | accept (src dst : Fin n) (vector : Option (DistanceVector n))
  /-- Router `index` takes a job out of its driver. -/
  | take (index : Fin n) (vector : Option (DistanceVector n))
  /-- Router `index` starts a new epoch with this vector. -/
  | begin (index : Fin n) (vector : DistanceVector n)
  /-- The main thread starts a round of probes. -/
  | round (round : Round)
  /-- `drivers[index]` accepts a `NULL` of the main thread. -/
  | probe (index : Fin n)
  /-- `completed_driver` accepts the answer of router `index`, which is in
  epoch `epoch`. -/
  | reply (index : Fin n) (job : Job n) (epoch : Nat)
  /-- The main thread takes an answer out of `completed_driver`. -/
  | collect (job : Job n)

/-- Which thread moves.  `handle` and `schedule` are the two ways a router's
`driver_select` succeeds, `closed` is its failure on `done_driver`. -/
inductive Action (n : Nat)
  | handle (i : Fin n)
  | schedule (i : Fin n) (selectedIndex : Nat)
  | closed (i : Fin n)
  | continue (i : Fin n)
  | reply (i : Fin n)
  | main
deriving DecidableEq

namespace State

variable {n : Nat}

/-- The vector at an address. -/
def load (s : State n) (p : StatePtr n) : DistanceVector n :=
  (s.routers p.owner).buffer.states p.slot

def setRouter (s : State n) (i : Fin n) (r : Router n) : State n :=
  { s with routers := Function.update s.routers i r }

def setQueue (s : State n) (i : Fin n) (q : List (Job n)) : State n :=
  { s with queues := Function.update s.queues i q }

def setMain (s : State n) (m : Main n) : State n := { s with main := m }

/-- An assertion fails: the process ends. -/
def abort (s : State n) (f : Fault) : State n := { s with fault := some f }

/-- All routers at their first `driver_select`, the main thread before its
first `check_done`. -/
def init (C : Config n) : State n where
  routers := Router.init C.topology
  queues _ := []
  completedQueue := []
  doneClosed := false
  main := { pc := .between, valid := true, completed := fun _ => none }
  fault := none

end State

/-! ## the main thread -/

namespace Main

variable {n : Nat}

/-- The entry of `check_done`: a fresh `completed`, and the first probe. -/
def call (_m : Main n) : Main n :=
  { pc := .probe .first 0, valid := true, completed := fun _ => none }

def goto (pc : MainPc n) (m : Main n) : Main n := { m with pc := pc }

/-- What the loops of lines 247 and 266 do with the `i`-th answer; `src` is the
`src` field of the vector it points to. -/
def collected (round : Round) (i : Nat) (job : Job n) (src : StatePtr n → Fin n) (m : Main n) :
    Main n :=
  match round, job with
  | .first, none => { m with valid := false, pc := .collect .first (i + 1) }
  | .first, some newJob =>
      { m with
        completed := Function.update m.completed (src newJob) (some newJob)
        pc := .collect .first (i + 1) }
  | .second, none => { m with valid := false, pc := .collect .second (i + 1) }
  | .second, some newJob => { m with pc := .compare i newJob }

/-- Lines 275-277 with the outcome of the comparison. -/
def compared (i : Nat) (equal : Bool) (m : Main n) : Main n :=
  { m with valid := m.valid && equal, pc := .collect .second (i + 1) }

end Main

/-! ## steps -/

section Step

variable {n : Nat} (C : Config n) (s : State n)

/-- Router `i`'s `driver_select` takes a job out of its driver. -/
def stepHandle (i : Fin n) : Option (List (Event n) × State n) :=
  match (s.routers i).pc, s.queues i with
  | .select, job :: rest =>
      some ([.take i (job.map s.load)],
        (s.setQueue i rest).setRouter i ((s.routers i).handled i job))
  | _, _ => none

/-- Router `i`'s `driver_select` performs the SCHDLE entry `selectedIndex`: the
job is stored if there is room, or handed over if nothing can be stored and
the owner of the driver waits in its own `driver_select`. -/
def stepSchedule (i : Fin n) (selectedIndex : Nat) : Option (List (Event n) × State n) :=
  let r := s.routers i
  if r.pc = .select ∧ selectedIndex < r.selects.selectCount then
    match r.selects.entries[selectedIndex]? with
    | some ⟨.drivers j, .schdle, job⟩ =>
        if (s.queues j).length < C.bufferSize then
          some ([.accept i j (job.map s.load)],
            (s.setQueue j (s.queues j ++ [job])).setRouter i (r.sent selectedIndex))
        else if C.bufferSize = 0 ∧ j ≠ i ∧ (s.routers j).pc = .select then
          some ([.accept i j (job.map s.load), .take j (job.map s.load)],
            (s.setRouter i (r.sent selectedIndex)).setRouter j ((s.routers j).handled j job))
        else none
    | _ => none
  else none

/-- Router `i`'s `driver_select` reports that `done_driver`, its entry 0, is
closed. -/
def stepClosed (i : Fin n) : Option (List (Event n) × State n) :=
  if (s.routers i).pc = .select ∧ s.doneClosed = true then
    if (s.routers i).driverged = false then some ([], s.setRouter i ((s.routers i).goto .exited))
    else some ([], s.abort .driverged)
  else none

/-- Router `i` runs on between two driver calls. -/
def stepContinue (i : Fin n) : Option (List (Event n) × State n) :=
  let r := s.routers i
  match r.pc with
  | .received p =>
      if C.topology.link i (s.load p).src = infDistance then some ([], s.abort .neighborDist)
      else some ([], s.setRouter i (r.goto (.relax p (C.topology.link i (s.load p).src) 0)))
  | .relax p neighborDist k =>
      if h : k < n then
        some ([], s.setRouter i (r.relaxed p neighborDist ⟨k, h⟩ ((s.load p).dist ⟨k, h⟩)))
      else some ([], s.setRouter i (r.goto .check))
  | .check =>
      if r.MustReset then some ([.begin i r.buffer.next], s.setRouter i r.rotated)
      else some ([], s.setRouter i (r.goto .select))
  | .copy k =>
      if h : k < n then some ([], s.setRouter i (r.copied ⟨k, h⟩))
      else some ([], s.setRouter i (r.reset i))
  | _ => none

/-- `driver_schedule(completed_driver, …)` of router `i` (line 190) returns. -/
def stepReply (i : Fin n) : Option (List (Event n) × State n) :=
  let r := s.routers i
  match r.pc with
  | .reply job =>
      if s.completedQueue.length < C.bufferSize then
        some ([.reply i job r.buffer.curr.epoch],
          { s.setRouter i (r.goto .check) with completedQueue := s.completedQueue ++ [job] })
      else
        match s.main.pc with
        | .collect round k =>
            if C.bufferSize = 0 ∧ k < n then
              some ([.reply i job r.buffer.curr.epoch, .collect job],
                (s.setRouter i (r.goto .check)).setMain
                  (s.main.collected round k job fun p => (s.load p).src))
            else none
        | _ => none
  | _ => none

/-- `driver_schedule(drivers[k], NULL)` of the main thread returns. -/
def stepProbe (round : Round) (k : Fin n) : Option (List (Event n) × State n) :=
  let m := s.main.goto (.probe round (k.val + 1))
  if (s.queues k).length < C.bufferSize then
    some ([.probe k], (s.setQueue k (s.queues k ++ [none])).setMain m)
  else if C.bufferSize = 0 ∧ (s.routers k).pc = .select then
    some ([.probe k, .take k none], (s.setRouter k ((s.routers k).handled k none)).setMain m)
  else none

/-- The main thread moves. -/
def stepMain : Option (List (Event n) × State n) :=
  match s.main.pc with
  | .between => some ([.round .first], s.setMain s.main.call)
  | .probe round k =>
      if h : k < n then stepProbe C s round ⟨k, h⟩
      else some ([], s.setMain (s.main.goto (.collect round 0)))
  | .collect round k =>
      if k < n then
        match s.completedQueue with
        | job :: rest =>
            some ([.collect job],
              { s.setMain (s.main.collected round k job fun p => (s.load p).src) with
                completedQueue := rest })
        | [] => none
      else if s.main.valid = true then
        match round with
        | .first => some ([.round .second], s.setMain (s.main.goto (.probe .second 0)))
        | .second => some ([], s.setMain (s.main.goto (.results 0 0)))
      else some ([], s.setMain (s.main.goto .between))
  | .compare i newJob =>
      -- both epochs are read now, whatever they were when the answers were given
      match s.main.completed (s.load newJob).src with
      | some old =>
          some ([], s.setMain (s.main.compared i ((s.load old).epoch == (s.load newJob).epoch)))
      | none => some ([], s.abort .unwritten)
  | .results src dst =>
      if hs : src < n then
        if hd : dst < n then
          match s.main.completed ⟨src, hs⟩ with
          | some p =>
              if (s.load p).dist ⟨dst, hd⟩ = C.topology.floydWarshall ⟨src, hs⟩ ⟨dst, hd⟩ then
                some ([], s.setMain (s.main.goto (.results src (dst + 1))))
              else some ([], s.abort .result)
          | none => some ([], s.abort .unwritten)
        else some ([], s.setMain (s.main.goto (.results (src + 1) 0)))
      else some ([], s.setMain (s.main.goto .close))
  | .close => some ([], { s.setMain (s.main.goto (.join 0)) with doneClosed := true })
  | .join i =>
      if h : i < n then
        if (s.routers ⟨i, h⟩).pc = .exited then
          some ([], s.setMain (s.main.goto (.join (i + 1))))
        else none
      else some ([], s.setMain (s.main.goto .joined))
  | .joined => none

/-- One step of the stress run.  Nothing moves once the process is aborted. -/
def step (a : Action n) : Option (List (Event n) × State n) :=
  if s.fault.isSome then none
  else match a with
    | .handle i => stepHandle s i
    | .schedule i selectedIndex => stepSchedule C s i selectedIndex
    | .closed i => stepClosed s i
    | .continue i => stepContinue C s i
    | .reply i => stepReply C s i
    | .main => stepMain C s

end Step

/-- The stress run on a given input. -/
def stress {n : Nat} (C : Config n) : Lts (State n) (Action n) (Event n) where
  init := State.init C
  step := step C

/-- A schedule written as how often each choice repeats. -/
def unroll {n : Nat} (runs : List (Nat × Action n)) : List (Action n) :=
  runs.flatMap fun run => List.replicate run.1 run.2

/-- The drivers store one job each. -/
def Config.buffered {n : Nat} (T : Topology n) : Config n where
  topology := T
  bufferSize := 1
  bufferSize_le := Nat.le_refl 1

/-- Two routers, the first of which improves its own diagonal entry through the
second. -/
def twoRouters : Config 2 := .buffered (.ofRows 2 [[9, 3], [5, 0]])

/-- The two routers until they have nothing left to do: router 1 sends, router 0
improves and broadcasts two epochs, and router 1 reads both. -/
def twoRoutersSettle : List (Nat × Action 2) := [
  (1, .schedule 1 2), (1, .continue 1), (1, .handle 0), (5, .continue 0), (1, .schedule 0 2),
  (4, .continue 0), (1, .handle 1), (5, .continue 1), (1, .schedule 0 2), (1, .continue 0),
  (1, .handle 1), (5, .continue 1)]

/-- One call of `check_done` after that, up to the check of the results. -/
def twoRoutersCall : List (Nat × Action 2) := [
  (4, .main), (1, .handle 0), (1, .reply 0), (1, .continue 0), (1, .main),
  (1, .handle 1), (1, .reply 1), (1, .continue 1), (5, .main),
  (1, .handle 0), (1, .reply 0), (1, .continue 0), (2, .main),
  (1, .handle 1), (1, .reply 1), (1, .continue 1), (3, .main)]

end ConcurrencyLab
