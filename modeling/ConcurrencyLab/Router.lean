import ConcurrencyLab.Topology

/-!
# ConcurrencyLab.Router

One router thread of `stress.c` (`router`, lines 123-233): its three distance
vectors, its select list, its local variables and its place in the loop.

The thread is cut into steps at the driver calls and at every access to a
buffer that other threads may look at:

* `driver_select` (line 171) is a step of the whole system; what the code does
  with its result is `handled` or `sent`, or it leaves the loop;
* `received` and `relax` are lines 177-179 and one iteration of lines 180-186;
* `check` is lines 201-209 with the write of `next_state->epoch`, `copy` one
  iteration of lines 210-212 and, at the end of that loop, lines 214-218;
* `reply` is the wait in `driver_schedule(completed_driver, …)` (line 190).

The three buffers never leave the router's own record.  What travels through
the drivers is a `StatePtr`, the address of one of them.
-/

namespace ConcurrencyLab

/-! ## data -/

/-- `distance_vector_t` (lines 8-12). -/
structure DistanceVector (n : Nat) where
  src : Fin n
  epoch : Nat
  dist : Fin n → Nat

/-- Address of one of the three vectors that the thread of router `owner`
allocates (lines 128-133). -/
structure StatePtr (n : Nat) where
  owner : Fin n
  slot : Fin 3
deriving DecidableEq

/-- A job as the drivers carry it: a `void*` that is `NULL` (`none`) or the
address of a distance vector. -/
abbrev Job (n : Nat) := Option (StatePtr n)

/-- `enum operation` (`driver.h`). -/
inductive Operation
  | schdle
  | handle
deriving DecidableEq

/-- The drivers that stand in select lists. -/
inductive DriverRef (n : Nat)
  | doneDriver
  | drivers (i : Fin n)
deriving DecidableEq

/-- `select_t` (`driver.h`). -/
structure Select (n : Nat) where
  driver : DriverRef n
  op : Operation
  job : Job n
deriving DecidableEq

/-- The three vectors of a router, and which of them `prev_state`, `curr_state`
and `next_state` point to. -/
structure TripleBuffer (n : Nat) where
  states : Fin 3 → DistanceVector n
  prevState : Fin 3
  currState : Fin 3
  nextState : Fin 3

/-- `select_list` with `select_count`, the entries offered to `driver_select`,
and `total_select_count`, the entries allocated. -/
structure SelectList (n : Nat) where
  entries : List (Select n)
  selectCount : Nat
  totalSelectCount : Nat

/-- Where a router thread stands; `exited` is after line 231, when its buffers
are released. -/
inductive RouterPc (n : Nat)
  | select
  | received (neighborState : StatePtr n)
  | relax (neighborState : StatePtr n) (neighborDist : Nat) (i : Nat)
  | reply (job : Job n)
  | check
  | copy (i : Nat)
  | exited
deriving DecidableEq

/-- The thread of one router with its local variables. -/
structure Router (n : Nat) where
  pc : RouterPc n
  driverged : Bool
  buffer : TripleBuffer n
  selects : SelectList n

namespace Topology

variable {n : Nat} (T : Topology n)

/-- The test of lines 147 and 163: `(i != index) && get_link_distance(index, i)
!= inf_distance`. -/
def IsNeighbor (index i : Fin n) : Prop := i ≠ index ∧ T.link index i ≠ infDistance

instance (index i : Fin n) : Decidable (T.IsNeighbor index i) := by
  unfold IsNeighbor; infer_instance

/-- The routers a router broadcasts to, in the order of the loops of lines 146
and 162. -/
def neighbors (index : Fin n) : List (Fin n) := (List.finRange n).filter (T.IsNeighbor index ·)

@[simp] theorem mem_neighbors (index i : Fin n) : i ∈ T.neighbors index ↔ T.IsNeighbor index i := by
  simp [neighbors]

end Topology

/-! ## the triple buffer -/

namespace TripleBuffer

variable {n : Nat}

/-- Lines 128-144: the three vectors start as copies of the router's row of
links, with epochs 0, 1 and 2. -/
def init (T : Topology n) (index : Fin n) : TripleBuffer n where
  states b := { src := index, epoch := b.val, dist := T.link index }
  prevState := 0
  currState := 1
  nextState := 2

/-- `*prev_state`. -/
def prev (b : TripleBuffer n) : DistanceVector n := b.states b.prevState

/-- `*curr_state`. -/
def curr (b : TripleBuffer n) : DistanceVector n := b.states b.currState

/-- `*next_state`. -/
def next (b : TripleBuffer n) : DistanceVector n := b.states b.nextState

/-- `next_state->dist[k] = d`. -/
def writeNext (k : Fin n) (d : Nat) (b : TripleBuffer n) : TripleBuffer n :=
  { b with
    states := Function.update b.states b.nextState
      { b.next with dist := Function.update b.next.dist k d } }

/-- Lines 205-209: the roles move on by one, and the vector that becomes
`next_state` gets its epoch. -/
def cycle (b : TripleBuffer n) : TripleBuffer n where
  states := Function.update b.states b.prevState { b.prev with epoch := b.next.epoch + 1 }
  prevState := b.currState
  currState := b.nextState
  nextState := b.prevState

end TripleBuffer

/-! ## the select list -/

namespace SelectList

variable {n : Nat}

/-- Lines 145-169: `done_driver`, the router's own driver and then every
neighbour, all of them offered. -/
def init (T : Topology n) (index : Fin n) : SelectList n where
  entries :=
    { driver := .doneDriver, op := .handle, job := none } ::
    { driver := .drivers index, op := .handle, job := none } ::
    (T.neighbors index).map fun i =>
      { driver := .drivers i, op := .schdle, job := some ⟨index, 1⟩ }
  selectCount := 2 + (T.neighbors index).length
  totalSelectCount := 2 + (T.neighbors index).length

/-- `driver_select` performed entry 1 and stored the job it took there. -/
def storeJob (job : Job n) (l : SelectList n) : SelectList n :=
  { l with entries := l.entries.modify 1 fun e => { e with job := job } }

/-- The swap of lines 196-198: two entries exchange their `driver` fields. -/
def swapDrivers (entries : List (Select n)) (a b : Nat) : List (Select n) :=
  match entries[a]?, entries[b]? with
  | some ea, some eb =>
      (entries.set a { ea with driver := eb.driver }).set b { eb with driver := ea.driver }
  | _, _ => entries

/-- Lines 194-198: the performed entry moves out of the part still offered. -/
def remove (selectedIndex : Nat) (l : SelectList n) : SelectList n :=
  { l with
    entries := swapDrivers l.entries (l.selectCount - 1) selectedIndex
    selectCount := l.selectCount - 1 }

/-- Lines 214-217: every entry is offered again, with a new job from entry 2
on. -/
def rearm (job : Job n) (l : SelectList n) : SelectList n :=
  { l with
    entries := l.entries.mapIdx fun m e =>
      if 2 ≤ m ∧ m < l.totalSelectCount then { e with job := job } else e
    selectCount := l.totalSelectCount }

end SelectList

/-! ## the router thread -/

namespace Router

variable {n : Nat}

/-- Lines 125-169. -/
def init (T : Topology n) (index : Fin n) : Router n where
  pc := .select
  driverged := false
  buffer := TripleBuffer.init T index
  selects := SelectList.init T index

/-- Control moves on, with nothing else changed. -/
def goto (pc : RouterPc n) (r : Router n) : Router n := { r with pc := pc }

/-- `converged` of line 189. -/
def Converged (r : Router n) : Prop := r.selects.selectCount = 2 ∧ r.driverged = false

instance (r : Router n) : Decidable r.Converged := by unfold Converged; infer_instance

/-- The branch of lines 174-189: `driver_select` performed entry 1.  A vector
is processed, `NULL` is answered. -/
def handled (index : Fin n) (job : Job n) (r : Router n) : Router n :=
  { r with
    selects := r.selects.storeJob job
    pc := match job with
      | some neighborState => .received neighborState
      | none => .reply (if r.Converged then some ⟨index, r.buffer.currState⟩ else none) }

/-- The branch of lines 193-199: `driver_select` performed the SCHDLE entry
`selectedIndex`. -/
def sent (selectedIndex : Nat) (r : Router n) : Router n :=
  { r with selects := r.selects.remove selectedIndex, pc := .check }

/-- One iteration of lines 180-186, `d` being the entry read from the
neighbour's vector. -/
def relaxed (neighborState : StatePtr n) (neighborDist : Nat) (k : Fin n) (d : Nat)
    (r : Router n) : Router n :=
  if add32 neighborDist d < r.buffer.next.dist k then
    { r with
      buffer := r.buffer.writeNext k (add32 neighborDist d)
      driverged := true
      pc := .relax neighborState neighborDist (k.val + 1) }
  else r.goto (.relax neighborState neighborDist (k.val + 1))

/-- The test of lines 201 and 203. -/
def MustReset (r : Router n) : Prop := r.selects.selectCount = 2 ∧ r.driverged = true

instance (r : Router n) : Decidable r.MustReset := by unfold MustReset; infer_instance

/-- Lines 205-209. -/
def rotated (r : Router n) : Router n := { r with buffer := r.buffer.cycle, pc := .copy 0 }

/-- One iteration of lines 210-212. -/
def copied (k : Fin n) (r : Router n) : Router n :=
  { r with buffer := r.buffer.writeNext k (r.buffer.curr.dist k), pc := .copy (k.val + 1) }

/-- Lines 214-218. -/
def reset (index : Fin n) (r : Router n) : Router n :=
  { r with
    selects := r.selects.rearm (some ⟨index, r.buffer.currState⟩)
    driverged := false
    pc := .select }

end Router

end ConcurrencyLab
