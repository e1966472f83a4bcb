import ConcurrencyLab.Loop

/-!
# ConcurrencyLab.Pipeline

Vectors in transit.  Between a router `i` and a neighbour `j` there is a short
pipeline: the vector `i` is broadcasting, at most one vector of `i` stored in
`drivers[j]`, and the vector `j` is processing.  `VectorStep` lists the five
ways a step touches it, and `PipeInv` says which of `i`'s three buffers each
stage refers to: counting from the newest, stage by stage, one epoch back
whenever the stage before it is occupied.

`run_pipeInv` is what `ConcurrencyLab.History` (order of delivery) and
`ConcurrencyLab.Reuse` (recycled vectors) are built on.
-/

namespace ConcurrencyLab

variable {n : Nat}

/-! ## what the pipeline consists of -/

/-- The vector a router is processing: it has been taken out of the driver and
the loop of lines 180-186 is not finished. -/
def RouterPc.held : RouterPc n → Job n
  | .received p => some p
  | .relax p _ _ => some p
  | _ => none

/-- Router `j` has not accepted the current vector of `r`. -/
def Router.Unsent (r : Router n) (j : Fin n) : Prop :=
  r.pc.isCopy = true ∨ r.selects.Pending j

/-- A vector of router `i` is stored in `drivers[j]`. -/
def State.Queued (s : State n) (i j : Fin n) : Prop := ∃ slot, some ⟨i, slot⟩ ∈ s.queues j

/-- An event about a vector in transit. -/
def Event.isVector : Event n → Bool
  | .accept _ _ (some _) => true
  | .take _ (some _) => true
  | .begin _ _ => true
  | _ => false

@[simp] theorem State.queues_setRouter (s : State n) (i : Fin n) (r : Router n) :
    (s.setRouter i r).queues = s.queues := rfl

@[simp] theorem State.queues_setMain (s : State n) (m : Main n) :
    (s.setMain m).queues = s.queues := rfl

@[simp] theorem State.queues_abort (s : State n) (f : Fault) : (s.abort f).queues = s.queues := rfl

@[simp] theorem State.queues_setQueue (s : State n) (i : Fin n) (q : List (Job n)) (j : Fin n) :
    (s.setQueue i q).queues j = if j = i then q else s.queues j := by
  simp [State.setQueue, Function.update_apply]

/-! ## at most one job is stored -/

section Room

variable (C : Config n) {α : Type} {x : α} {l : List α}

/-- A stored job leaves no room for another. -/
theorem Config.rest_eq_nil (h : (x :: l).length ≤ C.bufferSize) : l = [] := by
  have hone := C.bufferSize_le
  rw [List.length_cons] at h
  exact List.eq_nil_of_length_eq_zero (by omega)

/-- Where there is room nothing is stored. -/
theorem Config.eq_nil_of_lt (h : l.length < C.bufferSize) : l = [] := by
  have hone := C.bufferSize_le
  exact List.eq_nil_of_length_eq_zero (by omega)

/-- A driver of size 0 stores nothing. -/
theorem Config.eq_nil_of_rendezvous (hbuf : C.bufferSize = 0) (h : l.length ≤ C.bufferSize) :
    l = [] :=
  List.eq_nil_of_length_eq_zero (by omega)

end Room

section Steps

variable {C : Config n} {s s' : State n} {es : List (Event n)}

/-- No driver stores more than `buffer_size` jobs. -/
theorem run_room {log : List (Event n)} (h : (stress C).Run log s) (j : Fin n) :
    (s.queues j).length ≤ C.bufferSize := by
  refine run_invariant (P := fun _ s => ∀ j, (s.queues j).length ≤ C.bufferSize)
    (fun j => Nat.zero_le _) (fun {_ s _ _} _ hroom ht j => ?_) h j
  have hj := hroom j
  cases ht with
  | @handle i job rest hpc hq =>
      by_cases hji : j = i
      · subst hji; rw [hq, List.length_cons] at hj; simp; omega
      · simpa [hji] using hj
  | @schedule i a m job hpc hm he hlt =>
      by_cases hja : j = a
      · subst hja; simp; omega
      · simpa [hja] using hj
  | @probe round k hmain hlt =>
      by_cases hjk : j = k
      · subst hjk; simp; omega
      · simpa [hjk] using hj
  | meet | router | reply | replyMeet | probeMeet | collect | main | abort => exact hj

/-- `completed_driver` stores no more than `buffer_size` answers. -/
theorem run_completedRoom {log : List (Event n)} (h : (stress C).Run log s) :
    s.completedQueue.length ≤ C.bufferSize := by
  refine run_invariant (P := fun _ s => s.completedQueue.length ≤ C.bufferSize) (Nat.zero_le _)
    (fun _ hlen ht => ?_) h
  cases ht with
  | reply hpc hroom => simp; omega
  | collect hmain hk hq => rw [hq, List.length_cons] at hlen; simp; omega
  | handle | schedule | meet | router | replyMeet | probe | probeMeet | main | abort => exact hlen

/-- With `buffer_size = 0` it stores none. -/
theorem run_completed_eq_nil {log : List (Event n)} (h : (stress C).Run log s)
    (hbuf : C.bufferSize = 0) : s.completedQueue = [] :=
  C.eq_nil_of_rendezvous hbuf (run_completedRoom h)

/-! ## the five kinds of steps -/

/-- A router whose part in every pipeline stays as it is. -/
structure Router.Quiet (T : Topology n) (i : Fin n) (r r' : Router n) : Prop where
  prevState : r'.buffer.prevState = r.buffer.prevState
  currState : r'.buffer.currState = r.buffer.currState
  nextState : r'.buffer.nextState = r.buffer.nextState
  prev : r'.buffer.prev = r.buffer.prev
  curr : r'.buffer.curr = r.buffer.curr
  unsent : ∀ {j}, T.IsNeighbor i j → (r'.Unsent j ↔ r.Unsent j)
  held : ∀ {p}, r'.pc.held = some p → r.pc.held = some p

theorem Router.Quiet.refl (T : Topology n) (i : Fin n) (r : Router n) : Quiet T i r r :=
  ⟨rfl, rfl, rfl, rfl, rfl, fun _ => Iff.rfl, id⟩

/-- Control moves outside the copy loop without taking up a vector. -/
theorem Router.Quiet.goto (T : Topology n) (i : Fin n) {r : Router n} {pc : RouterPc n}
    (hfrom : r.pc.isCopy = false) (hto : pc.isCopy = false)
    (hheld : ∀ {p}, pc.held = some p → r.pc.held = some p) : Quiet T i r (r.goto pc) :=
  ⟨rfl, rfl, rfl, rfl, rfl, fun _ => by simp [Unsent, Router.goto, hfrom, hto], hheld⟩

/-- Answering a `NULL` is quiet. -/
theorem Router.Inv.quiet_handled_none {T : Topology n} {i : Fin n} {r : Router n}
    (h : r.Inv T i) (hpc : r.pc = .select) : Quiet T i r (r.handled i none) := by
  refine ⟨rfl, rfl, rfl, rfl, rfl, fun _ => ?_,
    fun hp => by simp [Router.handled, RouterPc.held] at hp⟩
  simp only [Unsent, Router.handled, hpc, RouterPc.isCopy, Bool.false_eq_true, false_or]
  exact h.selects.pending_storeJob none _

/-- Between two driver calls a router is quiet, unless it starts an epoch. -/
theorem LocalStep.quiet_or_rotated {i : Fin n} {r' : Router n}
    (hinv : (s.routers i).Inv C.topology i) (h : LocalStep C s i es r') :
    (Router.Quiet C.topology i (s.routers i) r' ∧ es = []) ∨
    ((s.routers i).pc = .check ∧ (s.routers i).MustReset ∧ r' = (s.routers i).rotated ∧
      es = [.begin i (s.routers i).buffer.next]) := by
  cases h with
  | received hpc hlink =>
      refine .inl ⟨.goto _ _ (by rw [hpc]; rfl) rfl fun hp => ?_, rfl⟩
      rw [hpc]; exact hp
  | @relaxed p nd k hpc =>
      refine .inl ⟨?_, rfl⟩
      have hfrom : (s.routers i).pc.isCopy = false := by rw [hpc]; rfl
      unfold Router.relaxed
      split
      · refine ⟨rfl, rfl, rfl, hinv.buffer.prev_writeNext k _, hinv.buffer.curr_writeNext k _,
          fun _ => by simp [Router.Unsent, hpc, RouterPc.isCopy], fun hp => ?_⟩
        rw [hpc]; exact hp
      · refine .goto _ _ hfrom rfl fun hp => ?_
        rw [hpc]; exact hp
  | relaxDone hpc hk =>
      exact .inl ⟨.goto _ _ (by rw [hpc]; rfl) rfl fun hp => by simp [RouterPc.held] at hp, rfl⟩
  | rotated hpc hreset => exact .inr ⟨hpc, hreset, rfl, rfl⟩
  | skipped hpc hreset =>
      exact .inl ⟨.goto _ _ (by rw [hpc]; rfl) rfl fun hp => by simp [RouterPc.held] at hp, rfl⟩
  | @copied k hpc =>
      refine .inl ⟨⟨rfl, rfl, rfl, hinv.buffer.prev_writeNext k _, hinv.buffer.curr_writeNext k _,
        fun _ => ?_, fun hp => by simp [Router.copied, RouterPc.held] at hp⟩, rfl⟩
      simp [Router.Unsent, Router.copied, hpc, RouterPc.isCopy]
  | @reset k hpc hk =>
      refine .inl ⟨⟨rfl, rfl, rfl, rfl, rfl, fun {j} hj => ?_, fun hp => by
        simp [Router.reset, RouterPc.held] at hp⟩, rfl⟩
      -- before, the copy loop counted as unsent; after, the whole list is offered again
      have hall : ((s.routers i).reset i).selects.Pending j :=
        (hinv.reset hpc hk).selects.pending_of_total rfl hj
      simp [Router.Unsent, hpc, RouterPc.isCopy, hall]
  | left hpc hclosed hdiv =>
      exact .inl ⟨.goto _ _ (by rw [hpc]; rfl) rfl fun hp => by simp [RouterPc.held] at hp, rfl⟩

/-- What a step does to the vectors in transit. -/
inductive VectorStep (C : Config n) (s : State n) : List (Event n) → State n → Prop
  | quiet {es : List (Event n)} {s' : State n}
      (hr : ∀ i, Router.Quiet C.topology i (s.routers i) (s'.routers i))
      (hq : ∀ j p, some p ∈ s'.queues j ↔ some p ∈ s.queues j)
      (hes : ∀ e ∈ es, e.isVector = false) : VectorStep C s es s'
  | take {i : Fin n} {p : StatePtr n} {s' : State n} (hpc : (s.routers i).pc = .select)
      (hq : s.queues i = [some p])
      (hr' : ∀ x, s'.routers x =
        if x = i then (s.routers i).handled i (some p) else s.routers x)
      (hq' : ∀ x, s'.queues x = if x = i then [] else s.queues x) :
      VectorStep C s [.take i (some (s.load p))] s'
  | accept {i j : Fin n} {m : Nat} {s' : State n} (hpc : (s.routers i).pc = .select)
      (hij : C.topology.IsNeighbor i j) (hm : m < (s.routers i).selects.selectCount)
      (he : (s.routers i).selects.entries[m]? =
        some ⟨.drivers j, .schdle, some ⟨i, (s.routers i).buffer.currState⟩⟩)
      (hq : s.queues j = [])
      (hr' : ∀ x, s'.routers x = if x = i then (s.routers i).sent m else s.routers x)
      (hq' : ∀ x, s'.queues x =
        if x = j then [some ⟨i, (s.routers i).buffer.currState⟩] else s.queues x) :
      VectorStep C s [.accept i j (some (s.routers i).buffer.curr)] s'
  | meet {i j : Fin n} {m : Nat} {s' : State n} (hpc : (s.routers i).pc = .select)
      (hij : C.topology.IsNeighbor i j) (hm : m < (s.routers i).selects.selectCount)
      (he : (s.routers i).selects.entries[m]? =
        some ⟨.drivers j, .schdle, some ⟨i, (s.routers i).buffer.currState⟩⟩)
      (hq : s.queues j = []) (hpcj : (s.routers j).pc = .select)
      (hr' : ∀ x, s'.routers x =
        if x = j then (s.routers j).handled j (some ⟨i, (s.routers i).buffer.currState⟩)
        else if x = i then (s.routers i).sent m else s.routers x)
      (hq' : s'.queues = s.queues) :
      VectorStep C s [.accept i j (some (s.routers i).buffer.curr),
        .take j (some (s.routers i).buffer.curr)] s'
  | rotate {i : Fin n} {s' : State n} (hpc : (s.routers i).pc = .check)
      (hreset : (s.routers i).MustReset)
      (hr' : ∀ x, s'.routers x = if x = i then (s.routers i).rotated else s.routers x)
      (hq' : s'.queues = s.queues) :
      VectorStep C s [.begin i (s.routers i).buffer.next] s'

theorem Router.Inv.entry_select {T : Topology n} {i j : Fin n} {r : Router n} {m : Nat}
    {job : Job n} (h : r.Inv T i) (hpc : r.pc = .select)
    (he : r.selects.entries[m]? = some ⟨.drivers j, .schdle, job⟩) :
    T.IsNeighbor i j ∧ job = some ⟨i, r.buffer.currState⟩ :=
  (h.selects_select hpc).entry_eq he

/-- Changing one router quietly is quiet. -/
theorem quiet_setRouter {i : Fin n} {r' : Router n}
    (h : Router.Quiet C.topology i (s.routers i) r') (a : Fin n) :
    Router.Quiet C.topology a (s.routers a) ((s.setRouter i r').routers a) := by
  by_cases hai : a = i
  · subst hai; simpa using h
  · simpa [hai] using Router.Quiet.refl _ _ _

theorem Trans.vectorStep (hinv : ∀ i, (s.routers i).Inv C.topology i)
    (hroom : ∀ j, (s.queues j).length ≤ C.bufferSize) (h : Trans C s es s') :
    VectorStep C s es s' := by
  cases h with
  | @handle i job rest hpc hq =>
      obtain rfl := C.rest_eq_nil (hq ▸ hroom i)
      cases job with
      | some p => exact .take hpc hq (by simp) (by simp)
      | none =>
          refine .quiet (quiet_setRouter ((hinv i).quiet_handled_none hpc)) (fun j p => ?_)
            (by simp [Event.isVector])
          by_cases hji : j = i
          · subst hji; simp [hq]
          · simp [hji]
  | @schedule i j m job hpc hm he hlt =>
      obtain ⟨hij, rfl⟩ := (hinv i).entry_select hpc he
      have hq := C.eq_nil_of_lt hlt
      exact .accept hpc hij hm he hq (by simp) (by simp [hq])
  | @meet i j m job hpc hm he hbuf hne hpcj =>
      obtain ⟨hij, rfl⟩ := (hinv i).entry_select hpc he
      have hq := C.eq_nil_of_rendezvous hbuf (hroom j)
      exact .meet hpc hij hm he hq hpcj (by simp) rfl
  | @router i es r h =>
      rcases h.quiet_or_rotated (hinv i) with ⟨hquiet, rfl⟩ | ⟨hpc, hreset, rfl, rfl⟩
      · exact .quiet (quiet_setRouter hquiet) (by simp) (by simp)
      · exact .rotate hpc hreset (by simp) rfl
  | @reply i job hpc hlt =>
      have hquiet : Router.Quiet C.topology i (s.routers i) ((s.routers i).goto .check) :=
        .goto _ _ (by rw [hpc]; rfl) rfl fun hp => by simp [RouterPc.held] at hp
      exact .quiet (quiet_setRouter hquiet) (fun _ _ => Iff.rfl) (by simp [Event.isVector])
  | @replyMeet i job round k hpc hbuf hmain hk =>
      have hquiet : Router.Quiet C.topology i (s.routers i) ((s.routers i).goto .check) :=
        .goto _ _ (by rw [hpc]; rfl) rfl fun hp => by simp [RouterPc.held] at hp
      exact .quiet (quiet_setRouter hquiet) (fun _ _ => Iff.rfl) (by simp [Event.isVector])
  | @probe round k hmain hlt =>
      refine .quiet (fun i => .refl _ _ _) (fun j p => ?_) (by simp [Event.isVector])
      by_cases hjk : j = k
      · subst hjk; simp
      · simp [hjk]
  | @probeMeet round k hmain hbuf hpc =>
      exact .quiet (quiet_setRouter ((hinv k).quiet_handled_none hpc)) (fun _ _ => Iff.rfl)
        (by simp [Event.isVector])
  | collect hmain hk hq =>
      exact .quiet (fun i => .refl _ _ _) (fun _ _ => Iff.rfl) (by simp [Event.isVector])
  | main h =>
      refine .quiet (fun i => .refl _ _ _) (fun _ _ => Iff.rfl) ?_
      cases h <;> simp [Event.isVector]
  | abort h => exact .quiet (fun i => .refl _ _ _) (fun _ _ => Iff.rfl) (by simp)

/-- The induction rule for properties of the vectors in transit. -/
theorem run_vectorInvariant {P : List (Event n) → State n → Prop} (hinit : P [] (State.init C))
    (hstep : ∀ {log s es s'}, (stress C).Run log s → P log s → VectorStep C s es s' →
      P (log ++ es) s')
    {log : List (Event n)} (h : (stress C).Run log s) : P log s :=
  run_invariant hinit (fun hr hp ht =>
    hstep hr hp (ht.vectorStep (run_routerInv hr) (run_room hr))) h

/-! ## the stages of a pipeline -/

/-- Counting back from the newest vector of a router. -/
def TripleBuffer.back (b : TripleBuffer n) : Nat → Fin 3
  | 0 => b.currState
  | 1 => b.prevState
  | _ => b.nextState

open scoped Classical in
/-- How far the driver of `j` is behind router `r`: one epoch until it accepts
the current vector. -/
noncomputable def Router.unsentLag (r : Router n) (j : Fin n) : Nat := if r.Unsent j then 1 else 0

open scoped Classical in
/-- How far the reader `j` is behind its driver: one epoch while a vector of `i`
is stored there. -/
noncomputable def State.queuedLag (s : State n) (i j : Fin n) : Nat :=
  if s.Queued i j then 1 else 0

theorem Router.unsentLag_eq_one {r : Router n} {j : Fin n} (h : r.Unsent j) :
    r.unsentLag j = 1 := if_pos h

theorem Router.unsentLag_eq_zero {r : Router n} {j : Fin n} (h : ¬ r.Unsent j) :
    r.unsentLag j = 0 := if_neg h

theorem State.queuedLag_eq_one {s : State n} {i j : Fin n} (h : s.Queued i j) :
    s.queuedLag i j = 1 := if_pos h

theorem State.queuedLag_eq_zero {s : State n} {i j : Fin n} (h : ¬ s.Queued i j) :
    s.queuedLag i j = 0 := if_neg h

theorem Router.unsentLag_congr {r r' : Router n} {j : Fin n} (h : r'.Unsent j ↔ r.Unsent j) :
    r'.unsentLag j = r.unsentLag j := by
  by_cases hu : r.Unsent j
  · rw [unsentLag_eq_one hu, unsentLag_eq_one (h.mpr hu)]
  · rw [unsentLag_eq_zero hu, unsentLag_eq_zero (h.not.mpr hu)]

theorem State.queuedLag_congr {s s' : State n} {i j : Fin n}
    (h : ∀ p, some p ∈ s'.queues j ↔ some p ∈ s.queues j) :
    s'.queuedLag i j = s.queuedLag i j := by
  have hiff : s'.Queued i j ↔ s.Queued i j := exists_congr fun slot => h _
  by_cases hu : s.Queued i j
  · rw [queuedLag_eq_one hu, queuedLag_eq_one (hiff.mpr hu)]
  · rw [queuedLag_eq_zero hu, queuedLag_eq_zero (hiff.not.mpr hu)]

theorem State.not_queued_of_nil {s : State n} {i j : Fin n} (h : s.queues j = []) :
    ¬ s.Queued i j := by
  simp [Queued, h]

theorem Router.unsentLag_le (r : Router n) (j : Fin n) : r.unsentLag j ≤ 1 := by
  unfold unsentLag; split <;> omega

theorem State.queuedLag_le (s : State n) (i j : Fin n) : s.queuedLag i j ≤ 1 := by
  unfold queuedLag; split <;> omega

/-- Which vector each stage of the pipeline from `i` to `j` refers to. -/
structure PipeInv (C : Config n) (s : State n) : Prop where
  queued : ∀ {i j slot}, some ⟨i, slot⟩ ∈ s.queues j → C.topology.IsNeighbor i j ∧
    (s.routers i).unsentLag j < (s.routers i).buffer.curr.epoch ∧
    slot = (s.routers i).buffer.back ((s.routers i).unsentLag j)
  held : ∀ {i j slot}, (s.routers j).pc.held = some ⟨i, slot⟩ → C.topology.IsNeighbor i j ∧
    slot = (s.routers i).buffer.back ((s.routers i).unsentLag j + s.queuedLag i j)

/-! ### how each move shifts the stages -/

section Lags

variable {T : Topology n} {i j : Fin n} {r r' : Router n}

theorem Router.Quiet.back (h : Quiet T i r r') (k : Nat) : r'.buffer.back k = r.buffer.back k := by
  rcases k with _ | _ | k
  · exact h.currState
  · exact h.prevState
  · exact h.nextState

theorem Router.Quiet.unsentLag (h : Quiet T i r r') (hij : T.IsNeighbor i j) :
    r'.unsentLag j = r.unsentLag j := Router.unsentLag_congr (h.unsent hij)

theorem Router.Inv.unsentLag_handled (h : r.Inv T i) (hpc : r.pc = .select) (job : Job n) :
    (r.handled i job).unsentLag j = r.unsentLag j := by
  refine Router.unsentLag_congr ?_
  have hcopy : (r.handled i job).pc.isCopy = false := by cases job <;> rfl
  have hpend : (r.handled i job).selects.Pending j ↔ r.selects.Pending j :=
    h.selects.pending_storeJob job j
  unfold Unsent
  rw [hcopy, hpend, hpc]
  rfl

theorem Router.Inv.unsent_sent (h : r.Inv T i) (hpc : r.pc = .select) {m : Nat} {job : Job n}
    (hm : m < r.selects.selectCount)
    (he : r.selects.entries[m]? = some ⟨.drivers j, .schdle, job⟩) (a : Fin n) :
    (r.sent m).Unsent a ↔ r.Unsent a ∧ a ≠ j := by
  have hpend := (h.selects_select hpc).pending_remove hm he a
  simp only [Unsent, Router.sent, hpc, RouterPc.isCopy, Bool.false_eq_true, false_or]
  exact hpend

/-- The driver that accepts the vector is no longer behind. -/
theorem Router.Inv.unsentLag_sent_self (h : r.Inv T i) (hpc : r.pc = .select) {m : Nat}
    {job : Job n} (hm : m < r.selects.selectCount)
    (he : r.selects.entries[m]? = some ⟨.drivers j, .schdle, job⟩) :
    r.unsentLag j = 1 ∧ (r.sent m).unsentLag j = 0 := by
  constructor
  · exact unsentLag_eq_one (.inr ⟨m, hm, SelectList.target_eq_some.mpr ⟨job, he⟩⟩)
  · exact unsentLag_eq_zero fun hu => ((h.unsent_sent hpc hm he j).mp hu).2 rfl

theorem Router.Inv.unsentLag_sent_of_ne (h : r.Inv T i) (hpc : r.pc = .select) {m : Nat}
    {job : Job n} (hm : m < r.selects.selectCount)
    (he : r.selects.entries[m]? = some ⟨.drivers j, .schdle, job⟩) {a : Fin n} (ha : a ≠ j) :
    (r.sent m).unsentLag a = r.unsentLag a := by
  refine Router.unsentLag_congr ?_
  rw [h.unsent_sent hpc hm he]
  exact and_iff_left ha

/-- A new epoch puts every driver one vector behind. -/
theorem Router.Inv.unsentLag_rotated (h : r.Inv T i) (hpc : r.pc = .check)
    (hreset : r.MustReset) : r.unsentLag j = 0 ∧ r.rotated.unsentLag j = 1 := by
  have hs := h.selects
  constructor
  · refine unsentLag_eq_zero ?_
    rintro (hcopy | hpend)
    · rw [hpc] at hcopy; cases hcopy
    · exact hs.not_pending_of_two hreset.1 j hpend
  · exact unsentLag_eq_one (.inl rfl)

/-- Cycling renumbers the stages. -/
theorem TripleBuffer.back_cycle (b : TripleBuffer n) {k : Nat} (hk : k ≤ 1) :
    b.cycle.back (k + 1) = b.back k := by
  rcases k with _ | _ | k
  · rfl
  · rfl
  · omega

end Lags

/-! ### what a move of one kind leaves as it is -/

section Take

variable {a : Fin n} {p : StatePtr n}
  (hr' : ∀ x, s'.routers x = if x = a then (s.routers a).handled a (some p) else s.routers x)
include hr'

theorem buffer_take (i : Fin n) : (s'.routers i).buffer = (s.routers i).buffer := by
  rw [hr']
  split
  · next hia => rw [hia]; rfl
  · rfl

theorem unsentLag_take (hinv : (s.routers a).Inv C.topology a) (hpc : (s.routers a).pc = .select)
    (i j : Fin n) : (s'.routers i).unsentLag j = (s.routers i).unsentLag j := by
  rw [hr']
  split
  · next hia => rw [hia]; exact hinv.unsentLag_handled hpc (some p)
  · rfl

end Take

section Accept

variable {a b : Fin n} {m : Nat} {job : Job n}
  (hr' : ∀ x, s'.routers x = if x = a then (s.routers a).sent m else s.routers x)
include hr'

theorem buffer_accept (i : Fin n) : (s'.routers i).buffer = (s.routers i).buffer := by
  rw [hr']
  split
  · next hia => rw [hia]; rfl
  · rfl

theorem held_accept {j : Fin n} {q : StatePtr n} (h : (s'.routers j).pc.held = some q) :
    (s.routers j).pc.held = some q := by
  rw [hr'] at h
  split at h
  · cases h
  · exact h

variable (hinv : (s.routers a).Inv C.topology a) (hpc : (s.routers a).pc = .select)
  (hm : m < (s.routers a).selects.selectCount)
  (he : (s.routers a).selects.entries[m]? = some ⟨.drivers b, .schdle, job⟩)
include hinv hpc hm he

theorem unsentLag_accept_self : (s'.routers a).unsentLag b = 0 := by
  rw [hr', if_pos rfl]
  exact (hinv.unsentLag_sent_self hpc hm he).2

theorem unsentLag_accept {i j : Fin n} (hne : i = a → j ≠ b) :
    (s'.routers i).unsentLag j = (s.routers i).unsentLag j := by
  rw [hr']
  split
  · next hia => rw [hia]; exact hinv.unsentLag_sent_of_ne hpc hm he (hne hia)
  · rfl

end Accept

section Meet

variable {a b : Fin n} {m : Nat} {job job' : Job n}
  (hr' : ∀ x, s'.routers x = if x = b then (s.routers b).handled b job'
    else if x = a then (s.routers a).sent m else s.routers x)
include hr'

theorem buffer_meet (i : Fin n) : (s'.routers i).buffer = (s.routers i).buffer := by
  rw [hr']
  split
  · next hib => rw [hib]; rfl
  · split
    · next hia => rw [hia]; rfl
    · rfl

variable (hinv : ∀ i, (s.routers i).Inv C.topology i) (hpc : (s.routers a).pc = .select)
  (hm : m < (s.routers a).selects.selectCount)
  (he : (s.routers a).selects.entries[m]? = some ⟨.drivers b, .schdle, job⟩)
include hinv hpc hm he

theorem unsentLag_meet_self (hab : a ≠ b) : (s'.routers a).unsentLag b = 0 := by
  rw [hr', if_neg hab, if_pos rfl]
  exact ((hinv a).unsentLag_sent_self hpc hm he).2

theorem unsentLag_meet (hpcb : (s.routers b).pc = .select) {i j : Fin n} (hne : i = a → j ≠ b) :
    (s'.routers i).unsentLag j = (s.routers i).unsentLag j := by
  rw [hr']
  split
  · next hib => rw [hib]; exact (hinv b).unsentLag_handled hpcb job'
  · split
    · next hia => rw [hia]; exact (hinv a).unsentLag_sent_of_ne hpc hm he (hne hia)
    · rfl

end Meet

/-! ### epochs -/

/-- A router keeps its current vector, unless it begins an epoch. -/
theorem VectorStep.curr_cases (h : VectorStep C s es s') (i : Fin n) :
    (s'.routers i).buffer.curr = (s.routers i).buffer.curr ∨
      (s.routers i).pc = .check ∧ (s.routers i).MustReset ∧
        s'.routers i = (s.routers i).rotated := by
  cases h with
  | quiet hr hq hes => exact .inl (hr i).curr
  | take hpc hq hr' hq' => exact .inl (by rw [buffer_take hr'])
  | accept hpc hij hm he hq hr' hq' => exact .inl (by rw [buffer_accept hr'])
  | meet hpc hij hm he hq hpcj hr' hq' => exact .inl (by rw [buffer_meet hr'])
  | @rotate a s' hpc hreset hr' hq' =>
      by_cases hia : i = a
      · subst hia; exact .inr ⟨hpc, hreset, by rw [hr', if_pos rfl]⟩
      · exact .inl (by rw [hr', if_neg hia])

/-- Epochs never go back. -/
theorem VectorStep.epoch_le (h : VectorStep C s es s')
    (hinv : ∀ i, (s.routers i).Inv C.topology i) (i : Fin n) :
    (s.routers i).buffer.curr.epoch ≤ (s'.routers i).buffer.curr.epoch := by
  rcases h.curr_cases i with heq | ⟨-, -, heq⟩
  · rw [heq]
  · rw [heq, (hinv i).epoch_rotated]
    exact Nat.le_succ _

/-! ### the invariant -/

theorem pipeInv_init (C : Config n) : PipeInv C (State.init C) where
  queued h := by simp [State.init] at h
  held h := by simp [State.init, Router.init, RouterPc.held] at h

theorem PipeInv.quiet (h : PipeInv C s)
    (hr : ∀ i, Router.Quiet C.topology i (s.routers i) (s'.routers i))
    (hq : ∀ j p, some p ∈ s'.queues j ↔ some p ∈ s.queues j) : PipeInv C s' := by
  constructor
  · intro i j slot hmem
    obtain ⟨hij, hlt, hslot⟩ := h.queued ((hq j _).mp hmem)
    rw [(hr i).unsentLag hij, (hr i).back, (hr i).curr]
    exact ⟨hij, hlt, hslot⟩
  · intro i j slot hheld
    obtain ⟨hij, hslot⟩ := h.held ((hr j).held hheld)
    rw [(hr i).unsentLag hij, (hr i).back, State.queuedLag_congr (hq j)]
    exact ⟨hij, hslot⟩

/-- The stored vector becomes the one being processed. -/
theorem PipeInv.take (h : PipeInv C s) {a : Fin n} {p : StatePtr n}
    (hinv : (s.routers a).Inv C.topology a) (hpc : (s.routers a).pc = .select)
    (hq : s.queues a = [some p])
    (hr' : ∀ x, s'.routers x = if x = a then (s.routers a).handled a (some p) else s.routers x)
    (hq' : ∀ x, s'.queues x = if x = a then [] else s.queues x) : PipeInv C s' := by
  have hlag := unsentLag_take hr' hinv hpc
  constructor
  · intro i j slot hmem
    by_cases hja : j = a
    · simp [hq', hja] at hmem
    · rw [hlag, buffer_take hr']
      exact h.queued (by simpa [hq', hja] using hmem)
  · intro i j slot hheld
    rw [hlag, buffer_take hr']
    by_cases hja : j = a
    · subst hja
      have hp : p = ⟨i, slot⟩ := by
        simpa [hr', Router.handled, RouterPc.held] using hheld
      subst hp
      obtain ⟨hij, -, hslot⟩ := h.queued (by rw [hq]; exact List.mem_singleton.mpr rfl)
      rw [State.queuedLag_eq_zero (State.not_queued_of_nil (by simp [hq']))]
      exact ⟨hij, hslot⟩
    · rw [State.queuedLag_congr (s := s) (by simp [hq', hja])]
      exact h.held (by simpa [hr', hja] using hheld)

/-- The vector being broadcast becomes the stored one. -/
theorem PipeInv.accept (h : PipeInv C s) {a b : Fin n} {m : Nat}
    (hinv : (s.routers a).Inv C.topology a) (hpc : (s.routers a).pc = .select)
    (hab : C.topology.IsNeighbor a b) (hm : m < (s.routers a).selects.selectCount)
    (he : (s.routers a).selects.entries[m]? =
      some ⟨.drivers b, .schdle, some ⟨a, (s.routers a).buffer.currState⟩⟩)
    (hq : s.queues b = [])
    (hr' : ∀ x, s'.routers x = if x = a then (s.routers a).sent m else s.routers x)
    (hq' : ∀ x, s'.queues x =
      if x = b then [some ⟨a, (s.routers a).buffer.currState⟩] else s.queues x) :
    PipeInv C s' := by
  have hself := unsentLag_accept_self hr' hinv hpc hm he
  have hlag : ∀ {i j}, (i = a → j ≠ b) →
      (s'.routers i).unsentLag j = (s.routers i).unsentLag j := fun hne =>
    unsentLag_accept hr' hinv hpc hm he hne
  constructor
  · intro i j slot hmem
    rw [buffer_accept hr']
    by_cases hjb : j = b
    · subst hjb
      simp only [hq', if_true, List.mem_singleton, Option.some.injEq, StatePtr.mk.injEq] at hmem
      obtain ⟨rfl, rfl⟩ := hmem
      rw [hself]
      exact ⟨hab, hinv.buffer.epoch_pos, rfl⟩
    · rw [hlag fun _ => hjb]
      exact h.queued (by simpa [hq', hjb] using hmem)
  · intro i j slot hheld
    obtain ⟨hij, hslot⟩ := h.held (held_accept hr' hheld)
    rw [buffer_accept hr']
    refine ⟨hij, ?_⟩
    by_cases hjb : j = b
    · subst hjb
      rw [State.queuedLag_eq_zero (State.not_queued_of_nil hq)] at hslot
      by_cases hia : i = a
      · -- the lag moves from the sender into the queue
        subst hia
        have hqueued : s'.Queued i j := ⟨(s.routers i).buffer.currState, by simp [hq']⟩
        rw [hself, State.queuedLag_eq_one hqueued]
        rw [(hinv.unsentLag_sent_self hpc hm he).1] at hslot
        exact hslot
      · have hqueued : ¬ s'.Queued i j := by simp [State.Queued, hq', hia]
        rw [hlag fun hc => absurd hc hia, State.queuedLag_eq_zero hqueued]
        exact hslot
    · rw [hlag fun _ => hjb, State.queuedLag_congr (s := s) (by simp [hq', hjb])]
      exact hslot

/-- The vector being broadcast becomes the one being processed. -/
theorem PipeInv.meet (h : PipeInv C s) {a b : Fin n} {m : Nat}
    (hinv : ∀ i, (s.routers i).Inv C.topology i) (hpc : (s.routers a).pc = .select)
    (hab : C.topology.IsNeighbor a b) (hm : m < (s.routers a).selects.selectCount)
    (he : (s.routers a).selects.entries[m]? =
      some ⟨.drivers b, .schdle, some ⟨a, (s.routers a).buffer.currState⟩⟩)
    (hq : s.queues b = []) (hpcb : (s.routers b).pc = .select)
    (hr' : ∀ x, s'.routers x =
      if x = b then (s.routers b).handled b (some ⟨a, (s.routers a).buffer.currState⟩)
      else if x = a then (s.routers a).sent m else s.routers x)
    (hq' : s'.queues = s.queues) : PipeInv C s' := by
  have hself := unsentLag_meet_self hr' hinv hpc hm he hab.1.symm
  have hlag : ∀ {i j}, (i = a → j ≠ b) →
      (s'.routers i).unsentLag j = (s.routers i).unsentLag j := fun hne =>
    unsentLag_meet hr' hinv hpc hm he hpcb hne
  constructor
  · intro i j slot hmem
    rw [hq'] at hmem
    have hjb : j ≠ b := by rintro rfl; rw [hq] at hmem; cases hmem
    rw [hlag fun _ => hjb, buffer_meet hr']
    exact h.queued hmem
  · intro i j slot hheld
    rw [buffer_meet hr']
    by_cases hjb : j = b
    · subst hjb
      have hp : (⟨a, (s.routers a).buffer.currState⟩ : StatePtr n) = ⟨i, slot⟩ := by
        simpa [hr', Router.handled, RouterPc.held] using hheld
      cases hp
      rw [hself, State.queuedLag_eq_zero (State.not_queued_of_nil (by rw [hq', hq]))]
      exact ⟨hab, rfl⟩
    · rw [hlag fun _ => hjb, State.queuedLag_congr (s := s) (by simp [hq'])]
      rw [hr', if_neg hjb] at hheld
      split at hheld
      · cases hheld
      · exact h.held hheld

/-- A new epoch: every stage is one vector further back. -/
theorem PipeInv.rotate (h : PipeInv C s) {a : Fin n} (hinv : (s.routers a).Inv C.topology a)
    (hpc : (s.routers a).pc = .check) (hreset : (s.routers a).MustReset)
    (hr' : ∀ x, s'.routers x = if x = a then (s.routers a).rotated else s.routers x)
    (hq' : s'.queues = s.queues) : PipeInv C s' := by
  have hcurr := hinv.buffer.curr_cycle
  have hnext := hinv.buffer.epoch_next
  constructor
  · intro i j slot hmem
    rw [hq'] at hmem
    obtain ⟨hij, hlt, hslot⟩ := h.queued hmem
    rw [hr']
    split
    · next hia =>
      subst hia
      have hlag := hinv.unsentLag_rotated (j := j) hpc hreset
      rw [hlag.1] at hlt hslot
      rw [hlag.2]
      refine ⟨hij, ?_, ?_⟩
      · simp only [Router.rotated, hcurr, hnext]; omega
      · rw [hslot]; exact (TripleBuffer.back_cycle _ (by omega)).symm
    · exact ⟨hij, hlt, hslot⟩
  · intro i j slot hheld
    have hheld' : (s.routers j).pc.held = some ⟨i, slot⟩ := by
      rw [hr'] at hheld
      split at hheld
      · cases hheld
      · exact hheld
    obtain ⟨hij, hslot⟩ := h.held hheld'
    refine ⟨hij, ?_⟩
    rw [State.queuedLag_congr (s := s) (by simp [hq']), hr']
    split
    · next hia =>
      subst hia
      have hlag := hinv.unsentLag_rotated (j := j) hpc hreset
      rw [hlag.1, Nat.zero_add] at hslot
      rw [hlag.2, hslot, Nat.add_comm]
      exact (TripleBuffer.back_cycle _ (s.queuedLag_le i j)).symm
    · exact hslot

/-- **The stages of every pipeline are kept in step.** -/
theorem PipeInv.step (h : PipeInv C s) (hinv : ∀ i, (s.routers i).Inv C.topology i)
    (hs : VectorStep C s es s') : PipeInv C s' := by
  cases hs with
  | quiet hr hq hes => exact h.quiet hr hq
  | take hpc hq hr' hq' => exact h.take (hinv _) hpc hq hr' hq'
  | accept hpc hij hm he hq hr' hq' => exact h.accept (hinv _) hpc hij hm he hq hr' hq'
  | meet hpc hij hm he hq hpcj hr' hq' => exact h.meet hinv hpc hij hm he hq hpcj hr' hq'
  | rotate hpc hreset hr' hq' => exact h.rotate (hinv _) hpc hreset hr' hq'

theorem run_pipeInv {log : List (Event n)} (h : (stress C).Run log s) : PipeInv C s :=
  run_vectorInvariant (P := fun _ s => PipeInv C s) (pipeInv_init C)
    (fun hr hp hs => hp.step (run_routerInv hr) hs) h

end Steps

end ConcurrencyLab
