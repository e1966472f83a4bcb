import ConcurrencyLab.Buffer
import ConcurrencyLab.Transition

/-!
# ConcurrencyLab.Loop

The loop invariant of the router thread.  `Router.Step` is what one thread can
do to its own record, whatever the other threads do; what it reads from their
vectors is a parameter.  `Router.Inv` holds at the start of the thread and is kept
by each of these moves (`Inv.step`), hence in every run of a thread on its own
(`Router.Run`) and of the whole system (`run_routerInv`); `loop_invariant` spells it
out at the calls of `driver_select`.

The fields of the invariant that mention control say where the local variables
may be out of step: while the new `next_state` is being filled
(`RouterPc.copy`), and between a vector that improved `next_state` and the
test of line 201.
-/

namespace ConcurrencyLab

variable {n : Nat}

/-- The loop of lines 210-212 is running. -/
def RouterPc.isCopy : RouterPc n → Bool
  | .copy _ => true
  | _ => false

namespace Router

/-- The slot of the vector that the select list names: from the cycling of the
buffers until line 216 it is still the previous one. -/
def sending (r : Router n) : Fin 3 :=
  if r.pc.isCopy then r.buffer.prevState else r.buffer.currState

/-- The loop invariant of router `index`. -/
structure Inv (T : Topology n) (index : Fin n) (r : Router n) : Prop where
  buffer : r.buffer.Valid index
  selects : r.selects.Valid T index r.sending
  next_le : r.pc.isCopy = false → ∀ k, r.buffer.next.dist k ≤ r.buffer.curr.dist k
  driverged_iff : r.pc.isCopy = false →
    (r.driverged = true ↔ ∃ k, r.buffer.next.dist k ≠ r.buffer.curr.dist k)
  copy : ∀ m, r.pc = .copy m → r.driverged = true ∧ r.selects.selectCount = 2 ∧
    (∀ k : Fin n, k.val < m → r.buffer.next.dist k = r.buffer.curr.dist k) ∧
    ∀ k, r.buffer.curr.dist k ≤ r.buffer.next.dist k
  waiting : (r.pc = .select ∨ ∃ job, r.pc = .reply job) → r.driverged = true →
    2 < r.selects.selectCount
  reply : ∀ job, r.pc = .reply job →
    job = if r.Converged then some ⟨index, r.buffer.currState⟩ else none

/-- What router `index` may do to its own record in one step, when `load` is what
it finds at an address. -/
inductive Step (T : Topology n) (load : StatePtr n → DistanceVector n) (index : Fin n)
    (r : Router n) : Router n → Prop
  | handled (job : Job n) (hpc : r.pc = .select) : Step T load index r (r.handled index job)
  | sent {m : Nat} {j : Fin n} {job : Job n} (hpc : r.pc = .select)
      (hm : m < r.selects.selectCount)
      (he : r.selects.entries[m]? = some ⟨.drivers j, .schdle, job⟩) :
      Step T load index r (r.sent m)
  | replied {job : Job n} (hpc : r.pc = .reply job) : Step T load index r (r.goto .check)
  | received {p : StatePtr n} (hpc : r.pc = .received p)
      (hlink : T.link index (load p).src ≠ infDistance) :
      Step T load index r (r.goto (.relax p (T.link index (load p).src) 0))
  | relaxed {p : StatePtr n} {neighborDist : Nat} {k : Fin n}
      (hpc : r.pc = .relax p neighborDist k.val) :
      Step T load index r (r.relaxed p neighborDist k ((load p).dist k))
  | relaxDone {p : StatePtr n} {neighborDist k : Nat} (hpc : r.pc = .relax p neighborDist k)
      (hk : n ≤ k) : Step T load index r (r.goto .check)
  | rotated (hpc : r.pc = .check) (hreset : r.MustReset) : Step T load index r r.rotated
  | skipped (hpc : r.pc = .check) (hreset : ¬ r.MustReset) : Step T load index r (r.goto .select)
  | copied {k : Fin n} (hpc : r.pc = .copy k.val) : Step T load index r (r.copied k)
  | reset {k : Nat} (hpc : r.pc = .copy k) (hk : n ≤ k) : Step T load index r (r.reset index)
  | left (hpc : r.pc = .select) (hdiv : r.driverged = false) :
      Step T load index r (r.goto .exited)

variable {T : Topology n} {load : StatePtr n → DistanceVector n} {index : Fin n} {r r' : Router n}

/-! ## the invariant, initially and step by step -/

theorem inv_init (T : Topology n) (index : Fin n) : (init T index).Inv T index where
  buffer := TripleBuffer.valid_init T index
  selects := SelectList.valid_init T index
  next_le _ k := Nat.le_refl _
  driverged_iff _ := by simp [init, TripleBuffer.init, TripleBuffer.next, TripleBuffer.curr]
  copy m h := by simp [init] at h
  waiting _ h := by simp [init] at h
  reply job h := by simp [init] at h

/-- Outside the copy loop the select list names `curr_state`. -/
theorem Inv.selects_of_not_copy (h : r.Inv T index) (hcopy : r.pc.isCopy = false) :
    r.selects.Valid T index r.buffer.currState := by
  have hs := h.selects
  simp only [sending, hcopy] at hs
  exact hs

theorem Inv.selects_select (h : r.Inv T index) (hpc : r.pc = .select) :
    r.selects.Valid T index r.buffer.currState := h.selects_of_not_copy (by rw [hpc]; rfl)

/-- Control moves between two places outside the copy loop. -/
theorem Inv.goto (h : r.Inv T index) {pc : RouterPc n} (hfrom : r.pc.isCopy = false)
    (hto : pc.isCopy = false) (hreply : ∀ job, pc ≠ .reply job)
    (hwait : pc = .select → r.driverged = true → 2 < r.selects.selectCount) :
    (r.goto pc).Inv T index where
  buffer := h.buffer
  selects := by
    simp only [sending, Router.goto, hto]
    exact h.selects_of_not_copy hfrom
  next_le _ := h.next_le hfrom
  driverged_iff _ := h.driverged_iff hfrom
  copy m hm := by
    simp only [Router.goto] at hm
    simp [hm, RouterPc.isCopy] at hto
  waiting hpc hd := by
    rcases hpc with hpc | ⟨job, hpc⟩
    · exact hwait hpc hd
    · exact absurd hpc (hreply job)
  reply job hpc := absurd hpc (hreply job)

theorem Inv.handled (h : r.Inv T index) (hpc : r.pc = .select) (job : Job n) :
    (r.handled index job).Inv T index := by
  have hs := h.selects_select hpc
  have hcopy : (r.handled index job).pc.isCopy = false := by
    cases job <;> rfl
  have hfrom : r.pc.isCopy = false := by rw [hpc]; rfl
  constructor
  case buffer => exact h.buffer
  case selects =>
    simp only [sending, hcopy]
    exact hs.storeJob job
  case next_le => exact fun _ => h.next_le hfrom
  case driverged_iff => exact fun _ => h.driverged_iff hfrom
  case copy => intro m hm; simp [hm, RouterPc.isCopy] at hcopy
  case waiting => exact fun _ => h.waiting (.inl hpc)
  case reply =>
    intro job' hjob
    cases job with
    | some p => simp [Router.handled] at hjob
    | none =>
        simp only [Router.handled, RouterPc.reply.injEq] at hjob
        exact hjob.symm

theorem Inv.sent (h : r.Inv T index) (hpc : r.pc = .select) {m : Nat} {j : Fin n} {job : Job n}
    (hm : m < r.selects.selectCount)
    (he : r.selects.entries[m]? = some ⟨.drivers j, .schdle, job⟩) :
    (r.sent m).Inv T index := by
  have hs := h.selects_select hpc
  have hfrom : r.pc.isCopy = false := by rw [hpc]; rfl
  constructor
  case buffer => exact h.buffer
  case selects => exact hs.remove hm he
  case next_le => exact fun _ => h.next_le hfrom
  case driverged_iff => exact fun _ => h.driverged_iff hfrom
  case copy => intro m hm; simp [Router.sent] at hm
  case waiting => intro hpc; simp [Router.sent] at hpc
  case reply => intro job hpc; simp [Router.sent] at hpc

theorem Inv.relaxed (h : r.Inv T index) {p : StatePtr n} {neighborDist : Nat} {k : Fin n}
    (hpc : r.pc = .relax p neighborDist k.val) (d : Nat) :
    (r.relaxed p neighborDist k d).Inv T index := by
  have hfrom : r.pc.isCopy = false := by rw [hpc]; rfl
  have hle := h.next_le hfrom
  unfold Router.relaxed
  split
  case isFalse => exact h.goto hfrom rfl (by simp) (by simp)
  case isTrue hlt =>
    have hcurr := h.buffer.curr_writeNext k (add32 neighborDist d)
    constructor
    case buffer => exact h.buffer.writeNext k _
    case selects => exact h.selects_of_not_copy hfrom
    case next_le =>
      intro _ i
      simp only [hcurr, TripleBuffer.next_writeNext, Function.update_apply]
      split
      · next hik => subst hik; exact Nat.le_trans (Nat.le_of_lt hlt) (hle i)
      · exact hle i
    case driverged_iff =>
      refine fun _ => ⟨fun _ => ⟨k, ?_⟩, fun _ => rfl⟩
      simp only [hcurr, TripleBuffer.next_writeNext, Function.update_self]
      have := hle k
      omega
    case copy => intro m hm; cases hm
    case waiting => intro hpc; simp at hpc
    case reply => intro job hpc; cases hpc

theorem Inv.rotated (h : r.Inv T index) (hpc : r.pc = .check) (hreset : r.MustReset) :
    r.rotated.Inv T index := by
  have hfrom : r.pc.isCopy = false := by rw [hpc]; rfl
  have hle := h.next_le hfrom
  have hcurr := h.buffer.curr_cycle
  constructor
  case buffer => exact h.buffer.cycle hle
  case selects => exact h.selects_of_not_copy hfrom
  case next_le => intro hto; simp [Router.rotated, RouterPc.isCopy] at hto
  case driverged_iff => intro hto; simp [Router.rotated, RouterPc.isCopy] at hto
  case copy =>
    intro m hm
    simp only [Router.rotated, RouterPc.copy.injEq] at hm
    subst hm
    refine ⟨hreset.2, hreset.1, fun k hk => absurd hk (Nat.not_lt_zero _), fun k => ?_⟩
    simp only [Router.rotated, hcurr, TripleBuffer.next_cycle]
    exact Nat.le_trans (hle k) (h.buffer.curr_le_prev k)
  case waiting => intro hpc; simp [Router.rotated] at hpc
  case reply => intro job hpc; simp [Router.rotated] at hpc

/-- The next epoch is one more. -/
theorem Inv.epoch_rotated (h : r.Inv T index) :
    r.rotated.buffer.curr.epoch = r.buffer.curr.epoch + 1 := by
  simp only [Router.rotated, h.buffer.curr_cycle, h.buffer.epoch_next]

theorem Inv.copied (h : r.Inv T index) {k : Fin n} (hpc : r.pc = .copy k.val) :
    (r.copied k).Inv T index := by
  obtain ⟨hdiv, hcount, hdone, hle⟩ := h.copy k.val hpc
  have hcurr := h.buffer.curr_writeNext k (r.buffer.curr.dist k)
  constructor
  case buffer => exact h.buffer.writeNext k _
  case selects =>
    have hs := h.selects
    simp only [sending, hpc, RouterPc.isCopy] at hs
    exact hs
  case next_le => intro hto; simp [Router.copied, RouterPc.isCopy] at hto
  case driverged_iff => intro hto; simp [Router.copied, RouterPc.isCopy] at hto
  case copy =>
    intro m hm
    simp only [Router.copied, RouterPc.copy.injEq] at hm
    subst hm
    refine ⟨hdiv, hcount, fun i hi => ?_, fun i => ?_⟩
    · simp only [Router.copied, hcurr, TripleBuffer.next_writeNext, Function.update_apply]
      split
      · next hik => rw [hik]
      · next hik => exact hdone i (by omega)
    · simp only [Router.copied, hcurr, TripleBuffer.next_writeNext, Function.update_apply]
      split
      · next hik => rw [hik]
      · exact hle i
  case waiting => intro hpc; simp [Router.copied] at hpc
  case reply => intro job hpc; simp [Router.copied] at hpc

/-- When the copy loop is over, `next_state` holds what `curr_state` holds. -/
theorem Inv.next_eq_of_copy (h : r.Inv T index) {m : Nat} (hpc : r.pc = .copy m) (hm : n ≤ m)
    (k : Fin n) : r.buffer.next.dist k = r.buffer.curr.dist k :=
  (h.copy m hpc).2.2.1 k (by omega)

theorem Inv.reset (h : r.Inv T index) {k : Nat} (hpc : r.pc = .copy k) (hk : n ≤ k) :
    (r.reset index).Inv T index := by
  have heq := h.next_eq_of_copy hpc hk
  constructor
  case buffer => exact h.buffer
  case selects => exact h.selects.rearm r.buffer.currState
  case next_le => exact fun _ i => Nat.le_of_eq (heq i)
  case driverged_iff =>
    intro _
    simp only [Router.reset, Bool.false_eq_true, false_iff, not_exists, not_not]
    exact heq
  case copy => intro m hm; simp [Router.reset] at hm
  case waiting => intro _ hd; simp [Router.reset] at hd
  case reply => intro job hpc; simp [Router.reset] at hpc

/-- **The loop invariant is kept** by everything the thread does. -/
theorem Inv.step (h : r.Inv T index) (hs : Step T load index r r') : r'.Inv T index := by
  cases hs with
  | handled job hpc => exact h.handled hpc job
  | sent hpc hm he => exact h.sent hpc hm he
  | replied hpc => exact h.goto (by rw [hpc]; rfl) rfl (by simp) (by simp)
  | received hpc hlink => exact h.goto (by rw [hpc]; rfl) rfl (by simp) (by simp)
  | relaxed hpc => exact h.relaxed hpc _
  | relaxDone hpc hk => exact h.goto (by rw [hpc]; rfl) rfl (by simp) (by simp)
  | rotated hpc hreset => exact h.rotated hpc hreset
  | skipped hpc hreset =>
      refine h.goto (by rw [hpc]; rfl) rfl (by simp) fun _ hd => ?_
      have h2 := h.selects.two_le
      have hne : r.selects.selectCount ≠ 2 := fun hc => hreset ⟨hc, hd⟩
      omega
  | copied hpc => exact h.copied hpc
  | reset hpc hk => exact h.reset hpc hk
  | left hpc hdiv => exact h.goto (by rw [hpc]; rfl) rfl (by simp) (by simp)

/-! ## a router on its own -/

/-- A router thread under any sequence of selection results, whatever the jobs it
takes hold. -/
inductive Run (T : Topology n) (index : Fin n) : Router n → Prop
  | init : Run T index (init T index)
  | step {load : StatePtr n → DistanceVector n} {r r' : Router n} :
      Run T index r → Step T load index r r' → Run T index r'

theorem Run.inv (h : Run T index r) : r.Inv T index := by
  induction h with
  | init => exact inv_init T index
  | step _ hs ih => exact ih.step hs

/-- **Router loop invariant**, at every call of `driver_select`: the three buffers
with their roles, epochs and distances, the flag, and the select list. -/
theorem loop_invariant (h : Run T index r) (hpc : r.pc = .select) :
    (r.buffer.prevState ≠ r.buffer.currState ∧ r.buffer.currState ≠ r.buffer.nextState ∧
      r.buffer.prevState ≠ r.buffer.nextState) ∧
    (∀ slot, (r.buffer.states slot).src = index) ∧
    (r.buffer.prev.epoch + 1 = r.buffer.curr.epoch ∧
      r.buffer.next.epoch = r.buffer.curr.epoch + 1) ∧
    (∀ k, r.buffer.next.dist k ≤ r.buffer.curr.dist k ∧
      r.buffer.curr.dist k ≤ r.buffer.prev.dist k) ∧
    (r.driverged = true ↔ ∃ k, r.buffer.next.dist k ≠ r.buffer.curr.dist k) ∧
    (r.driverged = true → 2 < r.selects.selectCount) ∧
    (2 ≤ r.selects.selectCount ∧ r.selects.selectCount ≤ r.selects.totalSelectCount) ∧
    (r.selects.entries[0]?).map (fun e => (e.driver, e.op)) = some (.doneDriver, .handle) ∧
    (r.selects.entries[1]?).map (fun e => (e.driver, e.op)) = some (.drivers index, .handle) ∧
    (∀ m, 2 ≤ m → m < r.selects.totalSelectCount → ∃ j, T.IsNeighbor index j ∧
      r.selects.entries[m]? = some ⟨.drivers j, .schdle, some ⟨index, r.buffer.currState⟩⟩) ∧
    (∀ j, T.IsNeighbor index j → ∃! m, 2 ≤ m ∧ m < r.selects.totalSelectCount ∧
      (r.selects.entries[m]?).map Select.driver = some (.drivers j)) := by
  have hinv := h.inv
  have hbuf := hinv.buffer
  have hsel := hinv.selects_select hpc
  have hfrom : r.pc.isCopy = false := by rw [hpc]; rfl
  -- an entry from 2 on that names `j` is the broadcast to `j`
  have htarget : ∀ {m j}, 2 ≤ m → m < r.selects.totalSelectCount →
      (r.selects.entries[m]?).map Select.driver = some (.drivers j) →
        r.selects.target m = some j := by
    intro m j hm hlt hdriver
    obtain ⟨j', -, he⟩ := hsel.entry m hm hlt
    rw [he, Option.map_some, Option.some.injEq, DriverRef.drivers.injEq] at hdriver
    subst hdriver
    exact SelectList.target_eq_some.mpr ⟨_, he⟩
  refine ⟨⟨hbuf.curr_ne_prev.symm, hbuf.curr_ne_next, hbuf.prev_ne_next⟩, hbuf.src,
    ⟨hbuf.epoch_prev, hbuf.epoch_next⟩, fun k => ⟨hinv.next_le hfrom k, hbuf.curr_le_prev k⟩,
    hinv.driverged_iff hfrom, hinv.waiting (.inl hpc), ⟨hsel.two_le, hsel.le_total⟩,
    hsel.done, hsel.own, hsel.entry, ?_⟩
  intro j hj
  obtain ⟨m, hm⟩ := hsel.surj hj
  obtain ⟨job, he⟩ := SelectList.target_eq_some.mp hm
  refine ⟨m, ⟨hsel.two_le_of_entry he, hsel.lt_total_of_entry he, by rw [he]; rfl⟩, ?_⟩
  rintro m' ⟨htwo, hlt, hdriver⟩
  exact hsel.inj (htarget htwo hlt hdriver) hm

end Router

/-! ## every router in every run -/

section Routers

variable {C : Config n} {s s' : State n} {es : List (Event n)}

theorem LocalStep.routerStep {i : Fin n} {r : Router n} (h : LocalStep C s i es r) :
    Router.Step C.topology s.load i (s.routers i) r := by
  cases h with
  | received hpc hlink => exact .received hpc hlink
  | relaxed hpc => exact .relaxed hpc
  | relaxDone hpc hk => exact .relaxDone hpc hk
  | rotated hpc hreset => exact .rotated hpc hreset
  | skipped hpc hreset => exact .skipped hpc hreset
  | copied hpc => exact .copied hpc
  | reset hpc hk => exact .reset hpc hk
  | left hpc hclosed hdiv => exact .left hpc hdiv

@[simp] theorem State.routers_setRouter (s : State n) (i : Fin n) (r : Router n) (j : Fin n) :
    (s.setRouter i r).routers j = if j = i then r else s.routers j := by
  simp [State.setRouter, Function.update_apply]

@[simp] theorem State.routers_setQueue (s : State n) (i : Fin n) (q : List (Job n)) :
    (s.setQueue i q).routers = s.routers := rfl

@[simp] theorem State.routers_setMain (s : State n) (m : Main n) :
    (s.setMain m).routers = s.routers := rfl

@[simp] theorem State.routers_abort (s : State n) (f : Fault) :
    (s.abort f).routers = s.routers := rfl

/-- In one step of the whole system each router makes one move or none. -/
theorem Trans.router_cases (h : Trans C s es s') (i : Fin n) :
    s'.routers i = s.routers i ∨
      Router.Step C.topology s.load i (s.routers i) (s'.routers i) := by
  cases h with
  | @handle j job rest hpc hq =>
      by_cases hij : i = j
      · subst hij; exact .inr (by simpa using .handled job hpc)
      · exact .inl (by simp [hij])
  | @schedule a j m job hpc hm he hroom =>
      by_cases hia : i = a
      · subst hia; exact .inr (by simpa using .sent hpc hm he)
      · exact .inl (by simp [hia])
  | @meet a j m job hpc hm he hbuf hne hpcj =>
      by_cases hij : i = j
      · subst hij; exact .inr (by simpa using .handled job hpcj)
      · by_cases hia : i = a
        · subst hia; exact .inr (by simpa [hij] using .sent hpc hm he)
        · exact .inl (by simp [hij, hia])
  | @router a es r h =>
      by_cases hia : i = a
      · subst hia; exact .inr (by simpa using h.routerStep)
      · exact .inl (by simp [hia])
  | @reply a job hpc hroom =>
      by_cases hia : i = a
      · subst hia; exact .inr (by simpa using .replied hpc)
      · exact .inl (by simp [hia])
  | @replyMeet a job round k hpc hbuf hmain hk =>
      by_cases hia : i = a
      · subst hia; exact .inr (by simpa using .replied hpc)
      · exact .inl (by simp [hia])
  | probe hmain hroom => exact .inl (by simp)
  | @probeMeet round k hmain hbuf hpc =>
      by_cases hik : i = k
      · subst hik; exact .inr (by simpa using .handled none hpc)
      · exact .inl (by simp [hik])
  | collect hmain hk hq => exact .inl (by simp)
  | main h => exact .inl rfl
  | abort h => exact .inl rfl

/-- In a run of the whole system each router makes a run of its own. -/
theorem run_router {log : List (Event n)} (h : (stress C).Run log s) (i : Fin n) :
    Router.Run C.topology i (s.routers i) := by
  refine run_invariant (P := fun _ s => ∀ i, Router.Run C.topology i (s.routers i))
    (fun i => .init) (fun _ hrun ht i => ?_) h i
  rcases ht.router_cases i with heq | hstep
  · rw [heq]; exact hrun i
  · exact (hrun i).step hstep

/-- The loop invariant holds of every router in every run. -/
theorem run_routerInv {log : List (Event n)} (h : (stress C).Run log s) (i : Fin n) :
    (s.routers i).Inv C.topology i :=
  (run_router h i).inv

end Routers

/-- The first of the two routers has taken its neighbour's vector, improved its own
diagonal entry and begun to broadcast again, from its third buffer. -/
theorem Router.loop_invariant_twoRouters : ∃ log s, (stress twoRouters).Run log s ∧
    (s.routers 0).buffer.curr.epoch = 2 ∧ (s.routers 0).buffer.curr.dist 0 = 8 ∧
    (s.routers 0).buffer.prev.dist 0 = 9 ∧ (s.routers 0).selects.selectCount = 3 ∧
    (∀ m, 2 ≤ m → m < (s.routers 0).selects.totalSelectCount →
      ∃ j, twoRouters.topology.IsNeighbor 0 j ∧
        (s.routers 0).selects.entries[m]? = some ⟨.drivers j, .schdle, some ⟨0, 2⟩⟩) ∧
    ∃! m, 2 ≤ m ∧ m < (s.routers 0).selects.totalSelectCount ∧
      ((s.routers 0).selects.entries[m]?).map Select.driver = some (.drivers 1) := by
  obtain ⟨log, s, hr, hp⟩ := Lts.Run.exists_of_exec (stress twoRouters)
    (unroll [(1, .schedule 1 2), (1, .continue 1), (1, .handle 0), (5, .continue 0),
      (1, .schedule 0 2), (4, .continue 0)])
    (fun q => decide ((q.2.routers 0).pc = .select ∧ (q.2.routers 0).buffer.currState = 2 ∧
      (q.2.routers 0).buffer.curr.epoch = 2 ∧ (q.2.routers 0).buffer.curr.dist 0 = 8 ∧
      (q.2.routers 0).buffer.prev.dist 0 = 9 ∧ (q.2.routers 0).selects.selectCount = 3))
    (by decide +kernel)
  obtain ⟨hpc, hslot, hepoch, hcurr, hprev, hcount⟩ := of_decide_eq_true hp
  obtain ⟨-, -, -, -, -, -, -, -, -, hentry, honce⟩ := loop_invariant (run_router hr 0) hpc
  rw [hslot] at hentry
  exact ⟨log, s, hr, hepoch, hcurr, hprev, hcount, hentry, honce 1 (by decide)⟩

end ConcurrencyLab
