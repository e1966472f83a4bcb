import ConcurrencyLab.Termination
import Mathlib.Tactic.Ring

/-!
# ConcurrencyLab.Liveness

No schedule keeps a call of `check_done` from returning.

While the routers still work off their vectors, `NULL`s and answers go round as
well, so the measure of `ConcurrencyLab.Termination` is completed: by what the main
thread still has to do in its call (`MainPc.todo`), by the threads that are still
there and the answers they owe (`RouterPc.pending`).  A probe pays for the router
that takes it; only the start of a call is paid for by nothing.

* `potential_lt` — every step of any thread lowers `State.potential`, but for
  `callSteps` at each start of a call;
* `call_returns` — so the length of an execution is bounded by the calls that begin
  in it, and where only a new call could begin, none is under way;
* `counters_fit` — no epoch outgrows its `size_t`.
-/

namespace ConcurrencyLab

variable {n : Nat}

/-! ## the measure -/

/-- The start of a call of `check_done`. -/
def Event.isCall : Event n → Bool
  | .round .first => true
  | _ => false

/-- How many calls of `check_done` begin. -/
def calls (es : List (Event n)) : Nat := es.countP Event.isCall

theorem calls_append (es es' : List (Event n)) : calls (es ++ es') = calls es + calls es' :=
  List.countP_append

/-- A thread that is there, and the answer it owes. -/
def RouterPc.pending : RouterPc n → Nat
  | .reply _ => 4
  | .exited => 0
  | _ => 1

def Router.charge (r : Router n) : Nat := r.work + r.pc.pending

/-- Steps from the check of the results to the end of the run. -/
def resultSteps (n : Nat) : Nat := n * (n + 2) + (n + 1) + (n + 3)

/-- A probe stores a `NULL`, which costs as much as a vector. -/
def probeSteps (n : Nat) : Nat := jobWork n + 1

/-- Steps from the second round on. -/
def secondSteps (n : Nat) : Nat := n * probeSteps n + (2 * n + resultSteps n + 1) + 1

/-- Steps of a whole call, and from there to the end of the run. -/
def callSteps (n : Nat) : Nat := n * probeSteps n + (n + secondSteps n + 1) + 2

/-- What the main thread still has to do in this call, or after it. -/
def MainPc.todo : MainPc n → Nat
  | .between | .joined => 0
  | .probe .first k => (n - k) * probeSteps n + (n + secondSteps n + 1) + 1
  | .collect .first k => n - k + secondSteps n + 1
  | .probe .second k => (n - k) * probeSteps n + (2 * n + resultSteps n + 1) + 1
  | .collect .second k => 2 * (n - k) + resultSteps n + 1
  | .compare k _ => 2 * (n - (k + 1)) + resultSteps n + 2
  | .results src dst => (n - src) * (n + 2) + (n + 1 - dst) + (n + 3)
  | .close => n + 2
  | .join i => n - i + 1

/-- The work of the routers and what they owe. -/
def State.charge (s : State n) : Nat := s.work + ∑ i, (s.routers i).pc.pending

/-- The stored answers, the main thread, and an assertion that may fail. -/
def State.dues (s : State n) : Nat :=
  s.completedQueue.length + s.main.pc.todo + s.fault.elim 1 fun _ => 0

/-- Steps that are left before another call begins. -/
def State.potential (s : State n) : Nat := s.charge + s.dues

/-- A call costs no more than this, whatever is being computed. -/
theorem callSteps_eq (n : Nat) : callSteps n = 3 * n ^ 2 + 17 * n + 9 := by
  simp only [callSteps, secondSteps, probeSteps, resultSteps, jobWork]
  ring

/-! ## what a step of a router costs -/

section Steps

variable {C : Config n} {log : List (Event n)} {s s' : State n} {es : List (Event n)}

theorem State.charge_setRouter (s : State n) (i : Fin n) (r : Router n) :
    (s.setRouter i r).charge + (s.routers i).charge = s.charge + r.charge := by
  have hwork := s.work_setRouter i r
  have hsum := sum_add_eq_of_eq_off (f := fun x => (s.routers x).pc.pending)
    (g := fun x => ((s.setRouter i r).routers x).pc.pending) i fun x hx => by simp [hx]
  simp only [State.routers_setRouter, if_true] at hsum
  simp only [charge, Router.charge, State.routers_setRouter]
  omega

theorem State.charge_setQueue (s : State n) (i : Fin n) (q : List (Job n)) :
    (s.setQueue i q).charge + jobWork n * (s.queues i).length =
      s.charge + jobWork n * q.length := by
  have hwork := s.work_setQueue i q
  simp only [charge, State.routers_setQueue]
  omega

/-- A job taken up costs less than a stored one. -/
theorem Router.charge_handled (r : Router n) (i : Fin n) (job : Job n) (hpc : r.pc = .select) :
    (r.handled i job).charge ≤ r.charge + (n + 3) := by
  have hwork := r.work_handled i job hpc
  have hold : r.pc.pending = 1 := by rw [hpc]; rfl
  cases job with
  | some p =>
      have hpending : (r.handled i (some p)).pc.pending = 1 := rfl
      simp only [charge, hpending, hold]
      omega
  | none =>
      have hsame : (r.handled i none).work = r.work := by
        simp [work, handled, hpc, RouterPc.work, SelectList.storeJob]
      have hpending : (r.handled i none).pc.pending = 4 := rfl
      simp only [charge, hpending, hold, hsame]
      omega

theorem Router.Inv.charge_sent {T : Topology n} {i j : Fin n} {r : Router n} (h : r.Inv T i)
    (hpc : r.pc = .select) {m : Nat} {job : Job n} (hm : m < r.selects.selectCount)
    (he : r.selects.entries[m]? = some ⟨.drivers j, .schdle, job⟩) :
    (r.sent m).charge + (n + 5) = r.charge := by
  have hwork := h.work_sent hpc hm he
  have hold : r.pc.pending = 1 := by rw [hpc]; rfl
  have hpending : (r.sent m).pc.pending = 1 := rfl
  simp only [charge, hpending, hold]
  omega

/-- An answer that has been given is owed no more; the test of line 201 is left. -/
theorem Router.charge_replied (r : Router n) {job : Job n} (hpc : r.pc = .reply job) :
    (r.goto .check).charge + 2 = r.charge := by
  simp only [charge, work, goto, hpc, RouterPc.work, RouterPc.pending]

/-- Between two driver calls a router works something off, or leaves. -/
theorem LocalStep.charge_lt {i : Fin n} {r : Router n} (hinv : (s.routers i).Inv C.topology i)
    (h : LocalStep C s i es r) : r.charge < (s.routers i).charge := by
  -- whether `done_driver` is closed matters only to a router that leaves
  have hopen : LocalStep C { s with doneClosed := false } i es r →
      r.pc.pending = (s.routers i).pc.pending → r.charge < (s.routers i).charge := by
    intro h hpending
    have hwork : r.work < (s.routers i).work :=
      LocalStep.work_lt (s := { s with doneClosed := false }) hinv h rfl
    simp only [Router.charge, hpending]
    omega
  cases h with
  | received hpc hlink => exact hopen (.received hpc hlink) (by rw [hpc]; rfl)
  | relaxed hpc =>
      refine hopen (.relaxed hpc) ?_
      unfold Router.relaxed
      split <;> rw [hpc] <;> rfl
  | relaxDone hpc hk => exact hopen (.relaxDone hpc hk) (by rw [hpc]; rfl)
  | rotated hpc hreset => exact hopen (.rotated hpc hreset) (by rw [hpc]; rfl)
  | skipped hpc hreset => exact hopen (.skipped hpc hreset) (by rw [hpc]; rfl)
  | copied hpc => exact hopen (.copied hpc) (by rw [hpc]; rfl)
  | reset hpc hk => exact hopen (.reset hpc hk) (by rw [hpc]; rfl)
  | left hpc =>
      simp only [Router.charge, Router.work, Router.goto, hpc, RouterPc.work, RouterPc.pending]
      omega

/-! ## what a step of the main thread costs -/

/-- An answer that has been taken is one less to take. -/
theorem Main.todo_collected (m : Main n) {round : Round} {k : Nat} (hpc : m.pc = .collect round k)
    (hk : k < n) (job : Job n) (src : StatePtr n → Fin n) :
    (m.collected round k job src).pc.todo < m.pc.todo := by
  rw [hpc]
  cases round <;> cases job <;> simp only [Main.collected, MainPc.todo] <;> omega

/-- One round of a loop is paid for. -/
theorem sub_mul_eq_add {k : Nat} (hk : k < n) (c : Nat) :
    (n - k) * c = (n - (k + 1)) * c + c := by
  rw [← Nat.succ_mul]
  congr 1
  omega

/-- A probe that has been sent has paid for the router that takes it. -/
theorem MainPc.todo_probe (round : Round) (k : Fin n) :
    (MainPc.probe (n := n) round (k.val + 1)).todo + probeSteps n =
      (MainPc.probe (n := n) round k.val).todo := by
  have hk := k.isLt
  have hrest := sub_mul_eq_add hk (probeSteps n)
  cases round <;> simp only [todo] <;> omega

theorem MainStep.todo_lt {m : Main n} {closed : Bool} (h : MainStep C s es m closed) :
    m.pc.todo < s.main.pc.todo + callSteps n * calls es := by
  cases h with
  | call hpc =>
      have hone : calls [Event.round (n := n) .first] = 1 := rfl
      rw [hone, hpc]
      simp only [Main.call, MainPc.todo, callSteps, Nat.sub_zero]
      omega
  | @probeDone round k hpc hk =>
      have hnone : (n - k) * probeSteps n = 0 := by rw [Nat.sub_eq_zero_of_le hk, Nat.zero_mul]
      rw [hpc]
      cases round <;> simp only [Main.goto, MainPc.todo, hnone] <;> omega
  | firstValid hpc =>
      rw [hpc]
      simp only [Main.goto, MainPc.todo, secondSteps, Nat.sub_zero]
      omega
  | secondValid hpc =>
      rw [hpc]
      simp only [Main.goto, MainPc.todo, resultSteps, Nat.sub_zero]
      omega
  | @invalid round k hpc =>
      rw [hpc]
      cases round <;> simp only [Main.goto, MainPc.todo] <;> omega
  | compared hpc =>
      rw [hpc]
      simp only [Main.compared, MainPc.todo]
      omega
  | @resultOk src dst p hpc =>
      have hdst := dst.isLt
      rw [hpc]
      simp only [Main.goto, MainPc.todo]
      omega
  | @resultRow src dst hpc hdst =>
      have hsrc := src.isLt
      have hrow := sub_mul_eq_add hsrc (n + 2)
      rw [hpc]
      simp only [Main.goto, MainPc.todo, hrow]
      omega
  | resultsDone hpc hsrc =>
      rw [hpc]
      simp only [Main.goto, MainPc.todo]
      omega
  | close hpc =>
      rw [hpc]
      simp only [Main.goto, MainPc.todo]
      omega
  | @joinOne i hpc hexit =>
      have hi := i.isLt
      rw [hpc]
      simp only [Main.goto, MainPc.todo]
      omega
  | joinDone hpc hi =>
      rw [hpc]
      simp only [Main.goto, MainPc.todo]
      omega

/-! ## every step costs something -/

/-- Only the main thread between two calls begins one. -/
theorem Trans.calls_eq_zero (h : Trans C s es s') (hmain : s.main.pc ≠ .between) :
    calls es = 0 := by
  cases h with
  | main hm =>
      cases hm with
      | call hpc => exact absurd hpc hmain
      | probeDone | firstValid | secondValid | invalid | compared | resultOk | resultRow
      | resultsDone | close | joinOne | joinDone => rfl
  | router hl => cases hl <;> rfl
  | handle | schedule | meet | reply | replyMeet | probe | probeMeet | collect | abort => rfl

/-- **Every step lowers the potential**, but for the start of a call. -/
theorem potential_lt (hr : (stress C).Run log s) {a : Action n}
    (hs : step C s a = some (es, s')) : s'.potential < s.potential + callSteps n * calls es := by
  obtain ⟨hf, ht⟩ := trans_of_step hs
  have hinv := run_routerInv hr
  have hjob : jobWork n = n + 4 := rfl
  have hprobe : probeSteps n = n + 5 := rfl
  cases ht with
  | @handle i job rest hpc hq =>
      have h₁ := s.charge_setQueue i rest
      have h₂ := (s.setQueue i rest).charge_setRouter i ((s.routers i).handled i job)
      have h₃ := (s.routers i).charge_handled i job hpc
      rw [hq, List.length_cons, Nat.mul_succ] at h₁
      rw [State.routers_setQueue] at h₂
      show State.charge _ + s.dues < s.charge + s.dues + _
      omega
  | @schedule i j m job hpc hm he hroom =>
      have h₁ := s.charge_setQueue j (s.queues j ++ [job])
      have h₂ := (s.setQueue j (s.queues j ++ [job])).charge_setRouter i ((s.routers i).sent m)
      have h₃ := (hinv i).charge_sent hpc hm he
      rw [List.length_append, List.length_singleton, Nat.mul_succ] at h₁
      rw [State.routers_setQueue] at h₂
      show State.charge _ + s.dues < s.charge + s.dues + _
      omega
  | @meet i j m job hpc hm he hbuf hne hpcj =>
      have h₁ := s.charge_setRouter i ((s.routers i).sent m)
      have h₂ := (s.setRouter i ((s.routers i).sent m)).charge_setRouter j
        ((s.routers j).handled j job)
      have h₃ := (hinv i).charge_sent hpc hm he
      have h₄ := (s.routers j).charge_handled j job hpcj
      rw [State.routers_setRouter, if_neg hne] at h₂
      show State.charge _ + s.dues < s.charge + s.dues + _
      omega
  | @router i es r hl =>
      have h₁ := s.charge_setRouter i r
      have h₂ := hl.charge_lt (hinv i)
      show State.charge _ + s.dues < s.charge + s.dues + _
      omega
  | @reply i job hpc hroom =>
      have h₁ := s.charge_setRouter i ((s.routers i).goto .check)
      have h₂ := (s.routers i).charge_replied hpc
      show (s.setRouter i ((s.routers i).goto .check)).charge + State.dues _ < _
      simp only [State.potential, State.dues, State.setRouter, List.length_append,
        List.length_singleton] at h₁ ⊢
      omega
  | @replyMeet i job round k hpc hbuf hmain hk =>
      have h₁ := s.charge_setRouter i ((s.routers i).goto .check)
      have h₂ := (s.routers i).charge_replied hpc
      have h₃ := s.main.todo_collected hmain hk job fun p => (s.load p).src
      show (s.setRouter i ((s.routers i).goto .check)).charge + State.dues _ < _
      simp only [State.potential, State.dues, State.setRouter, State.setMain] at h₁ ⊢
      omega
  | @probe round k hmain hroom =>
      have h₁ := s.charge_setQueue k (s.queues k ++ [none])
      have h₂ := MainPc.todo_probe round k
      rw [List.length_append, List.length_singleton, Nat.mul_succ] at h₁
      show (s.setQueue k (s.queues k ++ [none])).charge + State.dues _ < _
      simp only [State.potential, State.dues, State.setQueue, State.setMain, Main.goto, hmain]
        at h₁ ⊢
      omega
  | @probeMeet round k hmain hbuf hpc =>
      have h₁ := s.charge_setRouter k ((s.routers k).handled k none)
      have h₂ := MainPc.todo_probe round k
      have h₃ := (s.routers k).charge_handled k none hpc
      show (s.setRouter k ((s.routers k).handled k none)).charge + State.dues _ < _
      simp only [State.potential, State.dues, State.setRouter, State.setMain, Main.goto, hmain]
        at h₁ ⊢
      omega
  | @collect round k job rest hmain hk hq =>
      have h₁ := s.main.todo_collected hmain hk job fun p => (s.load p).src
      show s.charge + State.dues _ < _
      simp only [State.potential, State.dues, State.setMain, hq, List.length_cons]
      omega
  | @main es m closed hm =>
      have h₁ := hm.todo_lt
      show s.charge + State.dues _ < _
      simp only [State.potential, State.dues, State.setMain]
      omega
  | @abort f hfault =>
      show s.charge + State.dues _ < _
      simp only [State.potential, State.dues, State.abort, hf, Option.elim]
      omega

/-- What the routers have to work off when the run begins. -/
theorem potential_init (C : Config n) : (State.init C).potential =
    ∑ i, (epochWork n * ∑ k, C.topology.link i k +
      entryWork n * (C.topology.neighbors i).length) + n + 1 := by
  have hwork : (State.init C).work = ∑ i, (epochWork n * ∑ k, C.topology.link i k +
      entryWork n * (C.topology.neighbors i).length) := by
    simp [State.work, State.init, Router.init, Router.work, RouterPc.work, TripleBuffer.init,
      TripleBuffer.curr, SelectList.init]
  have hpending : ∑ i, ((State.init C).routers i).pc.pending = n := by
    simp [State.init, Router.init, RouterPc.pending]
  rw [State.potential, State.charge, hwork, hpending]
  rfl

/-- An execution is no longer than the potential allows. -/
theorem exec_length_le_potential (hr : (stress C).Run log s) {as : List (Action n)}
    (he : (stress C).exec s as = some (es, s')) :
    as.length + s'.potential ≤ s.potential + callSteps n * calls es :=
  (stress C).exec_length_le_of_cost (P := fun s => ∃ log, (stress C).Run log s) State.potential
    (fun es => callSteps n * calls es) (fun es es' => by rw [calls_append, Nat.mul_add])
    (fun ⟨_, hr⟩ hs => ⟨⟨_, hr.step hs⟩, potential_lt hr hs⟩) he ⟨log, hr⟩

/-- In the middle of a call, or when `done_driver` is closed, some thread can go on
without a new call. -/
theorem exists_step (hr : (stress C).Run log s) (hf : s.fault = none)
    (hbetween : s.main.pc ≠ .between) (hjoined : s.main.pc ≠ .joined) :
    ∃ a es s', step C s a = some (es, s') ∧ calls es = 0 := by
  have henabled : (stress C).Enabled s := by
    cases hpc : s.main.pc with
    | probe round k => exact enabled_of_probe hr hf hpc
    | collect round k => exact enabled_of_collect hr hf hpc
    | join i => exact enabled_of_join hr hf hpc
    | between => exact absurd hpc hbetween
    | joined => exact absurd hpc hjoined
    | compare | results | close =>
        exact enabled_of_isSome
          (main_isSome_of_local hf (by simp [hpc]) (by simp [hpc]) (by simp [hpc]) hjoined)
  obtain ⟨a, hsome⟩ := henabled
  obtain ⟨⟨es, s'⟩, hs⟩ := Option.isSome_iff_exists.mp hsome
  exact ⟨a, es, s', hs, (trans_of_step hs).2.calls_eq_zero hbetween⟩

end Steps

/-- **Every call of `check_done` returns**, whatever the links and the schedule: an
execution from a reachable state is no longer than the potential there and
`3 * n ^ 2 + 17 * n + 9` steps for every call that begins in it; and where no thread
can go on without a new call, an assertion has failed, all routers have been joined, or
the main thread is between two calls: the last one has returned `false`, or there has
been none. -/
theorem call_returns {C : Config n} {log : List (Event n)} {s : State n}
    (h : (stress C).Run log s) :
    (∀ as es s', (stress C).exec s as = some (es, s') →
      as.length ≤ s.potential + (3 * n ^ 2 + 17 * n + 9) * calls es) ∧
    ((∀ a es s', step C s a = some (es, s') → calls es ≠ 0) →
      s.fault ≠ none ∨ s.main.pc = .between ∨ s.main.pc = .joined) := by
  constructor
  · intro as es s' he
    rw [← callSteps_eq]
    exact Nat.le_trans (Nat.le_add_right _ _) (exec_length_le_potential h he)
  · intro hstuck
    by_contra hne
    simp only [not_or, not_not] at hne
    obtain ⟨hf, hbetween, hjoined⟩ := hne
    obtain ⟨a, es, s', hs, hnone⟩ := exists_step h hf hbetween hjoined
    exact hstuck a es s' hs hnone

/-- A call begins while vectors are still under way. -/
theorem call_returns_twoRouters : ∃ log s, (stress twoRouters).Run log s ∧
    s.main.pc = .probe .first 0 ∧ (s.routers 0).driverged = true ∧
    ∀ as es s', (stress twoRouters).exec s as = some (es, s') → calls es = 0 →
      as.length ≤ s.potential := by
  obtain ⟨log, s, hr, hp⟩ := Lts.Run.exists_of_exec (stress twoRouters)
    (unroll [(1, .schedule 1 2), (1, .continue 1), (1, .handle 0), (4, .continue 0), (1, .main)])
    (fun q => decide (q.2.main.pc = .probe .first 0 ∧ (q.2.routers 0).driverged = true))
    (by decide +kernel)
  obtain ⟨hpc, hdiv⟩ := of_decide_eq_true hp
  refine ⟨log, s, hr, hpc, hdiv, fun as es s' he hnone => ?_⟩
  have hle := (call_returns hr).1 as es s' he
  rwa [hnone, Nat.mul_zero, Nat.add_zero] at hle

/-! ## counters -/

/-- The epochs of a router are bounded by its links. -/
theorem run_load_epoch_le {C : Config n} {log : List (Event n)} {s : State n}
    (h : (stress C).Run log s) (p : StatePtr n) :
    (s.load p).epoch ≤ 2 + ∑ k, C.topology.link p.owner k := by
  have hbuffer := (run_routerInv h p.owner).buffer
  have hcurr : (s.routers p.owner).buffer.curr.epoch ≤ 1 + ∑ k, C.topology.link p.owner k :=
    Nat.le_trans (run_epoch_le h p.owner)
      (Nat.add_le_add_left (Finset.sum_le_sum fun k _ => Nat.sub_le _ _) 1)
  have hnext := hbuffer.epoch_next
  have hprev := hbuffer.epoch_prev
  have hload : s.load p = (s.routers p.owner).buffer.states p.slot := rfl
  rcases hbuffer.slot_cases p.slot with hslot | hslot | hslot
  all_goals
    rw [hload, hslot]
    simp only [TripleBuffer.curr, TripleBuffer.next, TripleBuffer.prev] at hcurr hnext hprev
    omega

/-- **No `size_t` wraps.**  Where the block of the topology has an address for each
entry, in every reachable state the epochs, as the model counts them, are below
`2 ^ 64`, and so is the size of each select list in bytes. -/
theorem counters_fit {C : Config n} {log : List (Event n)} {s : State n}
    (hsize : 4 * n ^ 2 < 2 ^ 64) (h : (stress C).Run log s) :
    (∀ p, (s.load p).epoch < 2 ^ 64) ∧
    ∀ i, (s.routers i).selects.selectCount ≤ (s.routers i).selects.totalSelectCount ∧
      24 * (s.routers i).selects.totalSelectCount < 2 ^ 64 := by
  have hn : n < 2 ^ 31 := by
    by_contra hle
    have hsq := Nat.pow_le_pow_left (Nat.not_lt.mp hle) 2
    omega
  refine ⟨fun p => ?_, fun i => ?_⟩
  · have hlinks : ∑ k, C.topology.link p.owner k ≤ n * infDistance :=
      le_trans (Finset.sum_le_card_nsmul _ _ _ fun k _ => C.topology.link_le p.owner k) (by simp)
    have hmul : n * infDistance ≤ 2 ^ 31 * infDistance := Nat.mul_le_mul_right _ hn.le
    have hle := run_load_epoch_le h p
    simp only [infDistance] at hlinks hmul
    omega
  · have hselects := (run_routerInv h i).selects
    have hneighbors : (C.topology.neighbors i).length ≤ n :=
      (List.length_filter_le _ _).trans (List.length_finRange ..).le
    have htotal := hselects.total
    exact ⟨hselects.le_total, by omega⟩

/-- Router 0 has broadcast its second epoch. -/
theorem counters_fit_twoRouters : ∃ log s, (stress twoRouters).Run log s ∧
    (s.routers 0).buffer.curr.epoch = 2 ∧ ∀ p, (s.load p).epoch < 2 ^ 64 := by
  obtain ⟨log, s, hr, hp⟩ := Lts.Run.exists_of_exec (stress twoRouters) (unroll twoRoutersSettle)
    (fun q => decide ((q.2.routers 0).buffer.curr.epoch = 2)) (by decide +kernel)
  exact ⟨log, s, hr, of_decide_eq_true hp, (counters_fit (by decide) hr).1⟩

end ConcurrencyLab
