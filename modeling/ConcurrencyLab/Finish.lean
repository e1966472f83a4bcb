import ConcurrencyLab.Liveness
import ConcurrencyLab.QuietCall
import ConcurrencyLab.Shutdown

/-!
# ConcurrencyLab.Finish

How `run_stress` ends.

`State.Finished` is the state after line 329 as the program means it: every thread
joined, nothing left in a driver, no assertion failed, and the table of every router
the one of `floyd_warshall`.

* `stops_iff_finished` — where the addresses of `ConcurrencyLab.Acceptance` tell
  epochs, the run stops there and nowhere else;
* `patient_run_finishes` — when `usleep` is long enough, that is when every call of
  `check_done` finds the routers at rest, every schedule gets there, by the first
  call and in a number of steps that the links bound;
* `can_finish` — and between two calls it is never too late for that; with
  `buffer_size = 0` it is not in the middle of one either.
-/

namespace ConcurrencyLab

variable {n : Nat}

/-- `run_stress` has come to its end. -/
structure State.Finished (C : Config n) (s : State n) : Prop where
  joined : s.main.pc = .joined
  exited : ∀ i, (s.routers i).pc = .exited
  queues : ∀ i, s.queues i = []
  completedQueue : s.completedQueue = []
  fault : s.fault = none
  dist : ∀ i k, (s.routers i).buffer.curr.dist k = C.topology.floydWarshall i k

/-! ## joined threads -/

/-- The threads that have been joined are the first ones. -/
def MainPc.joinedThreads : MainPc n → Nat
  | .join i => i
  | .joined => n
  | _ => 0

section Steps

variable {C : Config n} {log : List (Event n)} {s s' : State n} {es : List (Event n)}

/-- A thread that has left does not come back. -/
theorem Trans.exited_stays (h : Trans C s es s') {i : Fin n} (hpc : (s.routers i).pc = .exited) :
    (s'.routers i).pc = .exited := by
  rcases h.router_cases i with heq | hstep
  · rw [heq]; exact hpc
  · generalize s'.routers i = r at hstep
    cases hstep with
    | handled job hpc' | sent hpc' | replied hpc' | received hpc' | relaxed hpc' | relaxDone hpc'
    | rotated hpc' | skipped hpc' | copied hpc' | reset hpc' | left hpc' =>
        rw [hpc] at hpc'; cases hpc'

theorem run_joined (h : (stress C).Run log s) {i : Fin n} (hi : i.val < s.main.pc.joinedThreads) :
    (s.routers i).pc = .exited := by
  refine run_invariant (P := fun _ s => ∀ i : Fin n, i.val < s.main.pc.joinedThreads →
    (s.routers i).pc = .exited) (fun i hi => absurd hi (Nat.not_lt_zero _)) ?_ h i hi
  intro log s es s' _ hp ht i hi
  by_cases hold : i.val < s.main.pc.joinedThreads
  · exact ht.exited_stays (hp i hold)
  · have hnone : ¬ i.val < 0 := Nat.not_lt_zero _
    cases ht with
    | handle | schedule | meet | router | reply | abort => exact absurd hi hold
    | @replyMeet a job round k => cases round <;> cases job <;> exact absurd hi hnone
    | @collect round k job => cases round <;> cases job <;> exact absurd hi hnone
    | probe | probeMeet => exact absurd hi hnone
    | main hm =>
        cases hm with
        | @joinOne j hpc hexit =>
            -- the thread just joined
            have hlt : i.val < j.val + 1 := hi
            rw [hpc] at hold
            have hge : ¬ i.val < j.val := hold
            have hij : i = j := Fin.ext (by omega)
            rw [hij]
            exact hexit
        | joinDone hpc hj =>
            rw [hpc] at hold
            exact absurd (Nat.lt_of_lt_of_le i.isLt hj) hold
        | call | probeDone | firstValid | secondValid | invalid | compared | resultOk | resultRow
        | resultsDone | close => exact absurd hi hnone

/-! ## the end -/

/-- A quiet run whose threads are joined has finished. -/
theorem Closing.finished (h : Closing C s) (hT : C.topology.TwoWay)
    (hjoined : s.main.pc = .joined) : s.Finished C := by
  obtain ⟨log, hr⟩ := h.run
  constructor
  case joined => exact hjoined
  case exited => exact fun i => run_joined hr (by rw [hjoined]; exact i.isLt)
  case queues => exact h.queue_nil
  case completedQueue => exact ((run_probeInv hr).idle h.not_probing).1
  case fault => exact h.fault_eq_none
  case dist =>
    intro i k
    rw [C.topology.floydWarshall_eq_least]
    exact h.quiescent.dist_eq_least hT hr i k

/-- Nothing happens any more. -/
theorem State.Finished.not_enabled (h : s.Finished C) : ¬ (stress C).Enabled s := by
  rintro ⟨a, hsome⟩
  obtain ⟨⟨es, s'⟩, hs⟩ := Option.isSome_iff_exists.mp hsome
  have hbusy : ∀ {i pc}, (s.routers i).pc = pc → pc = .exited := by
    rintro i pc rfl
    exact h.exited i
  have hmain : ∀ {pc}, s.main.pc = pc → pc = .joined := by
    rintro pc rfl
    exact h.joined
  cases (trans_of_step hs).2 with
  | handle hpc | schedule hpc | meet hpc | reply hpc | replyMeet hpc => cases hbusy hpc
  | router hl =>
      cases hl with
      | received hpc | relaxed hpc | relaxDone hpc | rotated hpc | skipped hpc | copied hpc
      | reset hpc | left hpc => cases hbusy hpc
  | probe hpc | probeMeet hpc | collect hpc => cases hmain hpc
  | main hm =>
      cases hm with
      | call hpc | probeDone hpc | firstValid hpc | secondValid hpc | invalid hpc | compared hpc
      | resultOk hpc | resultRow hpc | resultsDone hpc | close hpc | joinOne hpc | joinDone hpc =>
          cases hmain hpc
  | abort hfault =>
      cases hfault with
      | neighborDist hpc | driverged hpc => cases hbusy hpc
      | result hpc | unwrittenCompare hpc | unwrittenResult hpc => cases hmain hpc

/-- With the threads joined, an accepted call has closed `done_driver`. -/
theorem finished_of_joined (hT : C.topology.TwoWay) (hr : (stress C).Run log s)
    (hq : s.Quiescent) (hjoined : s.main.pc = .joined) : s.Finished C := by
  have hclosed : s.doneClosed = true := by rw [(run_closeInv hr).closed, hjoined]; rfl
  exact (Closing.mk ⟨log, hr⟩ hq hclosed).finished hT hjoined

/-- A run that is stuck is neither between two calls nor in one. -/
theorem finished_of_stuck (hT : C.topology.TwoWay)
    (h : (stress C).RunWhere (AddressTellsEpoch C) log s) (hstuck : ¬ (stress C).Enabled s) :
    s.Finished C := by
  have hf := run_fault_eq_none hT h
  have hbetween : s.main.pc ≠ .between := by
    intro hpc
    exact hstuck (enabled_of_isSome
      (main_isSome_of_local hf (by simp [hpc]) (by simp [hpc]) (by simp [hpc]) (by simp [hpc])))
  have hjoined : s.main.pc = .joined := by
    by_contra hne
    obtain ⟨a, es, s', hs, -⟩ := exists_step h.run hf hbetween hne
    exact hstuck ⟨a, Option.isSome_iff_exists.mpr ⟨_, hs⟩⟩
  exact finished_of_joined hT h.run (run_finalAnswers h (by rw [hjoined]; rfl)).1 hjoined

end Steps

/-- **The run stops nowhere but at its proper end.**  In a run in which no router has
answered with the same vector in both rounds of a call from different epochs, no
thread can take a step exactly when all threads are joined, the drivers are empty, no
assertion has failed and every router holds the distances of `floyd_warshall`. -/
theorem stops_iff_finished {C : Config n} {log : List (Event n)} {s : State n}
    (hT : C.topology.TwoWay) (h : (stress C).RunWhere (AddressTellsEpoch C) log s) :
    ¬ (stress C).Enabled s ↔ s.Finished C :=
  ⟨finished_of_stuck hT h, State.Finished.not_enabled⟩

/-- The two routers after a call, when everything has been joined. -/
theorem stops_iff_finished_twoRouters : ∃ log s,
    (stress twoRouters).RunWhere (AddressTellsEpoch twoRouters) log s ∧
    ¬ (stress twoRouters).Enabled s ∧ s.Finished twoRouters := by
  obtain ⟨log, s, hr, hp⟩ := Lts.RunWhere.exists_of_exec (stress twoRouters)
    (AddressTellsEpoch twoRouters)
    (unroll (twoRoutersSettle ++ twoRoutersCall ++
      [(8, .main), (1, .closed 0), (1, .closed 1), (3, .main)]))
    (fun q => decide (q.2.main.pc = .joined)) (by decide +kernel)
  have hjoined : s.main.pc = .joined := of_decide_eq_true hp
  have hq := (run_finalAnswers hr (by rw [hjoined]; rfl)).1
  have hfinished := finished_of_joined (by decide) hr.run hq hjoined
  exact ⟨log, s, hr, (stops_iff_finished (by decide) hr).mpr hfinished, hfinished⟩

/-! ## calls that find the routers at rest -/

/-- No router can move. -/
def State.AtRest (C : Config n) (s : State n) : Prop := ∀ a, a ≠ .main → step C s a = none

section Rest

variable {C : Config n} {log : List (Event n)} {s s' : State n} {es : List (Event n)}

/-- An index beyond the offered entries selects nothing. -/
theorem schedule_eq_none_of_le {i : Fin n} {m : Nat} (hm : (s.routers i).selects.selectCount ≤ m) :
    step C s (.schedule i m) = none := by
  unfold step
  split
  · rfl
  · simp only [stepSchedule]
    rw [if_neg fun hsel => Nat.not_lt.mpr hm hsel.2]

theorem atRest_iff : s.AtRest C ↔ ∀ i, step C s (.handle i) = none ∧ step C s (.closed i) = none ∧
    step C s (.continue i) = none ∧ step C s (.reply i) = none ∧
    ∀ m, m < (s.routers i).selects.selectCount → step C s (.schedule i m) = none := by
  constructor
  · exact fun h i => ⟨h _ (by simp), h _ (by simp), h _ (by simp), h _ (by simp),
      fun m _ => h _ (by simp)⟩
  · intro h a ha
    cases a with
    | handle i => exact (h i).1
    | closed i => exact (h i).2.1
    | «continue» i => exact (h i).2.2.1
    | reply i => exact (h i).2.2.2.1
    | schedule i m =>
        by_cases hm : m < (s.routers i).selects.selectCount
        · exact (h i).2.2.2.2 m hm
        · exact schedule_eq_none_of_le (by omega)
    | main => exact absurd rfl ha

instance (C : Config n) (s : State n) : Decidable (s.AtRest C) := decidable_of_iff _ atRest_iff.symm

/-- `usleep` is long enough: a call begins when no router can move. -/
def CallsAtRest (C : Config n) (_log : List (Event n)) (s : State n) (es : List (Event n)) : Prop :=
  calls es ≠ 0 → s.AtRest C

instance (C : Config n) (log : List (Event n)) (s : State n) (es : List (Event n)) :
    Decidable (CallsAtRest C log s es) := by
  unfold CallsAtRest; infer_instance

/-- Routers at rest between two calls wait in their selects. -/
theorem State.AtRest.select (h : s.AtRest C) (hf : s.fault = none) (hr : (stress C).Run log s)
    (hmain : s.main.pc = .between) (i : Fin n) : (s.routers i).pc = .select := by
  have hrun : (s.routers i).pc.running = false := by
    cases hrun : (s.routers i).pc.running with
    | false => rfl
    | true =>
        have hsome := continue_isSome (C := C) hf hrun
        rw [h _ (by simp)] at hsome
        cases hsome
  rcases RouterPc.cases_not_running hrun with hpc | ⟨job, hpc⟩ | hpc
  · exact hpc
  · have hidle := ((run_probeInv hr).idle (by rw [probeView_main, hmain]; rfl)).2 i
    rw [probeView_replying, hpc] at hidle
    cases hidle.2
  · have hclosed := (run_closeInv hr).exited i hpc
    rw [(run_closeInv hr).closed, hmain] at hclosed
    cases hclosed

/-- Nothing is stored for them. -/
theorem State.AtRest.queue_nil (h : s.AtRest C) (hf : s.fault = none) (hr : (stress C).Run log s)
    (hmain : s.main.pc = .between) (i : Fin n) : s.queues i = [] := by
  by_contra hq
  have hsome := handle_isSome (C := C) hf (h.select hf hr hmain i) hq
  rw [h _ (by simp)] at hsome
  cases hsome

theorem State.AtRest.quiescent (h : s.AtRest C) (hT : C.topology.TwoWay) (hr : (stress C).Run log s)
    (hmain : s.main.pc = .between) : s.Quiescent := by
  have hf := fault_eq_none_of_between hT hr hmain
  have hrest := resting hT hr hmain h
  refine State.quiescent_of_select fun i => ⟨h.queue_nil hf hr hmain i, h.select hf hr hmain i, ?_⟩
  exact ⟨(hrest i).1, (hrest i).2.1⟩

/-- The part of the potential that only a new epoch would use. -/
def State.unused (s : State n) : Nat := ∑ i, epochWork n * ∑ k, (s.routers i).buffer.curr.dist k

theorem State.unused_le_potential (s : State n) : s.unused ≤ s.potential := by
  have hwork : s.unused ≤ ∑ i, (s.routers i).work :=
    Finset.sum_le_sum fun i _ => by unfold Router.work; omega
  unfold State.potential State.charge State.work
  omega

/-- At rest there is nothing else but the threads themselves. -/
theorem State.AtRest.potential_eq (h : s.AtRest C) (hT : C.topology.TwoWay)
    (hr : (stress C).Run log s) (hmain : s.main.pc = .between) :
    s.potential = s.unused + n + 1 := by
  have hf := fault_eq_none_of_between hT hr hmain
  have hrest := resting hT hr hmain h
  have hwork : ∑ i, (s.routers i).work = s.unused :=
    Finset.sum_congr rfl fun i _ => by
      simp [Router.work, (hrest i).1, h.select hf hr hmain i, RouterPc.work]
  have hqueues : ∑ i, (s.queues i).length = 0 :=
    Finset.sum_eq_zero fun i _ => by rw [h.queue_nil hf hr hmain i]; rfl
  have hpending : ∑ i, (s.routers i).pc.pending = n := by
    simp [h.select hf hr hmain, RouterPc.pending]
  have hidle := ((run_probeInv hr).idle (by rw [probeView_main, hmain]; rfl)).1
  rw [probeView_answered] at hidle
  have hdues : s.dues = 1 := by
    simp [State.dues, hidle, hmain, MainPc.todo, hf]
  rw [State.potential, State.charge, State.work, hwork, hqueues, hpending, hdues]
  omega

/-- Only a step of the main thread begins a call. -/
theorem Trans.calls_eq_zero_of_main (h : Trans C s es s') (hmain : s'.main = s.main) :
    calls es = 0 := by
  by_cases hpc : s.main.pc = .between
  · cases h with
    | main hm =>
        cases hm with
        | call =>
            have hcall : s.main.call.pc = s.main.pc := congrArg Main.pc hmain
            rw [hpc] at hcall
            cases hcall
        | probeDone | firstValid | secondValid | invalid | compared | resultOk | resultRow
        | resultsDone | close | joinOne | joinDone => rfl
    | router hl => cases hl <;> rfl
    | handle | schedule | meet | reply | replyMeet | probe | probeMeet | collect | abort => rfl
  · exact h.calls_eq_zero hpc

/-- The start of a call is the main thread's step between two calls. -/
theorem step_main_of_between (hf : s.fault = none) (hmain : s.main.pc = .between) :
    step C s .main = some ([.round .first], s.setMain s.main.call) := by
  simp [step, hf, stepMain, hmain]

/-- Between two calls the next one may begin, or some router can move. -/
theorem exists_step_of_between (hf : s.fault = none) (hmain : s.main.pc = .between) :
    ∃ a es s', step C s a = some (es, s') ∧ (calls es ≠ 0 → s.AtRest C) := by
  by_cases hrest : s.AtRest C
  · exact ⟨.main, _, _, step_main_of_between hf hmain, fun _ => hrest⟩
  · obtain ⟨a, ha⟩ := not_forall.mp hrest
    obtain ⟨hne, hstep⟩ := Classical.not_imp.mp ha
    obtain ⟨⟨es, s'⟩, hs⟩ := Option.ne_none_iff_exists'.mp hstep
    exact ⟨a, es, s', hs, fun hcall =>
      absurd ((trans_of_step hs).2.calls_eq_zero_of_main (main_of_step hs hne hmain)) hcall⟩

/-- A call that begins at rest sees nothing but current vectors. -/
theorem State.Quiescent.call (hq : s.Quiescent) (hr : (stress C).Run log s)
    (hmain : s.main.pc = .between) : QuietCall (s.setMain s.main.call) := by
  have hidle := (run_probeInv hr).idle (by rw [probeView_main, hmain]; rfl)
  refine ⟨⟨hq.queues, hq.held, hq.selectCount, hq.driverged⟩, QuietMain.call s.main, ?_⟩
  intro job hjob
  rw [show (s.setMain s.main.call).completedQueue = [] from hidle.1] at hjob
  cases hjob

/-- A quiet call never ends in another one. -/
theorem QuietCall.finished_of_stuck (h : QuietCall s) (hT : C.topology.TwoWay)
    (hr : (stress C).Run log s) (hstuck : ¬ (stress C).Enabled s) : s.Finished C := by
  have hjoined : s.main.pc = .joined := by
    by_contra hne
    obtain ⟨a, es, s', hs, -⟩ := exists_step hr (h.fault_eq_none hT hr) h.main.running hne
    exact hstuck ⟨a, Option.isSome_iff_exists.mpr ⟨_, hs⟩⟩
  exact finished_of_joined hT hr h.quiescent hjoined

/-- Before the first call, or in it. -/
def Patient (log : List (Event n)) (s : State n) : Prop :=
  (calls log = 0 ∧ s.main.pc = .between) ∨ (calls log = 1 ∧ QuietCall s)

theorem run_patient (hT : C.topology.TwoWay) (h : (stress C).RunWhere (CallsAtRest C) log s) :
    Patient log s := by
  refine h.invariant (P := Patient) (.inl ⟨rfl, rfl⟩) fun {log s a es s'} hr hp hs hok => ?_
  obtain ⟨hf, ht⟩ := trans_of_step hs
  rw [Patient, calls_append]
  rcases hp with ⟨hcalls, hmain⟩ | ⟨hcalls, hcall⟩
  · by_cases ha : a = .main
    · subst ha
      have hfirst := step_main_of_between (C := C) hf hmain
      obtain ⟨rfl, rfl⟩ := Prod.mk.inj (Option.some.inj (hfirst.symm.trans hs))
      have hrest : s.AtRest C := hok (by rw [calls]; simp [Event.isCall])
      exact .inr ⟨by rw [hcalls]; rfl, (hrest.quiescent hT hr hmain).call hr hmain⟩
    · have hkeep := main_of_step hs ha hmain
      rw [hcalls, ht.calls_eq_zero_of_main hkeep, hkeep]
      exact .inl ⟨rfl, hmain⟩
  · rw [hcalls, ht.calls_eq_zero hcall.main.running]
    exact .inr ⟨rfl, hcall.step (run_routerInv hr) ht⟩

/-- In the quiet call and after it, some schedule leads to the end. -/
theorem QuietCall.exists_finish (h : QuietCall s) (hT : C.topology.TwoWay)
    (hr : (stress C).Run log s) :
    ∃ as es s', (stress C).exec s as = some (es, s') ∧ s'.Finished C := by
  obtain ⟨as, es, s', hexec, ⟨⟨log', hr'⟩, hcall⟩, hstuck⟩ := (stress C).exists_maximal
    (P := fun s => (∃ log, (stress C).Run log s) ∧ QuietCall s) (A := fun _ _ => True)
    State.potential (fun {s a es s'} _ hp hs => by
      obtain ⟨⟨log, hr⟩, hcall⟩ := hp
      have ht := (trans_of_step hs).2
      have hlt := potential_lt hr hs
      rw [ht.calls_eq_zero hcall.main.running, Nat.mul_zero, Nat.add_zero] at hlt
      exact ⟨⟨⟨_, hr.step hs⟩, hcall.step (run_routerInv hr) ht⟩, hlt⟩)
    ⟨⟨log, hr⟩, h⟩
  refine ⟨as, es, s', hexec, hcall.finished_of_stuck hT hr' ?_⟩
  rintro ⟨a, hsome⟩
  rw [hstuck a trivial] at hsome
  cases hsome

/-- A quiet call begins no other one. -/
theorem QuietCall.calls_eq_zero (h : QuietCall s) (hr : (stress C).Run log s)
    {as : List (Action n)} (he : (stress C).exec s as = some (es, s')) : calls es = 0 := by
  induction as generalizing log s es with
  | nil =>
      simp only [Lts.exec_nil, Option.some.injEq, Prod.mk.injEq] at he
      obtain ⟨rfl, rfl⟩ := he
      rfl
  | cons a as ih =>
      obtain ⟨es₁, s₁, es₂, hstep, hexec, rfl⟩ := (stress C).exec_cons_eq_some.mp he
      have ht := (trans_of_step hstep).2
      rw [calls_append, ht.calls_eq_zero h.main.running,
        ih (h.step (run_routerInv hr) ht) (hr.step hstep) hexec]

/-- Between two calls, the routers can come to rest, and then the next call is quiet. -/
theorem can_finish_of_between (hT : C.topology.TwoWay) (hr : (stress C).Run log s)
    (hmain : s.main.pc = .between) :
    ∃ as es s', (stress C).exec s as = some (es, s') ∧ s'.Finished C := by
  obtain ⟨as, es, s₁, hexec, ⟨⟨log₁, hr₁⟩, hmain₁⟩, hrest⟩ := (stress C).exists_maximal
    (P := fun s => (∃ log, (stress C).Run log s) ∧ s.main.pc = .between)
    (A := fun _ a => a ≠ .main) State.work (fun {s a es s'} ha hp hs => by
      obtain ⟨⟨log, hr⟩, hmain⟩ := hp
      refine ⟨⟨⟨_, hr.step hs⟩, ?_⟩, work_lt hT hr hmain hs ha⟩
      rw [main_of_step hs ha hmain]
      exact hmain)
    ⟨⟨log, hr⟩, hmain⟩
  have hq := State.AtRest.quiescent hrest hT hr₁ hmain₁
  have hfirst : (stress C).step s₁ .main = some ([.round .first], s₁.setMain s₁.main.call) :=
    step_main_of_between (fault_eq_none_of_between hT hr₁ hmain₁) hmain₁
  obtain ⟨bs, es', s', hexec', hfinished⟩ :=
    (hq.call hr₁ hmain₁).exists_finish hT (hr₁.step hfirst)
  exact ⟨_, _, s', (stress C).exec_append hexec
    ((stress C).exec_cons_eq_some.mpr ⟨_, _, _, hfirst, hexec', rfl⟩), hfinished⟩

/-- With nothing stored, a call that is going on can return first. -/
theorem can_finish_of_rendezvous (hT : C.topology.TwoWay) (hr : (stress C).Run log s)
    (hbuf : C.bufferSize = 0) :
    ∃ as es s', (stress C).exec s as = some (es, s') ∧ s'.Finished C := by
  obtain ⟨as, es, s₁, hexec, ⟨log₁, hr₁⟩, hstuck⟩ := (stress C).exists_maximal
    (P := fun s => ∃ log, (stress C).Run log s)
    (A := fun s a => s.main.pc ≠ .between) State.potential (fun {s a es s'} ha hp hs => by
      obtain ⟨log, hr⟩ := hp
      have hlt := potential_lt hr hs
      rw [(trans_of_step hs).2.calls_eq_zero ha, Nat.mul_zero, Nat.add_zero] at hlt
      exact ⟨⟨_, hr.step hs⟩, hlt⟩)
    ⟨log, hr⟩
  by_cases hmain₁ : s₁.main.pc = .between
  · obtain ⟨bs, es', s', hexec', hfinished⟩ := can_finish_of_between hT hr₁ hmain₁
    exact ⟨_, _, s', (stress C).exec_append hexec hexec', hfinished⟩
  · refine ⟨as, es, s₁, hexec, finished_of_stuck hT (.of_run (fun _ _ => .inl hbuf) hr₁) ?_⟩
    rintro ⟨a, hsome⟩
    have hnone : step C s₁ a = none := hstuck a hmain₁
    rw [show (stress C).step s₁ a = none from hnone] at hsome
    cases hsome

end Rest

/-- **One call at rest is the last one**, whatever the calls before it have seen.
From a reachable state between two calls in which no router can move, the run takes no
more than `3 * n ^ 2 + 18 * n + 10` steps under any schedule, no assertion fails in
them, and where it stops it has finished. -/
theorem call_at_rest_finishes {C : Config n} {log : List (Event n)} {s : State n}
    (hT : C.topology.TwoWay) (h : (stress C).Run log s) (hmain : s.main.pc = .between)
    (hrest : s.AtRest C) : ∀ as es s', (stress C).exec s as = some (es, s') →
      as.length ≤ 3 * n ^ 2 + 18 * n + 10 ∧ s'.fault = none ∧
      (¬ (stress C).Enabled s' → s'.Finished C) := by
  intro as es s' he
  have hf := fault_eq_none_of_between hT h hmain
  have hfirst : (stress C).step s .main = some ([.round .first], s.setMain s.main.call) :=
    step_main_of_between hf hmain
  cases as with
  | nil =>
      obtain ⟨rfl, rfl⟩ := Prod.mk.inj (Option.some.inj he)
      exact ⟨Nat.zero_le _, hf, fun hstuck =>
        absurd ⟨.main, Option.isSome_iff_exists.mpr ⟨_, hfirst⟩⟩ hstuck⟩
  | cons a as =>
      obtain ⟨es₁, s₁, es₂, hstep, hexec, rfl⟩ := (stress C).exec_cons_eq_some.mp he
      -- only the call can begin
      have ha : a = .main := by
        by_contra hne
        have hnone : step C s a = none := hrest a hne
        rw [show step C s a = some (es₁, s₁) from hstep] at hnone
        cases hnone
      subst ha
      obtain ⟨rfl, rfl⟩ := Prod.mk.inj (Option.some.inj (hfirst.symm.trans hstep))
      have hq := hrest.quiescent hT h hmain
      have hcall := hq.call h hmain
      have hr₁ := h.step hfirst
      obtain ⟨hend, -⟩ := hcall.exec hr₁ hexec
      have hnone := hcall.calls_eq_zero hr₁ hexec
      have hunused : s'.unused = s.unused := by
        obtain ⟨-, hbuf, -⟩ := hq.exec h he
        simp only [State.unused, hbuf]
      refine ⟨?_, hend.fault_eq_none hT (h.exec he), hend.finished_of_stuck hT (h.exec he)⟩
      have hle := exec_length_le_potential h he
      have hone : calls ([Event.round .first] ++ es₂) = 1 := by
        rw [calls_append, hnone]
        rfl
      have hlow := s'.unused_le_potential
      rw [hrest.potential_eq hT h hmain, hone, callSteps_eq] at hle
      omega

/-- The two routers are called too early, and then at rest. -/
theorem call_at_rest_finishes_twoRouters : ∃ log s, (stress twoRouters).Run log s ∧
    calls log = 1 ∧ s.main.pc = .between ∧ s.AtRest twoRouters ∧
    ∀ as es s', (stress twoRouters).exec s as = some (es, s') → as.length ≤ 58 ∧
      s'.fault = none ∧ (¬ (stress twoRouters).Enabled s' → s'.Finished twoRouters) := by
  obtain ⟨log, s, hr, hp⟩ := Lts.Run.exists_of_exec (stress twoRouters)
    (unroll ([(3, .main), (1, .handle 0), (1, .handle 1), (1, .main), (1, .reply 0), (1, .main),
      (1, .reply 1), (2, .main), (1, .continue 0), (1, .continue 1)] ++ twoRoutersSettle))
    (fun q => decide (calls q.1 = 1 ∧ q.2.main.pc = .between ∧ q.2.AtRest twoRouters))
    (by decide +kernel)
  obtain ⟨hcalls, hmain, hrest⟩ := of_decide_eq_true hp
  exact ⟨log, s, hr, hcalls, hmain, hrest, call_at_rest_finishes (by decide) hr hmain hrest⟩

/-- **A patient main thread ends the run**, with room for one job as well as without.
If `check_done` is called only when no router can move, then under every schedule
there is one call at most, no assertion fails, the number of steps is bounded by the
links, and where no step is possible that keeps to this, the run has finished. -/
theorem patient_run_finishes {C : Config n} {as : List (Action n)} {log : List (Event n)}
    {s : State n} (hT : C.topology.TwoWay)
    (h : (stress C).execWhere (CallsAtRest C) [] (State.init C) as = some (log, s)) :
    calls log ≤ 1 ∧ s.fault = none ∧
    as.length ≤ ∑ i, (epochWork n * ∑ k, C.topology.link i k +
      entryWork n * (C.topology.neighbors i).length) + 3 * n ^ 2 + 18 * n + 10 ∧
    ((∀ a es s', step C s a = some (es, s') → ¬ CallsAtRest C log s es) → s.Finished C) := by
  obtain ⟨hr, es, hexec, hlog⟩ := Lts.RunWhere.init.exec_checked h
  obtain rfl : log = es := by simpa using hlog
  have hpatient := run_patient hT hr
  have hcalls : calls log ≤ 1 := by
    rcases hpatient with ⟨hnone, -⟩ | ⟨hone, -⟩ <;> omega
  refine ⟨hcalls, ?_, ?_, fun hstuck => ?_⟩
  · rcases hpatient with ⟨-, hmain⟩ | ⟨-, hcall⟩
    · exact fault_eq_none_of_between hT hr.run hmain
    · exact hcall.fault_eq_none hT hr.run
  · have hle := exec_length_le_potential .init hexec
    have hcost := Nat.mul_le_mul_left (callSteps n) hcalls
    have hinit := potential_init C
    rw [callSteps_eq] at hle hcost
    have hpot : (stress C).init.potential = (State.init C).potential := rfl
    omega
  · rcases hpatient with ⟨-, hmain⟩ | ⟨-, hcall⟩
    · exfalso
      obtain ⟨a, es, s', hs, hok⟩ :=
        exists_step_of_between (fault_eq_none_of_between hT hr.run hmain) hmain
      exact hstuck a es s' hs hok
    · refine hcall.finished_of_stuck hT hr.run ?_
      rintro ⟨a, hsome⟩
      obtain ⟨⟨es', s'⟩, hs⟩ := Option.isSome_iff_exists.mp hsome
      exact hstuck a es' s' hs fun hc =>
        absurd ((trans_of_step hs).2.calls_eq_zero hcall.main.running) hc

/-- The two routers come to rest, are called once and joined. -/
theorem patient_run_finishes_twoRouters : ∃ as log s,
    (stress twoRouters).execWhere (CallsAtRest twoRouters) [] (State.init twoRouters) as =
      some (log, s) ∧ calls log = 1 ∧ s.Finished twoRouters := by
  have hrun : ((stress twoRouters).execWhere (CallsAtRest twoRouters) [] (State.init twoRouters)
      (unroll (twoRoutersSettle ++ twoRoutersCall ++
        [(8, .main), (1, .closed 0), (1, .closed 1), (3, .main)]))).any
      (fun q => decide (calls q.1 = 1 ∧ q.2.AtRest twoRouters ∧
        step twoRouters q.2 .main = none)) = true := by
    decide +kernel
  obtain ⟨⟨log, s⟩, hexec, hp⟩ := (Option.any_eq_true _ _).mp hrun
  obtain ⟨hcalls, hrest, hmain⟩ := of_decide_eq_true hp
  refine ⟨_, log, s, hexec, hcalls, ?_⟩
  refine (patient_run_finishes (by decide) hexec).2.2.2 fun a es s' hs => ?_
  by_cases ha : a = .main
  · rw [ha, hmain] at hs
    cases hs
  · rw [hrest a ha] at hs
    cases hs

/-- **It is never too late to finish.**  From every reachable state between two calls
of `check_done` some schedule leads to the proper end of the run, whatever the calls
before have seen; with `buffer_size = 0` this is so from every reachable state. -/
theorem can_finish {C : Config n} {log : List (Event n)} {s : State n} (hT : C.topology.TwoWay)
    (h : (stress C).Run log s) (hwhen : s.main.pc = .between ∨ C.bufferSize = 0) :
    ∃ as es s', (stress C).exec s as = some (es, s') ∧ s'.Finished C := by
  rcases hwhen with hmain | hbuf
  · exact can_finish_of_between hT h hmain
  · exact can_finish_of_rendezvous hT h hbuf

/-- The two routers have been called too early. -/
theorem can_finish_twoRouters : ∃ log s, (stress twoRouters).Run log s ∧ calls log = 1 ∧
    s.main.pc = .between ∧
    ∃ as es s', (stress twoRouters).exec s as = some (es, s') ∧ s'.Finished twoRouters := by
  obtain ⟨log, s, hr, hp⟩ := Lts.Run.exists_of_exec (stress twoRouters)
    (unroll [(3, .main), (1, .handle 0), (1, .handle 1), (1, .main), (1, .reply 0), (1, .main),
      (1, .reply 1), (2, .main)])
    (fun q => decide (calls q.1 = 1 ∧ q.2.main.pc = .between)) (by decide +kernel)
  obtain ⟨hcalls, hmain⟩ := of_decide_eq_true hp
  exact ⟨log, s, hr, hcalls, hmain, can_finish (by decide) hr (.inl hmain)⟩

end ConcurrencyLab
