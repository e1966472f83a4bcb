import ConcurrencyLab.Probe

/-!
# ConcurrencyLab.Progress

Which steps are possible.  A thread between two driver calls can always move, so
only the driver calls matter: each of them is shown to wait for something that
another thread is about to do.

The main thread probes all routers before it takes an answer, and
`completed_driver` stores at most one.  That a router which has answered stops
draining its driver does no harm, because a router is probed once in a round:
the one being probed has not been asked before, so it is not waiting to answer
and will come to its `driver_select` (`never_deadlocks`).

Which assertion has failed tells where its thread stands (`run_faulty`).  The one of
line 179 looks at the link back to the sender; it can fail exactly when some finite
link leads one way only (`neighbor_dist_finite_iff`).
-/

namespace ConcurrencyLab

variable {n : Nat}

/-! ## what is enabled -/

theorem enabled_of_isSome {C : Config n} {s : State n} {a : Action n}
    (h : (step C s a).isSome = true) : (stress C).Enabled s := ⟨a, h⟩

/-- The thread is between two driver calls. -/
def RouterPc.running : RouterPc n → Bool
  | .received _ | .relax _ _ _ | .check | .copy _ => true
  | _ => false

/-- A router that is not running is at a driver call, or gone. -/
theorem RouterPc.cases_not_running {pc : RouterPc n} (h : pc.running = false) :
    pc = .select ∨ (∃ job, pc = .reply job) ∨ pc = .exited := by
  cases pc with
  | select => exact .inl rfl
  | reply job => exact .inr (.inl ⟨job, rfl⟩)
  | exited => exact .inr (.inr rfl)
  | received | relax | check | copy => cases h

section Enabled

variable {C : Config n} {s : State n} (hf : s.fault = none)
include hf

theorem step_eq_continue (i : Fin n) : step C s (.continue i) = stepContinue C s i := by
  simp [step, hf]

theorem continue_isSome {i : Fin n} (h : (s.routers i).pc.running = true) :
    (step C s (.continue i)).isSome := by
  rw [step_eq_continue hf]
  simp only [stepContinue]
  cases hpc : (s.routers i).pc with
  | received | relax | check | copy => simp only; split <;> rfl
  | select | reply | exited => rw [hpc] at h; cases h

theorem handle_isSome {i : Fin n} (hpc : (s.routers i).pc = .select) (hq : s.queues i ≠ []) :
    (step C s (.handle i)).isSome := by
  obtain ⟨job, rest, hcons⟩ := List.exists_cons_of_ne_nil hq
  simp [step, hf, stepHandle, hpc, hcons]

theorem schedule_isSome {i j : Fin n} {m : Nat} {job : Job n} (hpc : (s.routers i).pc = .select)
    (hm : m < (s.routers i).selects.selectCount)
    (he : (s.routers i).selects.entries[m]? = some ⟨.drivers j, .schdle, job⟩)
    (hready : (s.queues j).length < C.bufferSize ∨
      C.bufferSize = 0 ∧ j ≠ i ∧ (s.routers j).pc = .select) :
    (step C s (.schedule i m)).isSome := by
  simp only [step, hf, Option.isSome_none, Bool.false_eq_true, if_false, stepSchedule, hpc, hm,
    true_and, if_true, he]
  split
  · rfl
  · next hroom => rw [if_pos (hready.resolve_left hroom)]; rfl

theorem closed_isSome {i : Fin n} (hpc : (s.routers i).pc = .select)
    (hclosed : s.doneClosed = true) : (step C s (.closed i)).isSome := by
  simp only [step, hf, Option.isSome_none, Bool.false_eq_true, if_false, stepClosed, hpc, hclosed,
    true_and, if_true]
  split <;> rfl

theorem reply_isSome {i : Fin n} {job : Job n} {round : Round} {k : Nat}
    (hpc : (s.routers i).pc = .reply job) (hmain : s.main.pc = .collect round k) (hk : k < n)
    (hempty : s.completedQueue = []) : (step C s (.reply i)).isSome := by
  simp only [step, hf, Option.isSome_none, Bool.false_eq_true, if_false, stepReply, hpc, hmain, hk,
    hempty, List.length_nil]
  split
  · rfl
  · next hroom =>
    have hzero : C.bufferSize = 0 := by omega
    simp [hzero]

theorem main_isSome_of_probe {round : Round} {k : Nat} (hpc : s.main.pc = .probe round k)
    (hready : ∀ h : k < n, s.queues ⟨k, h⟩ = [] ∧
      (C.bufferSize = 0 → (s.routers ⟨k, h⟩).pc = .select)) :
    (step C s .main).isSome := by
  simp only [step, hf, Option.isSome_none, Bool.false_eq_true, if_false, stepMain, hpc]
  split
  · next hk =>
    obtain ⟨hq, hselect⟩ := hready hk
    simp only [stepProbe, hq, List.length_nil]
    split
    · rfl
    · next hroom =>
      have hzero : C.bufferSize = 0 := by omega
      simp [hzero, hselect hzero]
  · rfl

theorem main_isSome_of_collect {round : Round} {k : Nat} (hpc : s.main.pc = .collect round k)
    (hready : k < n → s.completedQueue ≠ []) : (step C s .main).isSome := by
  simp only [step, hf, Option.isSome_none, Bool.false_eq_true, if_false, stepMain, hpc]
  split
  · next hk =>
    obtain ⟨job, rest, hcons⟩ := List.exists_cons_of_ne_nil (hready hk)
    simp [hcons]
  · split
    · cases round <;> rfl
    · rfl

theorem main_isSome_of_join {i : Nat} (hpc : s.main.pc = .join i)
    (hready : ∀ h : i < n, (s.routers ⟨i, h⟩).pc = .exited) : (step C s .main).isSome := by
  simp only [step, hf, Option.isSome_none, Bool.false_eq_true, if_false, stepMain, hpc]
  split
  · next hi => rw [if_pos (hready hi)]; rfl
  · rfl

/-- Comparing, checking and closing never wait. -/
theorem main_isSome_of_local (hprobe : ∀ round k, s.main.pc ≠ .probe round k)
    (hcollect : ∀ round k, s.main.pc ≠ .collect round k) (hjoin : ∀ i, s.main.pc ≠ .join i)
    (hjoined : s.main.pc ≠ .joined) : (step C s .main).isSome := by
  simp only [step, hf, Option.isSome_none, Bool.false_eq_true, if_false, stepMain]
  cases hpc : s.main.pc with
  | between | close => rfl
  | compare k new => simp only; split <;> rfl
  | results src dst =>
      simp only
      split
      · split
        · split
          · split <;> rfl
          · rfl
        · rfl
      · rfl
  | probe round k => exact absurd hpc (hprobe round k)
  | collect round k => exact absurd hpc (hcollect round k)
  | join i => exact absurd hpc (hjoin i)
  | joined => exact absurd hpc hjoined

end Enabled

/-! ## when routers leave -/

/-- `done_driver` has been closed. -/
def MainPc.closing : MainPc n → Bool
  | .join _ | .joined => true
  | _ => false

/-- Routers leave only after `done_driver` has been closed, which is after
`check_done` has returned `true`. -/
structure CloseInv (s : State n) : Prop where
  closed : s.doneClosed = s.main.pc.closing
  exited : ∀ i, (s.routers i).pc = .exited → s.doneClosed = true

section Steps

variable {C : Config n} {s s' : State n} {es : List (Event n)}

theorem closeInv_init (C : Config n) : CloseInv (State.init C) where
  closed := rfl
  exited i h := by cases h

theorem Main.closing_collected (m : Main n) (round : Round) (k : Nat) (job : Job n)
    (owner : StatePtr n → Fin n) : (m.collected round k job owner).pc.closing = false := by
  cases round <;> cases job <;> rfl

theorem MainStep.closing {m : Main n} {closed : Bool} (h : MainStep C s es m closed)
    (hs : s.doneClosed = s.main.pc.closing) : closed = m.pc.closing := by
  cases h with
  | close => rfl
  | call hpc | probeDone hpc | firstValid hpc | secondValid hpc | invalid hpc | compared hpc
  | resultOk hpc | resultRow hpc | resultsDone hpc | joinOne hpc | joinDone hpc =>
      rw [hs, hpc]; rfl

/-- A router that has just left found `done_driver` closed. -/
theorem Trans.exited_cases (h : Trans C s es s') {i : Fin n} (hpc : (s'.routers i).pc = .exited) :
    (s.routers i).pc = .exited ∨ s.doneClosed = true := by
  cases h with
  | @handle a job rest hpca hq =>
      by_cases hia : i = a
      · subst hia
        cases job <;> simp [Router.handled] at hpc
      · exact .inl (by simpa [hia] using hpc)
  | @schedule a j m job hpca hm he hroom =>
      by_cases hia : i = a
      · subst hia; simp [Router.sent] at hpc
      · exact .inl (by simpa [hia] using hpc)
  | @meet a j m job hpca hm he hbuf hne hpcj =>
      by_cases hij : i = j
      · subst hij
        cases job <;> simp [Router.handled] at hpc
      · by_cases hia : i = a
        · subst hia; simp [hij, Router.sent] at hpc
        · exact .inl (by simpa [hij, hia] using hpc)
  | @router a es r hl =>
      by_cases hia : i = a
      · subst hia
        rw [State.routers_setRouter, if_pos rfl] at hpc
        cases hl with
        | left hpca hclosed => exact .inr hclosed
        | relaxed => unfold Router.relaxed at hpc; split at hpc <;> cases hpc
        | received | relaxDone | rotated | skipped | copied | reset => cases hpc
      · exact .inl (by simpa [hia] using hpc)
  | @reply a job hpca hroom =>
      by_cases hia : i = a
      · subst hia; simp [Router.goto] at hpc
      · exact .inl (by simpa [hia] using hpc)
  | @replyMeet a job round k hpca hbuf hmain hk =>
      by_cases hia : i = a
      · subst hia; simp [Router.goto] at hpc
      · exact .inl (by simpa [hia] using hpc)
  | @probeMeet round k hmain hbuf hpca =>
      by_cases hik : i = k
      · subst hik; simp [Router.handled] at hpc
      · exact .inl (by simpa [hik] using hpc)
  | probe | collect | main | abort => exact .inl hpc

theorem CloseInv.step (h : CloseInv s) (ht : Trans C s es s') : CloseInv s' := by
  have hclosed : s'.doneClosed = s'.main.pc.closing ∧
      (s.doneClosed = true → s'.doneClosed = true) := by
    have hold := h.closed
    cases ht with
    | handle | schedule | meet | router | reply | abort => exact ⟨hold, id⟩
    | replyMeet hpc hbuf hmain hk =>
        rw [hmain] at hold
        exact ⟨hold.trans (Main.closing_collected _ _ _ _ _).symm, id⟩
    | collect hmain hk hq =>
        rw [hmain] at hold
        exact ⟨hold.trans (Main.closing_collected _ _ _ _ _).symm, id⟩
    | probe hmain hroom => rw [hmain] at hold; exact ⟨hold, id⟩
    | probeMeet hmain hbuf hpc => rw [hmain] at hold; exact ⟨hold, id⟩
    | main hm =>
        refine ⟨hm.closing hold, fun hd => ?_⟩
        cases hm with
        | close => rfl
        | call | probeDone | firstValid | secondValid | invalid | compared | resultOk | resultRow
        | resultsDone | joinOne | joinDone => exact hd
  refine ⟨hclosed.1, fun i hpc => ?_⟩
  rcases ht.exited_cases hpc with hold | hnow
  · exact hclosed.2 (h.exited i hold)
  · exact hclosed.2 hnow

theorem run_closeInv {log : List (Event n)} (h : (stress C).Run log s) : CloseInv s :=
  run_invariant (P := fun _ s => CloseInv s) (closeInv_init C) (fun _ hp ht => hp.step ht) h

end Steps

/-! ## when assertions fail -/

section Faults

variable {C : Config n} {log : List (Event n)} {s : State n}

/-- An aborted process stands where its assertion failed. -/
theorem run_faulty (h : (stress C).Run log s) {f : Fault} (hf : s.fault = some f) :
    Faulty C s f := by
  refine h.invariant (P := fun _ s => ∀ f, s.fault = some f → Faulty C s f)
    (fun f hf => by cases hf) (fun {log s a es s'} _ _ hs f hf => ?_) f hf
  obtain ⟨hnone, ht⟩ := trans_of_step hs
  cases ht with
  | abort hfault =>
      cases hf
      cases hfault with
      | neighborDist hpc hlink => exact .neighborDist hpc hlink
      | driverged hpc hclosed hdiv => exact .driverged hpc hclosed hdiv
      | result hpc hcompleted hdist => exact .result hpc hcompleted hdist
      | unwrittenCompare hpc hold => exact .unwrittenCompare hpc hold
      | unwrittenResult hpc hcompleted => exact .unwrittenResult hpc hcompleted
  | handle | schedule | meet | router | reply | replyMeet | probe | probeMeet | collect | main =>
      have hkept : s.fault = some f := hf
      rw [hnone] at hkept
      cases hkept

/-- With two-way links the assert of line 179 never fails. -/
theorem not_faulty_neighborDist (hT : C.topology.TwoWay) (h : (stress C).Run log s) :
    ¬ Faulty C s .neighborDist := by
  intro hfault
  cases hfault with
  | @neighborDist i p hpc hlink =>
      have hheld : (s.routers i).pc.held = some ⟨p.owner, p.slot⟩ := by rw [hpc]; rfl
      have hneighbor := ((run_pipeInv h).held hheld).1
      have hsrc : (s.load p).src = p.owner := (run_routerInv h p.owner).buffer.src p.slot
      rw [hsrc] at hlink
      exact (hT p.owner i).mp hneighbor.2 hlink

/-- A router can be the first to broadcast, and its neighbour the next to read. -/
theorem exists_received (C : Config n) {i j : Fin n} (hij : C.topology.IsNeighbor i j) :
    ∃ log s, (stress C).Run log s ∧ s.fault = none ∧ (s.routers j).pc = .received ⟨i, 1⟩ := by
  have hsel := SelectList.valid_init C.topology i
  obtain ⟨m, hm, htarget⟩ := hsel.pending_of_total rfl hij
  obtain ⟨job, he⟩ := SelectList.target_eq_some.mp htarget
  obtain rfl := (hsel.entry_eq he).2
  by_cases hroom : 0 < C.bufferSize
  · let s₁ := ((State.init C).setQueue j [some ⟨i, 1⟩]).setRouter i
      ((Router.init C.topology i).sent m)
    have hfirst : (stress C).step (State.init C) (.schedule i m) =
        some ([.accept i j (some ((State.init C).load ⟨i, 1⟩))], s₁) := by
      show stepSchedule C (State.init C) i m = _
      simp [stepSchedule, State.init, Router.init, hm, he, hroom, s₁]
    have hsecond : (stress C).step s₁ (.handle j) =
        some ([.take j (some (s₁.load ⟨i, 1⟩))],
          (s₁.setQueue j []).setRouter j ((s₁.routers j).handled j (some ⟨i, 1⟩))) := by
      show stepHandle s₁ j = _
      have hpc : (s₁.routers j).pc = .select := by simp [s₁, hij.1, State.init, Router.init]
      have hq : s₁.queues j = [some ⟨i, 1⟩] := by simp [s₁, State.setRouter, State.setQueue]
      simp [stepHandle, hpc, hq]
    exact ⟨_, _, (Lts.Run.init.step hfirst).step hsecond, rfl, by simp [Router.handled]⟩
  · have hzero : C.bufferSize = 0 := by omega
    have hmeet : (stress C).step (State.init C) (.schedule i m) =
        some ([.accept i j (some ((State.init C).load ⟨i, 1⟩)),
            .take j (some ((State.init C).load ⟨i, 1⟩))],
          ((State.init C).setRouter i ((Router.init C.topology i).sent m)).setRouter j
            (((State.init C).routers j).handled j (some ⟨i, 1⟩))) := by
      show stepSchedule C (State.init C) i m = _
      simp [stepSchedule, State.init, Router.init, hm, he, hzero, hij.1]
    exact ⟨_, _, Lts.Run.init.step hmeet, rfl, by simp [Router.handled]⟩

/-- **When every received vector comes over a usable link**: exactly when the finite
links are two-way.  The sender goes by the link from it, the assert of line 179 by
the link to it. -/
theorem neighbor_dist_finite_iff (C : Config n) :
    (∀ log s, (stress C).Run log s → s.fault ≠ some .neighborDist) ↔ C.topology.TwoWay := by
  constructor
  · intro hall
    have hback : ∀ i j, C.topology.link i j ≠ infDistance → C.topology.link j i ≠ infDistance := by
      intro i j hlink hinf
      have hne : j ≠ i := by
        rintro rfl
        exact hlink hinf
      obtain ⟨log, s, hrun, hf, hpc⟩ := exists_received C ⟨hne, hlink⟩
      have hsrc : (s.load ⟨i, 1⟩).src = i := (run_routerInv hrun i).buffer.src 1
      have hstep : (stress C).step s (.continue j) = some ([], s.abort .neighborDist) := by
        show step C s (.continue j) = _
        rw [step_eq_continue hf]
        simp [stepContinue, hpc, hsrc, hinf]
      exact hall _ _ (hrun.step hstep) rfl
    exact fun i j => ⟨hback i j, hback j i⟩
  · intro hT log s hrun hf
    exact not_faulty_neighborDist hT hrun (run_faulty hrun hf)

/-- Router 0 has a link to router 1 that does not lead back: the first broadcast
makes router 1 fail its assert. -/
theorem one_way_link_fails :
    ¬ ∀ (n : Nat) (C : Config n), 0 < n → ∀ log s, (stress C).Run log s →
      s.fault ≠ some .neighborDist := by
  intro hall
  obtain ⟨log, s, hrun, hp⟩ := Lts.Run.exists_of_exec
    (stress (.buffered (.ofRows 2 [[0, 1], [0x7fffffff, 0]])))
    [.schedule 0 2, .handle 1, .continue 1]
    (fun r => decide (r.2.fault = some .neighborDist)) (by decide +kernel)
  exact hall 2 _ (by decide) log s hrun (of_decide_eq_true hp)

/-- No entry of `completed` is read before it is written. -/
theorem not_faulty_unwritten (h : (stress C).Run log s) : ¬ Faulty C s .unwritten := by
  intro hfault
  have hprobe := run_probeInv h
  have hposition : Position (callLog log) s.main.pc := hprobe.position
  cases hfault with
  | unwrittenCompare hpc hold =>
      rw [hpc] at hposition
      obtain ⟨p, epoch, hcompleted, -⟩ := hprobe.completed hposition.1 (s.load _).src
      rw [probeView_main, hold] at hcompleted
      cases hcompleted
  | @unwrittenResult src dst hpc hcompleted =>
      rw [hpc] at hposition
      obtain ⟨p, epoch, hwritten, -⟩ := hprobe.completed hposition.1 src
      rw [probeView_main, hcompleted] at hwritten
      cases hwritten

/-- Two-way links leave two assertions to look at: the one on `driverged` when
`done_driver` is closed, and the one on the results. -/
theorem fault_eq_none_of (hT : C.topology.TwoWay) (h : (stress C).Run log s)
    (hdriverged : s.doneClosed = true → ∀ i, (s.routers i).driverged = false)
    (hresult : ∀ (src dst : Fin n) (p : StatePtr n), s.main.pc = .results src dst →
      s.main.completed src = some p → (s.load p).dist dst = C.topology.floydWarshall src dst) :
    s.fault = none := by
  by_contra hne
  obtain ⟨f, hf⟩ := Option.ne_none_iff_exists'.mp hne
  have hfault := run_faulty h hf
  cases f with
  | neighborDist => exact not_faulty_neighborDist hT h hfault
  | unwritten => exact not_faulty_unwritten h hfault
  | driverged =>
      cases hfault with
      | @driverged i hpc hclosed hdiv =>
          rw [hdriverged hclosed i] at hdiv
          cases hdiv
  | result =>
      cases hfault with
      | result hpc hcompleted hdist => exact hdist (hresult _ _ _ hpc hcompleted)

/-- Between two calls of `check_done` no assertion has failed. -/
theorem fault_eq_none_of_between (hT : C.topology.TwoWay) (h : (stress C).Run log s)
    (hmain : s.main.pc = .between) : s.fault = none := by
  refine fault_eq_none_of hT h (fun hclosed => ?_) (fun src dst p hpc => ?_)
  · rw [(run_closeInv h).closed, hmain] at hclosed
    cases hclosed
  · rw [hmain] at hpc
    cases hpc

end Faults

/-! ## no deadlock -/

section Deadlock

variable {C : Config n} {log : List (Event n)} {s : State n}

/-- A router that is asked a question, and has not taken it, can move. -/
theorem asked_router_moves (h : (stress C).Run log s) (hf : s.fault = none)
    (hopen : s.main.pc.closing = false) {i : Fin n} (hreply : (s.routers i).pc.replying = none)
    (hq : s.queues i ≠ []) : (stress C).Enabled s := by
  cases hrun : (s.routers i).pc.running with
  | true => exact enabled_of_isSome (continue_isSome hf hrun)
  | false =>
      rcases RouterPc.cases_not_running hrun with hpc | ⟨job, hpc⟩ | hpc
      · exact enabled_of_isSome (handle_isSome hf hpc hq)
      · rw [hpc] at hreply; cases hreply
      · have hclose := run_closeInv h
        rw [← hclose.closed, hclose.exited i hpc] at hopen
        cases hopen

/-- The main thread waits to probe a router: that router is not answering. -/
theorem enabled_of_probe (h : (stress C).Run log s) (hf : s.fault = none) {round : Round} {k : Nat}
    (hmain : s.main.pc = .probe round k) : (stress C).Enabled s := by
  by_cases hk : k < n
  · have hprobe := run_probeInv h
    have hposition : Position (callLog log) s.main.pc := hprobe.position
    rw [hmain] at hposition
    have hidle : probeTrace (callLog log).current ⟨k, hk⟩ = [] := by
      by_contra hne
      exact Nat.lt_irrefl k ((hposition.2.2 ⟨k, hk⟩).mp hne)
    have hreply : (s.routers ⟨k, hk⟩).pc.replying = none := by
      have hstage := hprobe.stage ⟨k, hk⟩
      rw [hidle] at hstage
      generalize hr : (probeView s).replying ⟨k, hk⟩ = replying at hstage
      generalize (probeView s).asked ⟨k, hk⟩ = asked at hstage
      cases hstage
      exact hr
    have hopen : s.main.pc.closing = false := by rw [hmain]; rfl
    by_cases hq : s.queues ⟨k, hk⟩ = []
    · cases hrun : (s.routers ⟨k, hk⟩).pc.running with
      | true => exact enabled_of_isSome (continue_isSome hf hrun)
      | false =>
          rcases RouterPc.cases_not_running hrun with hpc | ⟨job, hpc⟩ | hpc
          · exact enabled_of_isSome (main_isSome_of_probe hf hmain fun _ => ⟨hq, fun _ => hpc⟩)
          · rw [hpc] at hreply; cases hreply
          · have hclose := run_closeInv h
            rw [← hclose.closed, hclose.exited _ hpc] at hopen
            cases hopen
    · exact asked_router_moves h hf hopen hreply hq
  · exact enabled_of_isSome (main_isSome_of_probe hf hmain fun hlt => absurd hlt hk)

/-- The main thread waits for an answer: some router has not answered yet. -/
theorem enabled_of_collect (h : (stress C).Run log s) (hf : s.fault = none) {round : Round}
    {k : Nat} (hmain : s.main.pc = .collect round k) : (stress C).Enabled s := by
  by_cases hempty : s.completedQueue = []
  · by_cases hk : k < n
    · have hprobe := run_probeInv h
      have hposition : Position (callLog log) s.main.pc := hprobe.position
      rw [hmain] at hposition
      have hopen : s.main.pc.closing = false := by rw [hmain]; rfl
      -- fewer than `n` answers, so one is missing
      have hlen := hprobe.length_collected_le
      rw [hposition.2.1, probeView_answered, hempty, List.length_nil] at hlen
      have hmissing : ∃ i, i ∉ (answers (callLog log).current).map Answer.router := by
        by_contra hall
        simp only [not_exists, not_not] at hall
        have hle := (List.nodup_finRange n).subperm fun i _ => hall i
        have hle' := hle.length_le
        rw [List.length_finRange, List.length_map] at hle'
        omega
      obtain ⟨i, hi⟩ := hmissing
      have hstage := hprobe.stage i
      have hasked := hposition.2.2 i
      have htrace := answers_probeTrace (callLog log).current i
      generalize ht : probeTrace (callLog log).current i = trace at hstage hasked htrace
      generalize ha : (probeView s).asked i = asked at hstage
      generalize hr : (probeView s).replying i = replying at hstage
      cases hstage with
      | idle => exact absurd rfl hasked
      | asked =>
          have hmem : none ∈ s.queues i := of_decide_eq_true ha
          exact asked_router_moves h hf hopen hr (List.ne_nil_of_mem hmem)
      | @taken job =>
          have hpc : (s.routers i).pc = .reply job := RouterPc.replying_eq_some.mp hr
          exact enabled_of_isSome (reply_isSome hf hpc hmain hk hempty)
      | @answered job epoch =>
          have hmem : (⟨i, job, epoch⟩ : Answer n) ∈
              (answers (callLog log).current).filter (·.router = i) := by
            rw [← htrace]; exact List.mem_singleton.mpr rfl
          exact absurd (List.mem_map_of_mem (f := Answer.router) (List.mem_filter.mp hmem).1) hi
    · exact enabled_of_isSome (main_isSome_of_collect hf hmain fun hlt => absurd hlt hk)
  · exact enabled_of_isSome (main_isSome_of_collect hf hmain fun _ => hempty)

/-- The main thread waits for a router to leave: that router can. -/
theorem enabled_of_join (h : (stress C).Run log s) (hf : s.fault = none) {i : Nat}
    (hmain : s.main.pc = .join i) : (stress C).Enabled s := by
  by_cases hi : i < n
  · have hclosed : s.doneClosed = true := by
      rw [(run_closeInv h).closed, hmain]; rfl
    cases hrun : (s.routers ⟨i, hi⟩).pc.running with
    | true => exact enabled_of_isSome (continue_isSome hf hrun)
    | false =>
        rcases RouterPc.cases_not_running hrun with hpc | ⟨job, hpc⟩ | hpc
        · exact enabled_of_isSome (closed_isSome hf hpc hclosed)
        · have hidle := ((run_probeInv h).idle (by rw [probeView_main, hmain]; rfl)).2 ⟨i, hi⟩
          rw [probeView_replying, hpc] at hidle
          cases hidle.2
        · exact enabled_of_isSome (main_isSome_of_join hf hmain fun _ => hpc)
  · exact enabled_of_isSome (main_isSome_of_join hf hmain fun hlt => absurd hlt hi)

end Deadlock

/-- **The stress run never deadlocks**: as long as no assertion has failed and
not all routers have been joined, some thread can take a step. -/
theorem never_deadlocks {C : Config n} {log : List (Event n)} {s : State n}
    (h : (stress C).Run log s) (hf : s.fault = none) (hmain : s.main.pc ≠ .joined) :
    (stress C).Enabled s := by
  cases hpc : s.main.pc with
  | probe round k => exact enabled_of_probe h hf hpc
  | collect round k => exact enabled_of_collect h hf hpc
  | join i => exact enabled_of_join h hf hpc
  | joined => exact absurd hpc hmain
  | between | compare | results | close =>
      exact enabled_of_isSome
        (main_isSome_of_local hf (by simp [hpc]) (by simp [hpc]) (by simp [hpc]) hmain)

theorem never_deadlocks_twoRouters : ∃ log s, (stress twoRouters).Run log s ∧
    (∃ job, (s.routers 0).pc = .reply job) ∧ s.main.pc = .probe .first 1 ∧
    (stress twoRouters).Enabled s := by
  obtain ⟨log, s, hr, hp⟩ := Lts.Run.exists_of_exec (stress twoRouters)
    (unroll [(1, .schedule 0 2), (1, .continue 0), (2, .main), (1, .handle 0)])
    (fun q => decide ((q.2.routers 0).pc = .reply (some ⟨0, 1⟩) ∧
      q.2.main.pc = .probe .first 1 ∧ q.2.fault = none)) (by decide +kernel)
  obtain ⟨hpc, hmain, hf⟩ : (s.routers 0).pc = .reply (some ⟨0, 1⟩) ∧
    s.main.pc = .probe .first 1 ∧ s.fault = none := of_decide_eq_true hp
  exact ⟨log, s, hr, ⟨_, hpc⟩, hmain, never_deadlocks hr hf (by simp [hmain])⟩

end ConcurrencyLab
