import ConcurrencyLab.Detection
import ConcurrencyLab.Progress

/-!
# ConcurrencyLab.QuietCall

A call of `check_done` that begins when the routers have nothing left to do.

The probes go through the same drivers and the same loop body as vectors.  At
quiescence a router answers with the address of its current vector and goes back to
its select, so no answer spoils the call (`QuietMain`), and all that a `NULL` leaves
behind is itself, in the `job` of entry 1 of the select list, where `driver_select`
stores what it takes (`State.Quiescent.selects_step`).

* `quiet_call` — the call returns `true`, no assertion fails, and the routers are as
  before but for that entry;
* `taken_job_changes` — the entry does change.
-/

namespace ConcurrencyLab

variable {n : Nat}

/-- What the call of `check_done` has returned: after `false` the main thread is at
line 320, after `true` at line 324 or later. -/
def MainPc.returned : MainPc n → Option Bool
  | .between => some false
  | .close | .join _ | .joined => some true
  | .probe _ _ | .collect _ _ | .compare _ _ | .results _ _ => none

/-- The address in `curr_state` of router `i`. -/
def State.current (s : State n) (i : Fin n) : StatePtr n := ⟨i, (s.routers i).buffer.currState⟩

/-! ## the main thread when every answer is the current vector -/

/-- A call that has seen no other address of router `i` than `current i`. -/
structure QuietMain (current : Fin n → StatePtr n) (m : Main n) : Prop where
  valid : m.valid = true
  running : m.pc ≠ .between
  completed : ∀ i p, m.completed i = some p → p = current i
  comparing : ∀ k new, m.pc = .compare k new → ∃ i, new = current i

namespace QuietMain

variable {current : Fin n → StatePtr n} {m : Main n}

theorem call (m : Main n) : QuietMain current m.call where
  valid := rfl
  running h := by cases h
  completed i p h := by cases h
  comparing k new h := by cases h

theorem goto (h : QuietMain current m) {pc : MainPc n} (hrunning : pc ≠ .between)
    (hcomparing : ∀ k new, pc ≠ .compare k new) : QuietMain current (m.goto pc) where
  valid := h.valid
  running := hrunning
  completed := h.completed
  comparing k new hpc := absurd hpc (hcomparing k new)

theorem collected (h : QuietMain current m) (round : Round) (k : Nat) (i : Fin n)
    {src : StatePtr n → Fin n} (hsrc : src (current i) = i) :
    QuietMain current (m.collected round k (some (current i)) src) := by
  cases round with
  | first =>
      constructor
      case valid => exact h.valid
      case running => intro hpc; cases hpc
      case comparing => intro k new hpc; cases hpc
      case completed =>
        intro j p hp
        simp only [Main.collected, hsrc, Function.update_apply] at hp
        split at hp
        · next hji => rw [hji]; exact (Option.some.inj hp).symm
        · exact h.completed j p hp
  | second =>
      constructor
      case valid => exact h.valid
      case running => intro hpc; cases hpc
      case completed => exact h.completed
      case comparing =>
        intro k' new hpc
        simp only [Main.collected, MainPc.compare.injEq] at hpc
        exact ⟨i, hpc.2.symm⟩

theorem compared (h : QuietMain current m) (k : Nat) : QuietMain current (m.compared k true) where
  valid := by simp [Main.compared, h.valid]
  running hpc := by cases hpc
  completed := h.completed
  comparing k new hpc := by cases hpc

end QuietMain

/-! ## a call from quiescence -/

section Steps

variable {C : Config n} {s s' : State n} {es : List (Event n)}

/-- A call that began at quiescence, or what follows it. -/
structure QuietCall (s : State n) : Prop where
  quiescent : s.Quiescent
  main : QuietMain s.current s.main
  answered : ∀ job ∈ s.completedQueue, ∃ i, job = some (s.current i)

/-- At quiescence every answer is the current vector. -/
theorem State.Quiescent.reply_eq (hq : s.Quiescent) {i : Fin n}
    (hinv : (s.routers i).Inv C.topology i) {job : Job n} (hpc : (s.routers i).pc = .reply job) :
    job = some (s.current i) := by
  rw [hinv.reply job hpc, if_pos ⟨hq.selectCount i, hq.driverged i⟩]
  rfl

theorem QuietCall.mainStep (h : QuietCall s) (hinv : ∀ i, (s.routers i).Inv C.topology i)
    {m : Main n} {closed : Bool} (hm : MainStep C s es m closed) : QuietMain s.current m := by
  cases hm with
  | call => exact QuietMain.call s.main
  | invalid hpc hk hvalid =>
      rw [h.main.valid] at hvalid
      contradiction
  | @compared k new old hpc hold =>
      obtain ⟨i, rfl⟩ := h.main.comparing k new hpc
      have hsrc : (s.load (s.current i)).src = i := (hinv i).buffer.src _
      rw [hsrc] at hold
      obtain rfl := h.main.completed i old hold
      rw [beq_self_eq_true]
      exact h.main.compared k
  | probeDone | firstValid | secondValid | resultOk | resultRow | resultsDone | close | joinOne
  | joinDone => exact h.main.goto (by simp) (by simp)

/-- **A call from quiescence sees nothing but current vectors.** -/
theorem QuietCall.step (h : QuietCall s) (hinv : ∀ i, (s.routers i).Inv C.topology i)
    (ht : Trans C s es s') : QuietCall s' := by
  obtain ⟨hq', hbuf, -⟩ := h.quiescent.step hinv ht
  have hcurrent : s'.current = s.current := by
    funext i
    rw [State.current, hbuf]
    rfl
  have hsrc : ∀ i, (s.load (s.current i)).src = i := fun i => (hinv i).buffer.src _
  refine ⟨hq', ?_, ?_⟩
  · rw [hcurrent]
    cases ht with
    | replyMeet hpc =>
        obtain rfl := h.quiescent.reply_eq (hinv _) hpc
        exact h.main.collected _ _ _ (hsrc _)
    | collect hmain hk hq =>
        obtain ⟨i, rfl⟩ := h.answered _ (hq ▸ List.mem_cons_self)
        exact h.main.collected _ _ i (hsrc i)
    | probe | probeMeet => exact h.main.goto (by simp) (by simp)
    | main hm => exact h.mainStep hinv hm
    | handle | schedule | meet | router | reply | abort => exact h.main
  · rw [hcurrent]
    cases ht with
    | @reply i job hpc hroom =>
        intro job' hjob
        rcases List.mem_append.mp hjob with hold | hnew
        · exact h.answered job' hold
        · rw [List.mem_singleton.mp hnew]
          exact ⟨i, h.quiescent.reply_eq (hinv i) hpc⟩
    | collect hmain hk hq =>
        exact fun job hjob => h.answered job (hq ▸ List.mem_cons_of_mem _ hjob)
    | handle | schedule | meet | router | replyMeet | probe | probeMeet | main | abort =>
        exact h.answered

/-! ## what a NULL leaves behind -/

theorem storeJob_storeJob (job : Job n) (l : SelectList n) :
    (l.storeJob job).storeJob job = l.storeJob job := by
  simp only [SelectList.storeJob, List.modify_modify_eq]
  rfl

/-- The select list of a router after some events: as before, unless it has taken a
`NULL`, which is stored in entry 1. -/
def TakenStored (i : Fin n) (es : List (Event n)) (l l' : SelectList n) : Prop :=
  (Event.take i none ∉ es ∧ l' = l) ∨ (Event.take i none ∈ es ∧ l' = l.storeJob none)

theorem TakenStored.append {i : Fin n} {es' : List (Event n)} {l l' l'' : SelectList n}
    (h : TakenStored i es l l') (h' : TakenStored i es' l' l'') :
    TakenStored i (es ++ es') l l'' := by
  rcases h with ⟨hnone, rfl⟩ | ⟨hmem, rfl⟩
  · rcases h' with ⟨hnone', rfl⟩ | ⟨hmem', rfl⟩
    · exact .inl ⟨fun hm => (List.mem_append.mp hm).elim hnone hnone', rfl⟩
    · exact .inr ⟨List.mem_append_right _ hmem', rfl⟩
  · refine .inr ⟨List.mem_append_left _ hmem, ?_⟩
    rcases h' with ⟨-, rfl⟩ | ⟨-, rfl⟩
    · rfl
    · exact storeJob_storeJob none l

/-- A step at quiescence changes a select list only by storing a `NULL`. -/
theorem State.Quiescent.selects_step (hq : s.Quiescent)
    (hinv : ∀ i, (s.routers i).Inv C.topology i) (ht : Trans C s es s') (i : Fin n) :
    TakenStored i es (s.routers i).selects (s'.routers i).selects := by
  have hother : ∀ {a : Fin n} {r : Router n}, r.selects = (s.routers a).selects →
      ((s.setRouter a r).routers i).selects = (s.routers i).selects := by
    intro a r hr
    rw [State.routers_setRouter]
    split
    · next hia => rw [hr, hia]
    · rfl
  cases ht with
  | @handle a job rest hpc hqueue =>
      have hjob : job = none := by
        cases job with
        | none => rfl
        | some p => exact absurd (hqueue ▸ List.mem_cons_self) (hq.queues a p)
      subst hjob
      by_cases hia : i = a
      · subst hia
        exact .inr ⟨List.mem_cons_self, by simp [Router.handled]⟩
      · exact .inl ⟨by simp [hia], by simp [hia]⟩
  | @probeMeet round k hmain hbuf hpc =>
      by_cases hik : i = k
      · subst hik
        exact .inr ⟨by simp, by simp [Router.handled]⟩
      · exact .inl ⟨by simp [hik], by simp [hik]⟩
  | schedule hpc hm he => exact absurd he (hq.not_offered (hinv _) hm)
  | meet hpc hm he => exact absurd he (hq.not_offered (hinv _) hm)
  | @router a es r hl =>
      obtain ⟨-, rfl⟩ := hq.localStep (hinv a) hl
      refine .inl ⟨by simp, hother ?_⟩
      cases hl with
      | skipped | left => rfl
      | received hpc | relaxed hpc | relaxDone hpc =>
          have hheld := hq.held a
          rw [hpc] at hheld
          cases hheld
      | copied hpc | reset hpc => exact absurd hpc (hq.not_copy (hinv a) _)
  | reply | replyMeet => exact .inl ⟨by simp, hother rfl⟩
  | probe | collect | abort => exact .inl ⟨by simp, rfl⟩
  | main hm => exact .inl ⟨by cases hm <;> simp, rfl⟩

/-- The same for a whole execution. -/
theorem QuietCall.exec {log : List (Event n)} (h : QuietCall s) (hr : (stress C).Run log s)
    {as : List (Action n)} (he : (stress C).exec s as = some (es, s')) :
    QuietCall s' ∧ ∀ i, TakenStored i es (s.routers i).selects (s'.routers i).selects := by
  induction as generalizing log s es with
  | nil =>
      simp only [Lts.exec_nil, Option.some.injEq, Prod.mk.injEq] at he
      obtain ⟨rfl, rfl⟩ := he
      exact ⟨h, fun i => .inl ⟨by simp, rfl⟩⟩
  | cons a as ih =>
      obtain ⟨es₁, s₁, es₂, hstep, hexec, rfl⟩ := (stress C).exec_cons_eq_some.mp he
      have hinv := run_routerInv hr
      have ht := (trans_of_step hstep).2
      obtain ⟨hcall, htaken⟩ := ih (h.step hinv ht) (hr.step hstep) hexec
      exact ⟨hcall, fun i => (h.quiescent.selects_step hinv ht i).append (htaken i)⟩

/-! ## the call as a whole -/

/-- What the log of a call holds has happened since it was empty. -/
theorem mem_of_mem_current {c : CallLog n} {e : Event n}
    (h : e ∈ (es.foldl CallLog.add c).current) : e ∈ c.current ∨ e ∈ es := by
  induction es generalizing c with
  | nil => exact .inl h
  | cons x es ih =>
      rcases ih h with hold | hnew
      · cases hx : x.isRound with
        | true =>
            cases x with
            | round r => cases r <;> cases hold
            | accept | take | begin | probe | reply | collect => cases hx
        | false =>
            have hadd := CallLog.foldl_add (show ∀ e ∈ [x], e.isRound = false by simpa using hx) c
            rw [List.foldl_cons, List.foldl_nil] at hadd
            rw [hadd] at hold
            refine (List.mem_append.mp hold).imp_right fun hmem => ?_
            rw [List.mem_singleton.mp (List.mem_of_mem_filter hmem)]
            exact List.mem_cons_self
      · exact .inr (List.mem_cons_of_mem x hnew)

/-- No assertion fails when the accepted vectors are the current ones. -/
theorem QuietCall.fault_eq_none {log : List (Event n)} (h : QuietCall s)
    (hT : C.topology.TwoWay) (hr : (stress C).Run log s) : s.fault = none := by
  refine fault_eq_none_of hT hr (fun _ => h.quiescent.driverged) fun src dst p _ hcompleted => ?_
  obtain rfl := h.main.completed src p hcompleted
  rw [C.topology.floydWarshall_eq_least]
  exact h.quiescent.dist_eq_least hT hr src dst

end Steps

/-- **Convergence detection has no false negatives and leaves the routers alone.**
A call of `check_done` that begins when no vector is stored or being processed and
nobody sends or diverges can only return `true`, no assertion fails, and every router
has the same buffers, counters and flag as before; its select list has `NULL` as the
`job` of entry 1 and is else the same. -/
theorem quiet_call {C : Config n} {log es : List (Event n)} {s s' : State n}
    {as : List (Action n)} (hT : C.topology.TwoWay) (hr : (stress C).Run log s)
    (hpc : s.main.pc = .between) (hq : s.Quiescent)
    (he : (stress C).exec s (.main :: as) = some (es, s')) :
    s'.fault = none ∧
    (∀ i, (s'.routers i).buffer = (s.routers i).buffer ∧
      (s'.routers i).selects.selectCount = (s.routers i).selects.selectCount ∧
      (s'.routers i).driverged = (s.routers i).driverged) ∧
    ∀ result, s'.main.pc.returned = some result → result = true ∧
      ∀ i, (s'.routers i).selects = (s.routers i).selects.storeJob none := by
  have hr' := hr.exec he
  obtain ⟨hq', hbuf, -⟩ := hq.exec hr he
  obtain ⟨es₁, s₁, es₂, hstep, hexec, rfl⟩ := (stress C).exec_cons_eq_some.mp he
  have hfirst : es₁ = [.round .first] ∧ s₁ = s.setMain s.main.call := by
    have hs : step C s .main = some (es₁, s₁) := hstep
    have hmain : stepMain C s = some (es₁, s₁) := by
      simpa [step, (trans_of_step hs).1] using hs
    simp only [stepMain, hpc, Option.some.injEq, Prod.mk.injEq] at hmain
    exact ⟨hmain.1.symm, hmain.2.symm⟩
  obtain ⟨rfl, rfl⟩ := hfirst
  have hidle := (run_probeInv hr).idle (by rw [probeView_main, hpc]; rfl)
  have hcall : QuietCall (s.setMain s.main.call) :=
    ⟨⟨hq.queues, hq.held, hq.selectCount, hq.driverged⟩, QuietMain.call s.main, by
      intro job hjob
      rw [show (s.setMain s.main.call).completedQueue = [] from hidle.1] at hjob
      cases hjob⟩
  obtain ⟨hend, htaken⟩ := hcall.exec (hr.step hstep) hexec
  refine ⟨hend.fault_eq_none hT hr', fun i => ⟨hbuf i, ?_, ?_⟩, fun result hresult => ?_⟩
  · rw [hq'.selectCount, hq.selectCount]
  · rw [hq'.driverged, hq.driverged]
  · have hrunning := hend.main.running
    obtain ⟨rfl, hacc⟩ : result = true ∧ s'.main.pc.accepted = true := by
      cases hpc' : s'.main.pc with
      | between => exact absurd hpc' hrunning
      | close | join | joined =>
          rw [hpc'] at hresult
          exact ⟨(Option.some.inj hresult).symm, rfl⟩
      | probe | collect | compare | results =>
          rw [hpc'] at hresult
          cases hresult
    refine ⟨rfl, fun i => ?_⟩
    -- every router has answered, so it has taken its `NULL` in this call
    have hprobe := run_probeInv hr'
    obtain ⟨-, hn, -⟩ := (position_of_accepted hacc).mp hprobe.position
    obtain ⟨⟨job, epoch, hanswer⟩, -⟩ := hprobe.settled hn i
    have hasked := hprobe.asked_of_answer hanswer
    rw [CallLog.Asked, ← List.append_assoc, callLog_append, callLog_append, List.foldl_cons,
      List.foldl_nil] at hasked
    have hmem : Event.take i none ∈ es₂ :=
      (mem_of_mem_current hasked).resolve_left (by simp [CallLog.add])
    rcases htaken i with ⟨hnone, -⟩ | ⟨-, hstored⟩
    · exact absurd hmem hnone
    · exact hstored

/-- The job in entry 1 of the select list. -/
def SelectList.takenJob (l : SelectList n) : Option (Job n) := l.entries[1]?.map Select.job

/-- The two routers have settled, and one whole call follows. -/
theorem exists_quiet_call : ∃ log s es s' as, (stress twoRouters).Run log s ∧
    s.main.pc = .between ∧ s.Quiescent ∧
    (stress twoRouters).exec s (.main :: as) = some (es, s') ∧ s'.main.pc = .close ∧
    (s.routers 0).selects.takenJob = some (some ⟨1, 1⟩) ∧
    (s'.routers 0).selects.takenJob = some none := by
  obtain ⟨log, s, hr, hp⟩ := Lts.Run.exists_of_exec (stress twoRouters) (unroll twoRoutersSettle)
    (fun q => decide ((q.2.main.pc = .between ∧
      (q.2.routers 0).selects.takenJob = some (some ⟨1, 1⟩)) ∧
      (∀ i, q.2.queues i = [] ∧ (q.2.routers i).pc = .select ∧
        (q.2.routers i).selects.selectCount = 2 ∧ (q.2.routers i).driverged = false) ∧
      (((stress twoRouters).exec q.2 (.main :: unroll
        ([(3, .main)] ++ twoRoutersCall.tail ++ [(7, .main)]))).any fun r =>
          decide (r.2.main.pc = .close ∧ (r.2.routers 0).selects.takenJob = some none)) = true))
    (by decide +kernel)
  obtain ⟨⟨hpc, hjob⟩, hsettled, hcall⟩ := of_decide_eq_true hp
  obtain ⟨⟨es, s'⟩, hexec, hend⟩ := (Option.any_eq_true _ _).mp hcall
  obtain ⟨hclose, hnull⟩ := of_decide_eq_true hend
  exact ⟨log, s, es, s', _, hr, hpc, State.quiescent_of_select hsettled, hexec, hclose, hjob, hnull⟩

/-- The settled routers are called and the main thread goes on to stop them. -/
theorem quiet_call_twoRouters : ∃ log s es s' as, (stress twoRouters).Run log s ∧
    (stress twoRouters).exec s (.main :: as) = some (es, s') ∧ s'.main.pc = .close ∧
    s'.fault = none ∧ ∀ i, (s'.routers i).selects = (s.routers i).selects.storeJob none := by
  obtain ⟨log, s, es, s', as, hr, hpc, hq, hexec, hclose, -⟩ := exists_quiet_call
  obtain ⟨hf, -, hreturned⟩ := quiet_call (by decide) hr hpc hq hexec
  exact ⟨log, s, es, s', as, hr, hexec, hclose, hf, (hreturned true (by rw [hclose]; rfl)).2⟩

/-- **The select list is not quite as before**: entry 1 of router 0 holds the last
vector it took before the call, and `NULL` after it. -/
theorem taken_job_changes :
    ¬ ∀ (C : Config 2) (log es : List (Event 2)) (s s' : State 2) (as : List (Action 2)),
      C.topology.TwoWay → (stress C).Run log s → s.main.pc = .between → s.Quiescent →
      (stress C).exec s (.main :: as) = some (es, s') → s'.main.pc.returned = some true →
      ∀ i, (s'.routers i).selects = (s.routers i).selects := by
  intro hall
  obtain ⟨log, s, es, s', as, hr, hpc, hq, hexec, hclose, hjob, hnull⟩ := exists_quiet_call
  have hsame := hall twoRouters log es s s' as (by decide) hr hpc hq hexec (by rw [hclose]; rfl) 0
  rw [hsame, hjob] at hnull
  cases hnull

end ConcurrencyLab
