import ConcurrencyLab.Acceptance
import ConcurrencyLab.Termination

/-!
# ConcurrencyLab.Shutdown

From `driver_close(done_driver)` on.  When what `check_done` has accepted is
final, the routers find nothing to do but leave (`Closing.step_cases`), which
takes a bounded number of steps; a vector is released only when nobody will
look at it again.

Whether it is final is a question about `check_done`: see
`ConcurrencyLab.Acceptance`.  When a wrong call is accepted, a router that has
left may release a vector another router is reading
(`released_vector_read`).
-/

namespace ConcurrencyLab

variable {n : Nat}

/-- Some thread other than the owner looks at the vector at `p`, now or in its
next step: a router in lines 177-186, or the main thread in lines 255, 274-275
and 284. -/
inductive State.Read (s : State n) (p : StatePtr n) : Prop
  | neighbor {i : Fin n} (hheld : (s.routers i).pc.held = some p)
  | collected {round : Round} {k : Nat} (hpc : s.main.pc = .collect round k)
      (hq : s.completedQueue.head? = some (some p) ∨ ∃ i, (s.routers i).pc = .reply (some p))
  | compared {k : Nat} {new : StatePtr n} (hpc : s.main.pc = .compare k new)
      (hp : p = new ∨ s.main.completed (s.load new).src = some p)
  | checked {src : Fin n} {dst : Nat} (hpc : s.main.pc = .results src.val dst)
      (hp : s.main.completed src = some p)

/-- All is quiet and `done_driver` is closed. -/
structure Closing (C : Config n) (s : State n) : Prop where
  run : ∃ log, (stress C).Run log s
  quiescent : s.Quiescent
  closed : s.doneClosed = true

section Steps

variable {C : Config n} {s s' : State n} {es : List (Event n)}

theorem Closing.main (h : Closing C s) : s.main.pc = .joined ∨ ∃ i, s.main.pc = .join i := by
  obtain ⟨log, hr⟩ := h.run
  have hclosing := (run_closeInv hr).closed
  rw [h.closed] at hclosing
  cases hmain : s.main.pc with
  | joined => exact .inl rfl
  | join i => exact .inr ⟨i, rfl⟩
  | between | probe | collect | compare | results | close => rw [hmain] at hclosing; cases hclosing

/-- The main thread has left `check_done`. -/
theorem Closing.not_probing (h : Closing C s) : s.main.pc.probing = false := by
  rcases h.main with hmain | ⟨i, hmain⟩ <;> rw [hmain] <;> rfl

/-- Every router waits in its select, or will when it has tested line 201. -/
theorem Closing.pc_cases (h : Closing C s) (i : Fin n) : (s.routers i).pc = .select ∨
    (s.routers i).pc = .check ∨ (s.routers i).pc = .exited := by
  obtain ⟨log, hr⟩ := h.run
  have hheld := h.quiescent.held i
  have hidle := ((run_probeInv hr).idle h.not_probing).2 i
  rw [probeView_replying] at hidle
  cases hpc : (s.routers i).pc with
  | select => exact .inl rfl
  | check => exact .inr (.inl rfl)
  | exited => exact .inr (.inr rfl)
  | received | relax => rw [hpc] at hheld; cases hheld
  | reply => rw [hpc] at hidle; cases hidle.2
  | copy m => exact absurd hpc (h.quiescent.not_copy (run_routerInv hr i) m)

/-- Nothing is stored, not even a `NULL`. -/
theorem Closing.queue_nil (h : Closing C s) (i : Fin n) : s.queues i = [] := by
  obtain ⟨log, hr⟩ := h.run
  have hidle := ((run_probeInv hr).idle h.not_probing).2 i
  rw [probeView_asked] at hidle
  refine List.eq_nil_iff_forall_not_mem.mpr fun job hmem => ?_
  cases job with
  | some p => exact h.quiescent.queues i p hmem
  | none => exact of_decide_eq_false hidle.1 hmem

/-- **What is left to do**: a router comes back to its select or leaves, the main
thread joins the next one or is done. -/
theorem Closing.step_cases (h : Closing C s) {a : Action n} (hs : step C s a = some (es, s')) :
    (∃ i, (s.routers i).pc = .check ∧ s' = s.setRouter i ((s.routers i).goto .select)) ∨
    (∃ i, (s.routers i).pc = .select ∧ s' = s.setRouter i ((s.routers i).goto .exited)) ∨
    (∃ i : Fin n, s.main.pc = .join i.val ∧ s' = s.setMain (s.main.goto (.join (i.val + 1)))) ∨
    (∃ i, s.main.pc = .join i ∧ s' = s.setMain (s.main.goto .joined)) := by
  obtain ⟨log, hr⟩ := h.run
  have hclosing : ∀ pc, s.main.pc = pc → pc = .joined ∨ ∃ i, pc = .join i := by
    rintro pc rfl
    exact h.main
  have hbusy : ∀ {i pc}, (s.routers i).pc = pc → pc = .select ∨ pc = .check ∨ pc = .exited := by
    rintro i pc rfl
    exact h.pc_cases i
  cases (trans_of_step hs).2 with
  | handle hpc hq => rw [h.queue_nil] at hq; cases hq
  | schedule hpc hm he => exact absurd he (h.quiescent.not_offered (run_routerInv hr _) hm)
  | meet hpc hm he => exact absurd he (h.quiescent.not_offered (run_routerInv hr _) hm)
  | @router i es r hl =>
      cases hl with
      | skipped hpc => exact .inl ⟨i, hpc, rfl⟩
      | left hpc => exact .inr (.inl ⟨i, hpc, rfl⟩)
      | rotated hpc hreset =>
          have hd := h.quiescent.driverged i
          rw [hreset.2] at hd
          contradiction
      | received hpc | relaxed hpc | relaxDone hpc | copied hpc | reset hpc =>
          simpa using hbusy hpc
  | reply hpc | replyMeet hpc => simpa using hbusy hpc
  | probe hmain | probeMeet hmain | collect hmain => simpa using hclosing _ hmain
  | main hm =>
      cases hm with
      | joinOne hpc => exact .inr (.inr (.inl ⟨_, hpc, rfl⟩))
      | joinDone hpc => exact .inr (.inr (.inr ⟨_, hpc, rfl⟩))
      | call hpc | probeDone hpc | firstValid hpc | secondValid hpc | invalid hpc | compared hpc
      | resultOk hpc | resultRow hpc | resultsDone hpc | close hpc =>
          simpa using hclosing _ hpc
  | abort hfault =>
      cases hfault with
      | neighborDist hpc => simpa using hbusy hpc
      | @driverged i hpc hclosed hdiv =>
          have hd := h.quiescent.driverged i
          rw [hdiv] at hd
          contradiction
      | result hpc | unwrittenCompare hpc | unwrittenResult hpc => simpa using hclosing _ hpc

/-- No assertion fails any more. -/
theorem Closing.fault_eq_none (h : Closing C s) : s.fault = none := by
  by_contra hne
  obtain ⟨f, hf⟩ := Option.ne_none_iff_exists'.mp hne
  obtain ⟨log, hr⟩ := h.run
  have hmain := h.main
  cases run_faulty hr hf with
  | @neighborDist i p hpc =>
      have hheld := h.quiescent.held i
      rw [hpc] at hheld
      cases hheld
  | @driverged i hpc hclosed hdiv =>
      rw [h.quiescent.driverged i] at hdiv
      contradiction
  | result hpc | unwrittenCompare hpc | unwrittenResult hpc => simp [hpc] at hmain

/-! ## the way out -/

/-- Steps a router has left. -/
def RouterPc.leaving : RouterPc n → Nat
  | .exited => 0
  | .select => 1
  | _ => 2

/-- Steps the main thread has left. -/
def MainPc.joining : MainPc n → Nat
  | .join i => n - i + 1
  | _ => 0

def State.leaving (s : State n) : Nat := ∑ i, (s.routers i).pc.leaving + s.main.pc.joining

theorem State.leaving_setRouter (s : State n) (i : Fin n) (r : Router n) :
    (s.setRouter i r).leaving + (s.routers i).pc.leaving = s.leaving + r.pc.leaving := by
  have hsum := sum_add_eq_of_eq_off (f := fun x => (s.routers x).pc.leaving)
    (g := fun x => ((s.setRouter i r).routers x).pc.leaving) i fun x hx => by simp [hx]
  simp only [State.routers_setRouter, if_true] at hsum
  have hmain : (s.setRouter i r).main = s.main := rfl
  simp only [leaving, State.routers_setRouter, hmain]
  omega

theorem State.leaving_le (s : State n) : s.leaving ≤ 3 * n + 1 := by
  have hrouters : ∑ i, (s.routers i).pc.leaving ≤ ∑ _i : Fin n, 2 :=
    Finset.sum_le_sum fun i _ => by cases (s.routers i).pc <;> simp [RouterPc.leaving]
  have hmain : s.main.pc.joining ≤ n + 1 := by
    cases s.main.pc <;> simp only [MainPc.joining] <;> omega
  rw [Finset.sum_const, Finset.card_univ, Fintype.card_fin, smul_eq_mul] at hrouters
  simp only [leaving]
  omega

/-- Every step is one step less. -/
theorem Closing.leaving_lt (h : Closing C s) {a : Action n} (hs : step C s a = some (es, s')) :
    Closing C s' ∧ s'.leaving < s.leaving := by
  obtain ⟨log, hr⟩ := h.run
  have hq' := (h.quiescent.step (run_routerInv hr) (trans_of_step hs).2).1
  have hclosing : s'.doneClosed = true → Closing C s' := fun hc => ⟨⟨_, hr.step hs⟩, hq', hc⟩
  rcases h.step_cases hs with ⟨i, hpc, rfl⟩ | ⟨i, hpc, rfl⟩ | ⟨i, hmain, rfl⟩ | ⟨i, hmain, rfl⟩
  · have hsum := s.leaving_setRouter i ((s.routers i).goto .select)
    rw [hpc] at hsum
    simp only [RouterPc.leaving, Router.goto] at hsum
    exact ⟨hclosing h.closed, by simp only [Router.goto]; omega⟩
  · have hsum := s.leaving_setRouter i ((s.routers i).goto .exited)
    rw [hpc] at hsum
    simp only [RouterPc.leaving, Router.goto] at hsum
    exact ⟨hclosing h.closed, by simp only [Router.goto]; omega⟩
  · refine ⟨hclosing h.closed, ?_⟩
    have hlt := i.isLt
    simp only [State.leaving, State.setMain, Main.goto, hmain, MainPc.joining]
    omega
  · refine ⟨hclosing h.closed, ?_⟩
    simp only [State.leaving, State.setMain, Main.goto, hmain, MainPc.joining]
    omega

theorem Closing.exec (h : Closing C s) {as : List (Action n)}
    (he : (stress C).exec s as = some (es, s')) : Closing C s' ∧ as.length ≤ 3 * n + 1 := by
  have hlen := (stress C).exec_length_le (A := fun _ => True) (P := Closing C) State.leaving
    (fun _ hp hs => hp.leaving_lt hs) (fun _ _ => trivial) he h
  have hle := s.leaving_le
  exact ⟨(stress C).exec_preserves (fun hp hs => (hp.leaving_lt hs).1) he h, by omega⟩

/-- Where nothing can happen, every router has left. -/
theorem Closing.exited_of_stuck (h : Closing C s) (hstuck : ¬ (stress C).Enabled s) (i : Fin n) :
    (s.routers i).pc = .exited := by
  have hf := h.fault_eq_none
  rcases h.pc_cases i with hpc | hpc | hpc
  · exact absurd (enabled_of_isSome (closed_isSome hf hpc h.closed)) hstuck
  · exact absurd (enabled_of_isSome (continue_isSome hf (by rw [hpc]; rfl))) hstuck
  · exact hpc

/-- A router's select succeeds no more: only `done_driver` can end it. -/
theorem Closing.select_fails (h : Closing C s) (i : Fin n) :
    step C s (.handle i) = none ∧ ∀ m, step C s (.schedule i m) = none := by
  obtain ⟨log, hr⟩ := h.run
  refine ⟨?_, schedule_eq_none (run_routerInv hr i) (h.quiescent.selectCount i)⟩
  simp [step, stepHandle, h.queue_nil i]

/-- Before `done_driver` is closed nothing is released, and then nothing is
looked at. -/
theorem not_exited_of_read {log : List (Event n)} (hr : (stress C).Run log s)
    (hquiet : s.doneClosed = true → s.Quiescent) {p : StatePtr n} (h : s.Read p) :
    (s.routers p.owner).pc ≠ .exited := by
  intro hpc
  have hclose := run_closeInv hr
  have hclosed := hclose.exited _ hpc
  have hmain := (Closing.mk ⟨log, hr⟩ (hquiet hclosed) hclosed).main
  cases h with
  | @neighbor i hheld =>
      rw [(hquiet hclosed).held i] at hheld
      cases hheld
  | collected hpc' | compared hpc' | checked hpc' => simp [hpc'] at hmain

end Steps

/-- **Shutdown is safe, as long as addresses tell epochs.**  In a run in which no
router has answered with the same vector in both rounds of a call from different
epochs, no assertion has failed and nobody looks at a vector whose owner has
left; once `done_driver` is closed, a router's select can only report that, with
`driverged` false, and after a bounded number of steps all routers have left. -/
theorem shutdown_safe {C : Config n} {log : List (Event n)} {s : State n}
    (hT : C.topology.TwoWay) (h : (stress C).RunWhere (AddressTellsEpoch C) log s) :
    s.fault = none ∧ (∀ p, s.Read p → (s.routers p.owner).pc ≠ .exited) ∧
    (s.doneClosed = true →
      (∀ i, (s.routers i).driverged = false ∧ step C s (.handle i) = none ∧
        ∀ m, step C s (.schedule i m) = none) ∧
      ∀ as es s', (stress C).exec s as = some (es, s') → as.length ≤ 3 * n + 1 ∧
        (¬ (stress C).Enabled s' → ∀ i, (s'.routers i).pc = .exited)) := by
  have hclosing : s.doneClosed = true → Closing C s := by
    intro hclosed
    have hmain := (run_closeInv h.run).closed
    rw [hclosed] at hmain
    exact ⟨⟨log, h.run⟩, (run_finalAnswers h (MainPc.accepted_of_closing hmain.symm)).1, hclosed⟩
  refine ⟨run_fault_eq_none hT h, fun p => ?_, fun hclosed => ⟨fun i => ?_, fun as es s' he => ?_⟩⟩
  · exact not_exited_of_read h.run fun hclosed => (hclosing hclosed).quiescent
  · exact ⟨(hclosing hclosed).quiescent.driverged i, (hclosing hclosed).select_fails i⟩
  · obtain ⟨hc, hlen⟩ := (hclosing hclosed).exec he
    exact ⟨hlen, hc.exited_of_stuck⟩

/-- Two routers after an accepted call. -/
theorem shutdown_safe_twoRouters : ∃ log s,
    (stress twoRouters).RunWhere (AddressTellsEpoch twoRouters) log s ∧ s.doneClosed = true ∧
    (s.routers 0).pc = .exited ∧ s.fault = none ∧
    (∀ p, s.Read p → (s.routers p.owner).pc ≠ .exited) ∧
    ∀ as es s', (stress twoRouters).exec s as = some (es, s') → as.length ≤ 7 ∧
      (¬ (stress twoRouters).Enabled s' → ∀ i, (s'.routers i).pc = .exited) := by
  obtain ⟨log, s, hr, hp⟩ := Lts.RunWhere.exists_of_exec (stress twoRouters)
    (AddressTellsEpoch twoRouters)
    (unroll (twoRoutersSettle ++ twoRoutersCall ++ [(8, .main), (1, .closed 0)]))
    (fun q => decide (q.2.doneClosed = true ∧ (q.2.routers 0).pc = .exited))
    (by decide +kernel)
  obtain ⟨hclosed, hpc⟩ : s.doneClosed = true ∧ (s.routers 0).pc = .exited := of_decide_eq_true hp
  obtain ⟨hf, hread, hend⟩ := shutdown_safe (by decide) hr
  exact ⟨log, s, hr, hclosed, hpc, hf, hread, (hend hclosed).2⟩

/-- **Where it is not safe**: the call is accepted although router 1 has not read
the fourth vector of router 0; it takes it, and router 0 leaves. -/
theorem released_vector_read : (hubRouters 50).topology.TwoWay ∧
    ∃ log s, (stress (hubRouters 50)).Run log s ∧ s.doneClosed = true ∧ s.fault = none ∧
      (s.routers 0).pc = .exited ∧ s.Read ⟨0, 1⟩ ∧
      (step (hubRouters 50) s (.continue 1)).isSome := by
  obtain ⟨log, s, hr, hp⟩ := Lts.Run.exists_of_exec (stress (hubRouters 50))
    (unroll (hubSchedule ++ [(1, .handle 1), (25, .main), (1, .closed 0)]))
    (fun q => decide (q.2.doneClosed = true ∧ q.2.fault = none ∧ (q.2.routers 0).pc = .exited ∧
      (q.2.routers 1).pc.held = some ⟨0, 1⟩ ∧
      (step (hubRouters 50) q.2 (.continue 1)).isSome = true))
    (by decide +kernel)
  obtain ⟨hclosed, hf, hpc, hheld, hsome⟩ := of_decide_eq_true hp
  exact ⟨by decide, log, s, hr, hclosed, hf, hpc, .neighbor hheld, hsome⟩

end ConcurrencyLab
