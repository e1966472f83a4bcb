import ConcurrencyLab.Finish
import ConcurrencyLab.Reuse

/-!
# ConcurrencyLab.Rendezvous

What `buffer_size = 0` is enough for.

With nothing stored, the routers that are probed wait for each other in line 190
(`WaitInv`), so a first round without a `NULL` answer describes one moment, and
that moment is quiet.

* `first_round_decides` — from there on the second round is a formality: every answer
  is the current vector, the call returns `true`, and the run ends as it should;
* `vectors_race_free` — no thread ever looks at a vector that its owner is writing or
  has released, whatever the topology.
-/

namespace ConcurrencyLab

variable {n : Nat}

section Steps

variable {C : Config n} {log : List (Event n)} {s s' : State n} {es : List (Event n)}

/-! ## the second round -/

/-- An answer from the current epoch names the current vector. -/
theorem current_of_answer (hr : (stress C).Run log s) {i : Fin n} {p : StatePtr n} {epoch : Nat}
    (ha : ⟨i, some p, epoch⟩ ∈ answers log) (hepoch : epoch = (s.routers i).buffer.curr.epoch) :
    p = s.current i := by
  obtain ⟨howner, hslot⟩ := (run_answerInv hr ha).job p rfl
  have hcurr := (run_routerInv hr i).buffer.curr_slot
  obtain ⟨owner, slot⟩ := p
  simp only at howner hslot
  rw [hepoch, ← hcurr] at hslot
  rw [howner, Fin.ext hslot]
  rfl

/-- The step that starts the second round starts it with a valid call. -/
theorem Trans.main_of_round_second (h : Trans C s [.round .second] s') :
    s'.main = s.main.goto (.probe .second 0) ∧ s.main.valid = true := by
  cases h with
  | main hm => cases hm with
    | firstValid hpc hk hvalid => exact ⟨rfl, hvalid⟩
  | router hl => cases hl

/-- **A second round is a quiet call.** -/
theorem run_secondRound (h : (stress C).Run log s) (hbuf : C.bufferSize = 0)
    (hround : (callLog log).round = some .second) : QuietCall s := by
  refine h.invariant (P := fun log s => (callLog log).round = some .second → QuietCall s)
    (fun hround => by cases hround) (fun {log s a es s'} hr hp hs hround => ?_) hround
  have ht := (trans_of_step hs).2
  have hinv := run_routerInv hr
  rcases ht.round_cases with hes | ⟨⟨r, rfl⟩, -⟩
  · rw [callLog_append, CallLog.foldl_add hes] at hround
    exact (hp hround).step hinv ht
  · cases r with
    | first =>
        rw [callLog_append] at hround
        cases hround
    | second =>
        obtain ⟨hmain, hvalid⟩ := ht.main_of_round_second
        have hr' := hr.step hs
        obtain ⟨hq, hepoch⟩ := (run_waitInv hr' hbuf).second hround
        refine ⟨hq, ⟨?_, ?_, fun i p hp => ?_, ?_⟩, ?_⟩
        · rw [hmain]; exact hvalid
        · rw [hmain]; simp [Main.goto]
        · obtain ⟨q, epoch, hmem, hcompleted⟩ := (run_probeInv hr').second hround i
          obtain rfl : q = p := Option.some.inj (hcompleted.symm.trans hp)
          exact current_of_answer hr' (mem_answers_of_callLog (.inl hmem)) (hepoch _ hmem)
        · rw [hmain]; simp [Main.goto]
        · intro job hjob
          rw [run_completed_eq_nil hr' hbuf] at hjob
          cases hjob

/-- What is left of a call in its second round. -/
theorem Position.todo_le {c : CallLog n} {pc : MainPc n} (h : Position c pc)
    (hround : c.round = some .second) : pc.todo ≤ secondSteps n := by
  have hprobes : ∀ k, (n - k) * probeSteps n ≤ n * probeSteps n := fun k =>
    Nat.mul_le_mul_right _ (Nat.sub_le n k)
  cases pc with
  | between | joined => exact Nat.zero_le _
  | probe round k =>
      obtain rfl : round = .second := Option.some.inj (h.1.symm.trans hround)
      have hk := hprobes k
      simp only [MainPc.todo, secondSteps]
      omega
  | collect round k =>
      obtain rfl : round = .second := Option.some.inj (h.1.symm.trans hround)
      simp only [MainPc.todo, secondSteps]
      omega
  | compare k new =>
      simp only [MainPc.todo, secondSteps]
      omega
  | results src dst =>
      have hrows : (n - src) * (n + 2) ≤ n * (n + 2) := Nat.mul_le_mul_right _ (Nat.sub_le n src)
      simp only [MainPc.todo, secondSteps, resultSteps]
      omega
  | close | join => simp only [MainPc.todo, secondSteps, resultSteps]; omega

/-- What the routers do in a quiet call is soon done. -/
theorem QuietCall.charge_le (h : QuietCall s) (hinv : ∀ i, (s.routers i).Inv C.topology i) :
    ∑ i, (s.routers i).work + ∑ i, (s.routers i).pc.pending ≤ s.unused + 5 * n := by
  have hrouter : ∀ i, (s.routers i).work + (s.routers i).pc.pending ≤
      epochWork n * ∑ k, (s.routers i).buffer.curr.dist k + 5 := by
    intro i
    have hheld := h.quiescent.held i
    have hpc : (s.routers i).pc.work + (s.routers i).pc.pending ≤ 5 := by
      cases hpc : (s.routers i).pc with
      | received | relax => rw [hpc] at hheld; cases hheld
      | copy m => exact absurd hpc (h.quiescent.not_copy (hinv i) m)
      | select | reply | check | exited => simp [RouterPc.work, RouterPc.pending]
    rw [Router.work, h.quiescent.selectCount i]
    omega
  have hsum := Finset.sum_le_sum fun i (_ : i ∈ Finset.univ) => hrouter i
  rw [Finset.sum_add_distrib, Finset.sum_add_distrib, Finset.sum_const, Finset.card_univ,
    Fintype.card_fin, smul_eq_mul] at hsum
  unfold State.unused
  omega

/-! ## who writes at quiescence -/

theorem State.Quiescent.not_writes (hq : s.Quiescent) (hinv : ∀ i, (s.routers i).Inv C.topology i)
    (p : StatePtr n) : ¬ s.Writes p := by
  intro hw
  cases hw with
  | entry hpc =>
      have hheld := hq.held p.owner
      rw [hpc] at hheld
      cases hheld
  | epoch hpc hreset =>
      have hdiv := hreset.2
      rw [hq.driverged] at hdiv
      cases hdiv
  | copy hpc => exact hq.not_copy (hinv p.owner) _ hpc

/-- With nothing stored, an answer that is being taken is offered by its owner. -/
theorem owner_replying (hr : (stress C).Run log s) (hbuf : C.bufferSize = 0) {p : StatePtr n}
    (hq : s.completedQueue.head? = some (some p) ∨ ∃ i, (s.routers i).pc = .reply (some p)) :
    (s.routers p.owner).pc = .reply (some p) := by
  rcases hq with hstored | ⟨i, hpc⟩
  · rw [run_completed_eq_nil hr hbuf] at hstored
    cases hstored
  · have hown := (run_routerInv hr i).reply _ hpc
    split at hown
    · cases hown
      exact hpc
    · cases hown

/-- No router writes a vector that a neighbour is processing. -/
theorem not_writes_of_held (hr : (stress C).Run log s) (hbuf : C.bufferSize = 0) {j : Fin n}
    {p : StatePtr n} (hheld : (s.routers j).pc.held = some p) : ¬ s.Writes p := by
  have hwhere : (stress C).RunWhere (BeginsUnread C) log s :=
    .of_run (fun _ _ e _ i _ => .inl hbuf) hr
  have hnext := (run_heldInv hwhere).not_inUse_next (run_completedInv hwhere) (run_routerInv hr)
    (run_pipeInv hr) p.owner
  have hslot : p.slot ≠ (s.routers p.owner).buffer.nextState := by
    intro heq
    refine hnext (.inr ⟨j, .inr ?_⟩)
    rw [← heq]
    exact hheld
  intro hw
  cases hw with
  | entry hpc hlt hsame => exact hslot hsame
  | copy hpc hsame => exact hslot hsame
  | epoch hpc hreset hsame =>
      refine not_inUse_prev_of_rendezvous hr hbuf hpc hreset (.inr ⟨j, .inr ?_⟩)
      rw [← hsame]
      exact hheld

/-- What the main thread looks at after the first round is not written. -/
theorem not_writes_of_second (hr : (stress C).Run log s) (hbuf : C.bufferSize = 0)
    (hround : (callLog log).round = some .second) (p : StatePtr n) : ¬ s.Writes p :=
  (run_secondRound hr hbuf hround).quiescent.not_writes (run_routerInv hr) p

theorem quiescent_of_closed (hr : (stress C).Run log s) (hbuf : C.bufferSize = 0)
    (hclosed : s.doneClosed = true) : s.Quiescent := by
  have hclosing := (run_closeInv hr).closed
  rw [hclosed] at hclosing
  have hposition := (run_probeInv hr).position
  have hacc := (position_of_accepted (MainPc.accepted_of_closing hclosing.symm)).mp hposition
  exact (run_secondRound hr hbuf hacc.1).quiescent

end Steps

/-- The drivers store nothing. -/
def Config.rendezvous (T : Topology n) : Config n where
  topology := T
  bufferSize := 0
  bufferSize_le := Nat.zero_le 1

/-- The two routers without room for jobs. -/
def meetingRouters : Config 2 := .rendezvous twoRouters.topology

/-- A job is taken out of a driver that has stored it. -/
def Action.isHandle : Action n → Bool
  | .handle _ => true
  | _ => false

/-- They come to rest as with room, each job being taken as it is sent. -/
def meetingSettle : List (Nat × Action 2) := twoRoutersSettle.filter fun run => !run.2.isHandle

/-- **With nothing stored, the first round decides.**  From every reachable state in the
second round of a call or after it, the run takes no more than `2 * n ^ 2 + 16 * n + 7`
steps under any schedule; in all of them the call stays valid, it does not return
`false`, no vector of any router changes and no assertion fails, and where the run
stops it has finished. -/
theorem first_round_decides {C : Config n} {log : List (Event n)} {s : State n}
    (hT : C.topology.TwoWay) (hbuf : C.bufferSize = 0) (h : (stress C).Run log s)
    (hround : (callLog log).round = some .second) :
    ∀ as es s', (stress C).exec s as = some (es, s') →
      as.length ≤ 2 * n ^ 2 + 16 * n + 7 ∧ s'.main.valid = true ∧ s'.main.pc ≠ .between ∧
      (∀ i, (s'.routers i).buffer = (s.routers i).buffer) ∧ s'.fault = none ∧
      (¬ (stress C).Enabled s' → s'.Finished C) := by
  intro as es s' he
  have hcall := run_secondRound h hbuf hround
  have hr' := h.exec he
  obtain ⟨hend, -⟩ := hcall.exec h he
  obtain ⟨-, hbuffer, -⟩ := hcall.quiescent.exec h he
  refine ⟨?_, hend.main.valid, hend.main.running, hbuffer, hend.fault_eq_none hT hr',
    hend.finished_of_stuck hT hr'⟩
  have hle := exec_length_le_potential h he
  rw [hcall.calls_eq_zero h he, Nat.mul_zero, Nat.add_zero] at hle
  have hunused : s'.unused = s.unused := by simp only [State.unused, hbuffer]
  have hlow := s'.unused_le_potential
  have hcharge := hcall.charge_le (run_routerInv h)
  have hqueues : ∑ i, (s.queues i).length = 0 :=
    Finset.sum_eq_zero fun i _ => by rw [C.eq_nil_of_rendezvous hbuf (run_room h i)]; rfl
  have hanswers : s.completedQueue.length = 0 := by
    rw [run_completed_eq_nil h hbuf]; rfl
  have htodo := Position.todo_le (run_probeInv h).position hround
  have hsteps : secondSteps n = 2 * n ^ 2 + 11 * n + 6 := by
    simp only [secondSteps, probeSteps, resultSteps, jobWork]
    ring
  rw [probeView_main, hsteps] at htodo
  have hpotential : s.potential ≤ s.unused + (2 * n ^ 2 + 16 * n + 7) := by
    rw [State.potential, State.charge, State.work, hqueues, State.dues, hanswers,
      hcall.fault_eq_none hT h]
    simp only [Option.elim]
    omega
  omega

/-- The two routers have given their first answers. -/
theorem first_round_decides_twoRouters : ∃ log s, (stress meetingRouters).Run log s ∧
    s.main.pc = .probe .second 0 ∧ ∀ as es s', (stress meetingRouters).exec s as = some (es, s') →
      as.length ≤ 47 ∧ s'.main.pc ≠ .between ∧ s'.fault = none ∧
      (¬ (stress meetingRouters).Enabled s' → s'.Finished meetingRouters) := by
  obtain ⟨log, s, hr, hp⟩ := Lts.Run.exists_of_exec (stress meetingRouters)
    (unroll (meetingSettle ++ [(4, .main), (1, .reply 0), (1, .reply 1), (1, .main)]))
    (fun q => decide (q.2.main.pc = .probe .second 0 ∧ (callLog q.1).round = some .second))
    (by decide +kernel)
  obtain ⟨hpc, hround⟩ := of_decide_eq_true hp
  refine ⟨log, s, hr, hpc, fun as es s' he => ?_⟩
  obtain ⟨hlen, -, hbetween, -, hf, hend⟩ :=
    first_round_decides (by decide) rfl hr hround as es s' he
  exact ⟨hlen, hbetween, hf, hend⟩

/-- **With nothing stored, the vectors are free of races**, whatever the topology: a
vector that another router or the main thread looks at, now or in its next step, is
not written by its owner's next step and has not been released. -/
theorem vectors_race_free {C : Config n} {log : List (Event n)} {s : State n}
    (hbuf : C.bufferSize = 0) (h : (stress C).Run log s) {p : StatePtr n} (hread : s.Read p) :
    ¬ s.Writes p ∧ (s.routers p.owner).pc ≠ .exited := by
  refine ⟨?_, not_exited_of_read h (quiescent_of_closed h hbuf) hread⟩
  have hposition : Position (callLog log) s.main.pc := (run_probeInv h).position
  cases hread with
  | neighbor hheld => exact not_writes_of_held h hbuf hheld
  | collected hpc hq =>
      have hreply := owner_replying h hbuf hq
      intro hw
      cases hw with
      | entry hpc' | epoch hpc' | copy hpc' => rw [hreply] at hpc'; cases hpc'
  | compared hpc =>
      rw [hpc] at hposition
      exact not_writes_of_second h hbuf hposition.1 p
  | checked hpc =>
      rw [hpc] at hposition
      exact not_writes_of_second h hbuf hposition.1 p

/-- Router 0 is processing the first vector of router 1. -/
theorem vectors_race_free_twoRouters : ∃ log s, (stress meetingRouters).Run log s ∧
    s.Read ⟨1, 1⟩ ∧ ¬ s.Writes ⟨1, 1⟩ ∧ (s.routers 1).pc ≠ .exited := by
  obtain ⟨log, s, hr, hp⟩ := Lts.Run.exists_of_exec (stress meetingRouters) [.schedule 1 2]
    (fun q => decide ((q.2.routers 0).pc.held = some ⟨1, 1⟩)) (by decide +kernel)
  have hread : s.Read ⟨1, 1⟩ := .neighbor (of_decide_eq_true hp)
  exact ⟨log, s, hr, hread, vectors_race_free rfl hr hread⟩

end ConcurrencyLab
