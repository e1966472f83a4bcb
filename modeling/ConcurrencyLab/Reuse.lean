import ConcurrencyLab.Pipeline

/-!
# ConcurrencyLab.Reuse

When a recycled vector is overwritten.  Line 295 supports buffer sizes up to 1
because the three vectors of a router are meant to be enough for that: one that
is written, one that is being broadcast, one that a neighbour still reads or that
`completed_driver` stores as an answer.

* `Writes` and `load_of_not_writes` — the three places that write a vector
  (lines 183, 209 and 211), and the frame rule: nothing else does;
* `HeldInv`, `CompletedInv` — as long as no epoch begins while the previous vector
  is being read or is stored as an answer, no reader is more than one vector
  behind, and no answer that is stored is written;
* `buffer_reuse_safe_iff` — a step writes a vector in use exactly when it begins
  an epoch although the previous vector is still in use in one of these ways.
  With `buffer_size = 0` that cannot happen, with `buffer_size = 1` both do
  (`buffer_reused_in_use`): a neighbour may be reading one vector while its driver
  stores the next, and both have been accepted; and an answer stays stored until
  `check_done` takes it.
-/

namespace ConcurrencyLab

variable {n : Nat}

/-! ## writing a vector -/

/-- The next step of the router that owns `p` writes the vector at `p`. -/
inductive State.Writes (s : State n) (p : StatePtr n) : Prop
  /-- line 183 -/
  | entry {q : StatePtr n} {neighborDist : Nat} {k : Fin n}
      (hpc : (s.routers p.owner).pc = .relax q neighborDist k.val)
      (hlt : add32 neighborDist ((s.load q).dist k) < (s.routers p.owner).buffer.next.dist k)
      (hslot : p.slot = (s.routers p.owner).buffer.nextState)
  /-- line 209 -/
  | epoch (hpc : (s.routers p.owner).pc = .check) (hreset : (s.routers p.owner).MustReset)
      (hslot : p.slot = (s.routers p.owner).buffer.prevState)
  /-- line 211 -/
  | copy {k : Fin n} (hpc : (s.routers p.owner).pc = .copy k.val)
      (hslot : p.slot = (s.routers p.owner).buffer.nextState)

/-- A driver, `completed_driver` included, stores the address, or a router is
processing the vector. -/
def State.InUse (s : State n) (p : StatePtr n) : Prop :=
  some p ∈ s.completedQueue ∨ ∃ j, some p ∈ s.queues j ∨ (s.routers j).pc.held = some p

section Steps

variable {C : Config n} {log : List (Event n)} {s s' : State n} {es : List (Event n)}

theorem TripleBuffer.states_writeNext {b : TripleBuffer n} {slot : Fin 3} (h : slot ≠ b.nextState)
    (k : Fin n) (d : Nat) : (b.writeNext k d).states slot = b.states slot := by
  simp [writeNext, h]

/-- A router leaves those of its vectors alone that it does not write. -/
theorem Router.Step.states_eq {i : Fin n} {r : Router n}
    (h : Router.Step C.topology s.load i (s.routers i) r) {slot : Fin 3}
    (hw : ¬ s.Writes ⟨i, slot⟩) : r.buffer.states slot = (s.routers i).buffer.states slot := by
  cases h with
  | @relaxed p nd k hpc =>
      unfold Router.relaxed
      split
      · next hlt =>
        have hslot : slot ≠ (s.routers i).buffer.nextState := fun h => hw (.entry hpc hlt h)
        exact TripleBuffer.states_writeNext hslot _ _
      · rfl
  | rotated hpc hreset =>
      have hslot : slot ≠ (s.routers i).buffer.prevState := fun h => hw (.epoch hpc hreset h)
      simp [Router.rotated, TripleBuffer.cycle, hslot]
  | @copied k hpc =>
      have hslot : slot ≠ (s.routers i).buffer.nextState := fun h => hw (.copy hpc h)
      exact TripleBuffer.states_writeNext hslot _ _
  | handled | sent | replied | received | relaxDone | skipped | reset | left => rfl

/-- **Frame rule**: a step of the system leaves a vector alone unless it is one
of the three writes. -/
theorem load_of_not_writes (h : Trans C s es s') {p : StatePtr n} (hw : ¬ s.Writes p) :
    s'.load p = s.load p := by
  rcases h.router_cases p.owner with heq | hstep
  · simp only [State.load, heq]
  · exact hstep.states_eq hw

/-! ## readers that keep up -/

/-- The router whose epoch an event begins. -/
def Event.beginner : Event n → Option (Fin n)
  | .begin i _ => some i
  | _ => none

/-- No epoch begins while the vector of the epoch before the current one is stored
in `completed_driver` or a neighbour is processing it; with nothing stored this
needs no care. -/
def BeginsUnread (C : Config n) (_log : List (Event n)) (s : State n)
    (es : List (Event n)) : Prop :=
  ∀ e ∈ es, ∀ i, e.beginner = some i → C.bufferSize = 0 ∨
    (∀ job ∈ s.completedQueue, job ≠ some ⟨i, (s.routers i).buffer.prevState⟩) ∧
    ∀ j, (s.routers j).pc.held ≠ some ⟨i, (s.routers i).buffer.prevState⟩

instance (C : Config n) (log : List (Event n)) (s : State n) (es : List (Event n)) :
    Decidable (BeginsUnread C log s es) := by
  unfold BeginsUnread; infer_instance

/-- No reader is more than one vector behind the broadcast. -/
def HeldInv (s : State n) : Prop :=
  ∀ i j slot, (s.routers j).pc.held = some ⟨i, slot⟩ →
    (s.routers i).unsentLag j + s.queuedLag i j ≤ 1

theorem heldInv_init (C : Config n) : HeldInv (State.init C) := by
  intro i j slot h
  simp [State.init, Router.init, RouterPc.held] at h

/-- Without room for jobs nothing is ever stored. -/
theorem run_queuedLag_zero (h : (stress C).Run log s) (hbuf : C.bufferSize = 0) (i j : Fin n) :
    s.queuedLag i j = 0 :=
  State.queuedLag_eq_zero (State.not_queued_of_nil (C.eq_nil_of_rendezvous hbuf (run_room h j)))

/-- A new epoch begins: the vector that was current is now the previous one, and
nobody was reading the one before it. -/
theorem HeldInv.rotate (h : HeldInv s) (hr : (stress C).Run log s) {a : Fin n}
    (hpc : (s.routers a).pc = .check) (hreset : (s.routers a).MustReset)
    (hr' : ∀ x, s'.routers x = if x = a then (s.routers a).rotated else s.routers x)
    (hq' : s'.queues = s.queues)
    (hok : BeginsUnread C log s [.begin a (s.routers a).buffer.next]) : HeldInv s' := by
  intro i j slot hheld
  have hold : (s.routers j).pc.held = some ⟨i, slot⟩ := by
    rw [hr'] at hheld
    split at hheld
    · cases hheld
    · exact hheld
  rw [State.queuedLag_congr (s := s) (by simp [hq']), hr']
  split
  · next hia =>
    subst hia
    have hlag := (run_routerInv hr i).unsentLag_rotated (j := j) hpc hreset
    have hslot := ((run_pipeInv hr).held hold).2
    rw [hlag.1, Nat.zero_add] at hslot
    rw [hlag.2]
    -- a stored vector would put the reader at the previous one
    have hnot : ¬ s.Queued i j := by
      intro hqueued
      rcases hok _ List.mem_cons_self i rfl with hbuf | hfree
      · have hzero := run_queuedLag_zero hr hbuf i j
        rw [State.queuedLag_eq_one hqueued] at hzero
        contradiction
      · rw [State.queuedLag_eq_one hqueued] at hslot
        exact hfree.2 j (by rw [hold, hslot]; rfl)
    rw [State.queuedLag_eq_zero hnot]
  · exact h i j slot hold

theorem HeldInv.step (h : HeldInv s) (hr : (stress C).Run log s) (hs : VectorStep C s es s')
    (hok : BeginsUnread C log s es) : HeldInv s' := by
  have hinv := run_routerInv hr
  have hpipe := run_pipeInv hr
  intro i j slot hheld
  cases hs with
  | quiet hq hqueue hes =>
      have hold := (hq j).held hheld
      rw [(hq i).unsentLag (hpipe.held hold).1, State.queuedLag_congr (hqueue j)]
      exact h i j slot hold
  | @take a p s' hpc hq hr' hq' =>
      rw [unsentLag_take hr' (hinv a) hpc]
      by_cases hja : j = a
      · -- the queue of the reader is empty now
        have hempty := State.not_queued_of_nil (s := s') (i := i) (j := j) (by simp [hq', hja])
        have hle := (s.routers i).unsentLag_le j
        rw [State.queuedLag_eq_zero hempty]
        omega
      · rw [State.queuedLag_congr (s := s) (by simp [hq', hja])]
        exact h i j slot (by simpa [hr', hja] using hheld)
  | @accept a b m s' hpc hij hm he hq hr' hq' =>
      have hold := h i j slot (held_accept hr' hheld)
      by_cases hc : i = a ∧ j = b
      · obtain ⟨rfl, rfl⟩ := hc
        have hle := s'.queuedLag_le i j
        rw [unsentLag_accept_self hr' (hinv i) hpc hm he]
        omega
      · rw [unsentLag_accept hr' (hinv a) hpc hm he fun hia hjb => hc ⟨hia, hjb⟩]
        by_cases hjb : j = b
        · have hqueued : ¬ s'.Queued i j := by
            have hia : i ≠ a := fun hia => hc ⟨hia, hjb⟩
            simp [State.Queued, hq', hjb, hia]
          rw [State.queuedLag_eq_zero hqueued]
          omega
        · rw [State.queuedLag_congr (s := s) (by simp [hq', hjb])]
          exact hold
  | @meet a b m s' hpc hab hm he hq hpcb hr' hq' =>
      rw [State.queuedLag_congr (s := s) (by simp [hq'])]
      by_cases hjb : j = b
      · have hempty := State.not_queued_of_nil (s := s) (i := i) (j := j) (by rw [hjb, hq])
        have hle := (s'.routers i).unsentLag_le j
        rw [State.queuedLag_eq_zero hempty]
        omega
      · rw [unsentLag_meet hr' hinv hpc hm he hpcb fun _ => hjb]
        refine h i j slot ?_
        rw [hr', if_neg hjb] at hheld
        split at hheld
        · cases hheld
        · exact hheld
  | rotate hpc hreset hr' hq' => exact h.rotate hr hpc hreset hr' hq' hok i j slot hheld

theorem run_heldInv (h : (stress C).RunWhere (BeginsUnread C) log s) : HeldInv s := by
  refine h.invariant (P := fun _ s => HeldInv s) (heldInv_init C) fun hr hp hs hok => ?_
  have ht := (trans_of_step hs).2
  exact hp.step hr (ht.vectorStep (run_routerInv hr) (run_room hr)) hok

/-! ## answers that are stored -/

/-- `completed_driver` stores no vector that is next to be written. -/
def CompletedInv (s : State n) : Prop :=
  ∀ i, some ⟨i, (s.routers i).buffer.nextState⟩ ∉ s.completedQueue

/-- What `completed_driver` stores has been there before, or is the current vector
of the router that answers. -/
theorem Trans.mem_completed (hinv : ∀ i, (s.routers i).Inv C.topology i) (h : Trans C s es s')
    {p : StatePtr n} (hp : some p ∈ s'.completedQueue) :
    some p ∈ s.completedQueue ∨ p.slot = (s'.routers p.owner).buffer.currState := by
  cases h with
  | @reply i job hpc hroom =>
      rcases List.mem_append.mp hp with hold | hnew
      · exact .inl hold
      · right
        have hjob : some p = if (s.routers i).Converged
            then some ⟨i, (s.routers i).buffer.currState⟩ else none :=
          (List.mem_singleton.mp hnew).trans ((hinv i).reply job hpc)
        split at hjob
        · cases hjob
          simp [Router.goto]
        · cases hjob
  | collect hmain hk hq => exact .inl (by rw [hq]; exact List.mem_cons_of_mem _ hp)
  | handle | schedule | meet | router | replyMeet | probe | probeMeet | main | abort =>
      exact .inl hp

/-- The buffer to be written changes only where an epoch begins: it is the oldest one
then. -/
theorem VectorStep.next_cases (h : VectorStep C s es s') (i : Fin n) :
    (s'.routers i).buffer.nextState = (s.routers i).buffer.nextState ∨
      Event.begin i (s.routers i).buffer.next ∈ es ∧
        (s'.routers i).buffer.nextState = (s.routers i).buffer.prevState := by
  cases h with
  | quiet hr hq hes => exact .inl (hr i).nextState
  | take hpc hq hr' hq' => exact .inl (by rw [buffer_take hr'])
  | accept hpc hij hm he hq hr' hq' => exact .inl (by rw [buffer_accept hr'])
  | meet hpc hij hm he hq hpcj hr' hq' => exact .inl (by rw [buffer_meet hr'])
  | @rotate a s' hpc hreset hr' hq' =>
      by_cases hia : i = a
      · subst hia
        exact .inr ⟨List.mem_cons_self, by rw [hr', if_pos rfl]; rfl⟩
      · exact .inl (by rw [hr', if_neg hia])

theorem completedInv_init (C : Config n) : CompletedInv (State.init C) := by
  intro i h
  cases h

theorem CompletedInv.step (h : CompletedInv s) (hr : (stress C).Run log s) (ht : Trans C s es s')
    (hr' : (stress C).Run (log ++ es) s') (hok : BeginsUnread C log s es) :
    CompletedInv s' := by
  have hinv := run_routerInv hr
  intro i hmem
  rcases ht.mem_completed hinv hmem with hold | hslot
  · rcases (ht.vectorStep hinv (run_room hr)).next_cases i with hsame | ⟨hbegin, hnext⟩
    · rw [hsame] at hold
      exact h i hold
    · rw [hnext] at hold
      rcases hok _ hbegin i rfl with hbuf | hfree
      · rw [run_completed_eq_nil hr hbuf] at hold
        cases hold
      · exact hfree.1 _ hold rfl
  · exact (run_routerInv hr' i).buffer.curr_ne_next hslot.symm

theorem run_completedInv (h : (stress C).RunWhere (BeginsUnread C) log s) : CompletedInv s :=
  h.invariant (P := fun _ s => CompletedInv s) (completedInv_init C) fun hr hp hs hok =>
    hp.step hr (trans_of_step hs).2 (hr.step hs) hok

/-! ## who may write -/

/-- What the readers and the queues refer to is never `next_state`. -/
theorem HeldInv.not_inUse_next (h : HeldInv s) (hcompleted : CompletedInv s)
    (hinv : ∀ i, (s.routers i).Inv C.topology i) (hpipe : PipeInv C s) (i : Fin n) :
    ¬ s.InUse ⟨i, (s.routers i).buffer.nextState⟩ := by
  have hback : ∀ k, k ≤ 1 → (s.routers i).buffer.nextState ≠ (s.routers i).buffer.back k := by
    intro k hk
    rcases k with _ | _ | k
    · exact (hinv i).buffer.curr_ne_next.symm
    · exact (hinv i).buffer.prev_ne_next.symm
    · omega
  rintro (hanswer | ⟨j, hq | hheld⟩)
  · exact hcompleted i hanswer
  · exact hback _ ((s.routers i).unsentLag_le j) (hpipe.queued hq).2.2
  · exact hback _ (h i j _ hheld) (hpipe.held hheld).2

/-- When an epoch may begin, no driver stores the previous vector. -/
theorem PipeInv.not_queued_prev (hpipe : PipeInv C s) {i : Fin n}
    (hinv : (s.routers i).Inv C.topology i) (hpc : (s.routers i).pc = .check)
    (hreset : (s.routers i).MustReset) (j : Fin n) :
    some ⟨i, (s.routers i).buffer.prevState⟩ ∉ s.queues j := by
  intro hq
  have hslot := (hpipe.queued hq).2.2
  rw [(hinv.unsentLag_rotated (j := j) hpc hreset).1] at hslot
  exact hinv.buffer.curr_ne_prev hslot.symm

/-- With nothing stored, the previous vector is not in use when an epoch may begin. -/
theorem not_inUse_prev_of_rendezvous (hr : (stress C).Run log s) (hbuf : C.bufferSize = 0)
    {i : Fin n} (hpc : (s.routers i).pc = .check) (hreset : (s.routers i).MustReset) :
    ¬ s.InUse ⟨i, (s.routers i).buffer.prevState⟩ := by
  have hinv := run_routerInv hr i
  have hpipe := run_pipeInv hr
  rintro (hanswer | ⟨j, hq | hheld⟩)
  · rw [run_completed_eq_nil hr hbuf] at hanswer
    cases hanswer
  · exact hpipe.not_queued_prev hinv hpc hreset j hq
  · -- no reader is behind
    have hslot := (hpipe.held hheld).2
    rw [(hinv.unsentLag_rotated (j := j) hpc hreset).1, run_queuedLag_zero hr hbuf] at hslot
    exact hinv.buffer.curr_ne_prev hslot.symm

/-- Only a router that cycles its buffers begins an epoch. -/
theorem begin_of_stepContinue {i a : Fin n} {e : Event n}
    (h : stepContinue C s i = some (es, s')) (hmem : e ∈ es) (he : e.beginner = some a) :
    a = i ∧ (s.routers i).pc = .check ∧ (s.routers i).MustReset := by
  simp only [stepContinue] at h
  split at h
  case h_3 hpc =>
    split at h
    · next hreset =>
      cases h
      obtain rfl := List.mem_singleton.mp hmem
      exact ⟨(Option.some.inj he).symm, hpc, hreset⟩
    · cases h; cases hmem
  all_goals first
    | contradiction
    | split at h <;> cases h <;> cases hmem

end Steps

/-! ## the triple buffer -/

/-- **Where the triple buffer is enough.**  In a run in which no epoch has begun
while the previous vector was being read or stored as an answer, a step of a router
overwrites no vector that a driver stores or a router is processing if and only if
that step does not begin an epoch in this way. -/
theorem buffer_reuse_safe_iff {C : Config n} {log : List (Event n)} {s s' : State n}
    {es : List (Event n)} {i : Fin n} (h : (stress C).RunWhere (BeginsUnread C) log s)
    (hs : step C s (.continue i) = some (es, s')) :
    (∀ slot, s.Writes ⟨i, slot⟩ → ¬ s.InUse ⟨i, slot⟩) ↔ BeginsUnread C log s es := by
  have hr := h.run
  have hinv := run_routerInv hr
  have hpipe := run_pipeInv hr
  have hnext := (run_heldInv h).not_inUse_next (run_completedInv h) hinv hpipe i
  have hcont : stepContinue C s i = some (es, s') := by
    unfold step at hs
    split at hs
    · contradiction
    · exact hs
  constructor
  · intro hsafe e hmem a he
    obtain ⟨rfl, hpc, hreset⟩ := begin_of_stepContinue hcont hmem he
    have hfree := hsafe (s.routers a).buffer.prevState (.epoch hpc hreset rfl)
    refine .inr ⟨fun job hanswer hjob => hfree (.inl ?_), fun j hj => hfree (.inr ⟨j, .inr hj⟩)⟩
    rwa [← hjob]
  · intro hok slot hw huse
    cases hw with
    | entry hpc hlt hslot =>
        simp only at hslot
        exact hnext (hslot ▸ huse)
    | copy hpc hslot =>
        simp only at hslot
        exact hnext (hslot ▸ huse)
    | epoch hpc hreset hslot =>
        simp only at hpc hreset hslot
        subst hslot
        have hbegin : Event.begin i (s.routers i).buffer.next ∈ es := by
          simp only [stepContinue, hpc, hreset, if_true] at hcont
          cases hcont
          exact List.mem_cons_self
        rcases hok _ hbegin i rfl with hbuf | hfree
        · exact not_inUse_prev_of_rendezvous hr hbuf hpc hreset huse
        · rcases huse with hanswer | ⟨j, hq | hj⟩
          · exact hfree.1 _ hanswer rfl
          · exact hpipe.not_queued_prev (hinv i) hpc hreset j hq
          · exact hfree.2 j hj

/-- Router 0 is about to begin its second epoch, and nobody refers to its oldest
vector. -/
theorem buffer_reuse_safe_twoRouters : ∃ log s es s',
    (stress twoRouters).RunWhere (BeginsUnread twoRouters) log s ∧
    s.Writes ⟨0, 0⟩ ∧ step twoRouters s (.continue 0) = some (es, s') ∧
    ((∀ slot, s.Writes ⟨0, slot⟩ → ¬ s.InUse ⟨0, slot⟩) ↔ BeginsUnread twoRouters log s es) := by
  obtain ⟨log, s, hr, hp⟩ := Lts.RunWhere.exists_of_exec (stress twoRouters)
    (BeginsUnread twoRouters) (unroll [(1, .schedule 1 2), (1, .continue 1), (1, .handle 0),
      (5, .continue 0), (1, .schedule 0 2)])
    (fun q => decide ((q.2.routers 0).pc = .check ∧ (q.2.routers 0).MustReset ∧
      (q.2.routers 0).buffer.prevState = 0 ∧ (step twoRouters q.2 (.continue 0)).isSome))
    (by decide +kernel)
  obtain ⟨hpc, hreset, hslot, hsome⟩ := of_decide_eq_true hp
  obtain ⟨⟨es, s'⟩, hs⟩ := Option.isSome_iff_exists.mp hsome
  exact ⟨log, s, es, s', hr, .epoch hpc hreset hslot.symm, hs, buffer_reuse_safe_iff hr hs⟩

/-- Router 0 improves its own diagonal entry twice, through its neighbours. -/
def starRouters : Config 3 :=
  .buffered (.ofRows 3 [[100, 5, 1], [5, 100, infDistance], [1, infDistance, 100]])

/-- **Where it is not enough.**  Router 1 has taken the first vector of router 0 and not
read it yet, the second one is stored in its driver, and router 0 starts its third
epoch by writing into the first.  In another run nobody is reading, but the first
vector is the answer to the first `NULL`, which `check_done` has not taken yet. -/
theorem buffer_reused_in_use : starRouters.topology.TwoWay ∧
    (∃ log s, (stress starRouters).Run log s ∧ s.Writes ⟨0, 1⟩ ∧
      (step starRouters s (.continue 0)).isSome ∧ (s.routers 1).pc.held = some ⟨0, 1⟩ ∧
      s.queues 1 = [some ⟨0, 2⟩]) ∧
    ∃ log s, (stress starRouters).Run log s ∧ s.Writes ⟨0, 1⟩ ∧
      (step starRouters s (.continue 0)).isSome ∧ s.completedQueue = [some ⟨0, 1⟩] ∧
      ∀ j, (s.routers j).pc.held = none := by
  refine ⟨by decide, ?_, ?_⟩
  · obtain ⟨log, s, hr, hp⟩ := Lts.Run.exists_of_exec (stress starRouters)
      (unroll [(1, .schedule 1 2), (1, .continue 1), (1, .schedule 0 3), (1, .continue 0),
        (1, .schedule 0 2), (1, .continue 0), (1, .handle 1), (1, .handle 0), (10, .continue 0),
        (1, .handle 2), (6, .continue 2), (1, .schedule 0 3), (1, .continue 0),
        (1, .schedule 0 2), (1, .continue 0), (1, .schedule 2 2), (1, .handle 0),
        (5, .continue 0)])
      (fun q => decide ((q.2.routers 0).pc = .check ∧ (q.2.routers 0).MustReset ∧
        (q.2.routers 0).buffer.prevState = 1 ∧ (step starRouters q.2 (.continue 0)).isSome ∧
        (q.2.routers 1).pc.held = some ⟨0, 1⟩ ∧ q.2.queues 1 = [some ⟨0, 2⟩]))
      (by decide +kernel)
    obtain ⟨hpc, hreset, hslot, hsome, hheld, hq⟩ := of_decide_eq_true hp
    exact ⟨log, s, hr, .epoch hpc hreset hslot.symm, hsome, hheld, hq⟩
  · obtain ⟨log, s, hr, hp⟩ := Lts.Run.exists_of_exec (stress starRouters)
      (unroll [(1, .schedule 0 3), (1, .continue 0), (1, .schedule 0 2), (1, .continue 0),
        (2, .main), (1, .handle 0), (1, .reply 0), (1, .continue 0), (1, .schedule 1 2),
        (1, .continue 1), (1, .handle 0), (10, .continue 0), (1, .handle 2), (6, .continue 2),
        (1, .handle 1), (10, .continue 1), (1, .schedule 0 3), (1, .continue 0),
        (1, .schedule 0 2), (1, .continue 0), (1, .schedule 2 2), (1, .handle 0),
        (5, .continue 0)])
      (fun q => decide ((q.2.routers 0).pc = .check ∧ (q.2.routers 0).MustReset ∧
        (q.2.routers 0).buffer.prevState = 1 ∧ (step starRouters q.2 (.continue 0)).isSome ∧
        q.2.completedQueue = [some ⟨0, 1⟩] ∧ ∀ j, (q.2.routers j).pc.held = none))
      (by decide +kernel)
    obtain ⟨hpc, hreset, hslot, hsome, hanswer, hheld⟩ := of_decide_eq_true hp
    exact ⟨log, s, hr, .epoch hpc hreset hslot.symm, hsome, hanswer, hheld⟩

end ConcurrencyLab
