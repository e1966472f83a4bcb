import ConcurrencyLab.Finish

/-!
# ConcurrencyLab.OneWay

`run_stress` and links that lead one way only.

`create_topology` does not look whether links are two-way, and line 179 only looks
whether the link back is there.  A router that has got past it tells that it is
(`run_back`); so does one that has answered in the second round, whose `NULL` came after
every neighbour had sent (`run_secondAsked`).

* `finish_iff_twoWay` — so `check_done` can return `true`, and the run can end, exactly
  when all links are two-way;
* `one_way_aborts` — otherwise a main thread that waits for the routers waits for the
  assert of line 179.
-/

namespace ConcurrencyLab

variable {n : Nat}

/-- Links back from all neighbours make the links two-way. -/
theorem Topology.twoWay_of_back {T : Topology n}
    (h : ∀ i j, T.IsNeighbor i j → T.link j i ≠ infDistance) : T.TwoWay := by
  have hback : ∀ i j, T.link i j ≠ infDistance → T.link j i ≠ infDistance := by
    intro i j hlink
    by_cases hij : j = i
    · rwa [hij] at hlink ⊢
    · exact h i j ⟨hij, hlink⟩
  exact fun i j => ⟨hback i j, hback j i⟩

section Steps

variable {C : Config n} {log : List (Event n)} {s s' : State n} {es : List (Event n)}

/-! ## past line 179 -/

theorem taken_append (log es : List (Event n)) (i j : Fin n) :
    taken (log ++ es) i j = taken log i j ++ taken es i j := List.filterMap_append

theorem accepted_append (log es : List (Event n)) (i j : Fin n) :
    accepted (log ++ es) i j = accepted log i j ++ accepted es i j := List.filterMap_append

/-- A router that has just taken a vector stands before line 179. -/
theorem Trans.received_of_taken (hinv : ∀ i, (s.routers i).Inv C.topology i)
    (h : Trans C s es s') {i j : Fin n} (htaken : taken es i j ≠ []) :
    ∃ slot, (s'.routers j).pc = .received ⟨i, slot⟩ := by
  have hsrc : ∀ p : StatePtr n, (s.load p).src = p.owner := fun p =>
    (hinv p.owner).buffer.src p.slot
  cases h with
  | @handle a job rest hpc hq =>
      cases job with
      | none => exact absurd rfl htaken
      | some p =>
          by_cases hp : a = j ∧ (s.load p).src = i
          · obtain ⟨rfl, rfl⟩ := hp
            exact ⟨p.slot, by simp [Router.handled, hsrc]⟩
          · simp [taken, hp] at htaken
  | @meet a b m job hpc hm he hbuf hne hpcb =>
      cases job with
      | none => exact absurd rfl htaken
      | some p =>
          by_cases hp : b = j ∧ (s.load p).src = i
          · obtain ⟨rfl, rfl⟩ := hp
            exact ⟨p.slot, by simp [Router.handled, hsrc]⟩
          · simp [taken, hp] at htaken
  | router hl => cases hl <;> exact absurd rfl htaken
  | main hm => cases hm <;> exact absurd rfl htaken
  | schedule | reply | replyMeet | probe | probeMeet | collect | abort => exact absurd rfl htaken

/-- It gets past it only by a link back. -/
theorem Trans.received_stays (hinv : ∀ i, (s.routers i).Inv C.topology i) (h : Trans C s es s')
    {i j : Fin n} {slot : Fin 3} (hpc : (s.routers j).pc = .received ⟨i, slot⟩) :
    (s'.routers j).pc = .received ⟨i, slot⟩ ∨ C.topology.link j i ≠ infDistance := by
  rcases h.router_cases j with hsame | hstep
  · rw [hsame]
    exact .inl hpc
  · generalize s'.routers j = r' at hstep
    cases hstep with
    | @received p hpc' hlink =>
        rw [hpc, RouterPc.received.injEq] at hpc'
        subst hpc'
        rw [show (s.load ⟨i, slot⟩).src = i from (hinv i).buffer.src slot] at hlink
        exact .inr hlink
    | handled _ hpc' | sent hpc' | replied hpc' | relaxed hpc' | relaxDone hpc' | rotated hpc'
    | skipped hpc' | copied hpc' | reset hpc' | left hpc' => rw [hpc] at hpc'; cases hpc'

/-- **Who has processed a vector has a link back to its sender.** -/
theorem run_back (h : (stress C).Run log s) {i j : Fin n} (htaken : taken log i j ≠ []) :
    (∃ slot, (s.routers j).pc = .received ⟨i, slot⟩) ∨ C.topology.link j i ≠ infDistance := by
  refine run_invariant (P := fun log s => taken log i j ≠ [] →
    (∃ slot, (s.routers j).pc = .received ⟨i, slot⟩) ∨ C.topology.link j i ≠ infDistance)
    (fun h => absurd rfl h) (fun {log s es s'} hr hp ht htaken => ?_) h htaken
  have hinv := run_routerInv hr
  by_cases hnew : taken es i j = []
  · rw [taken_append, hnew, List.append_nil] at htaken
    rcases hp htaken with ⟨slot, hpc⟩ | hlink
    · exact (ht.received_stays hinv hpc).imp_left fun hpc' => ⟨slot, hpc'⟩
    · exact .inr hlink
  · exact .inl (ht.received_of_taken hinv hnew)

/-! ## in the second round -/

/-- A router that answers with a vector has sent it to all its neighbours. -/
theorem run_answer_accepted (h : (stress C).Run log s) {a : Answer n} (ha : a ∈ answers log)
    (hjob : a.job ≠ none) {j : Fin n} (hij : C.topology.IsNeighbor a.router j) :
    accepted log a.router j ≠ [] := by
  refine run_invariant (P := fun log s => ∀ a ∈ answers log, a.job ≠ none → ∀ j,
    C.topology.IsNeighbor a.router j → accepted log a.router j ≠ []) (fun a ha => by cases ha)
    (fun {log s es s'} hr hp ht a ha hjob j hij => ?_) h a ha hjob j hij
  rw [accepted_append]
  rw [answers_append, List.mem_append] at ha
  rcases ha with hold | hnew
  · exact List.append_ne_nil_of_left_ne_nil (hp a hold hjob j hij) _
  · obtain ⟨hpc, -, -⟩ := ht.reply_of_mem (mem_answers.mp hnew)
    have hinv := run_routerInv hr a.router
    have hreply := hinv.reply a.job hpc
    have hconverged : (s.routers a.router).Converged := by
      by_contra hne
      rw [if_neg hne] at hreply
      exact hjob hreply
    have hsent : ¬ (s.routers a.router).Unsent j := by
      rw [Router.Unsent, hpc]
      simp [RouterPc.isCopy, hinv.selects.not_pending_of_two hconverged.1 j]
    have hpos := hinv.buffer.epoch_pos
    refine List.append_ne_nil_of_left_ne_nil (List.ne_nil_of_length_pos ?_) _
    rw [(run_historyInv hr).accepted hij, List.length_take, (run_historyInv hr).length,
      Router.unsentLag_eq_zero hsent]
    omega

/-- **Who has taken the second `NULL` has links back to all its neighbours**: they had sent
before, and their vectors were ahead of it. -/
theorem run_secondAsked (h : (stress C).Run log s) (hround : (callLog log).round = some .second)
    {i j : Fin n} (hasked : (callLog log).Asked j) (hij : C.topology.IsNeighbor i j) :
    C.topology.link j i ≠ infDistance := by
  refine h.invariant (P := fun log s => (callLog log).round = some .second →
    (callLog log).Asked j → C.topology.link j i ≠ infDistance) (fun hround => by cases hround)
    (fun {log s b es s'} hr hp hs hround hasked => ?_) hround hasked
  have ht := (trans_of_step hs).2
  rcases ht.round_cases with hes | ⟨⟨r, rfl⟩, -⟩
  · rw [callLog_append] at hround hasked
    have hround' : (callLog log).round = some .second := by
      rwa [CallLog.foldl_add hes] at hround
    rcases (asked_foldl_add hes).mp hasked with hold | hnew
    · exact hp hround' hold
    · obtain ⟨-, hrouter, hclear⟩ := ht.take_of_mem (run_room hr) hnew
      obtain ⟨a, ha, rfl, hjob⟩ := run_firstAnswer hr hround' i
      have hr' := hr.step hs
      have haccepted := run_answer_accepted hr (mem_answers_of_callLog (.inl ha)) hjob hij
      have hqueued : ¬ s'.Queued a.router j := fun ⟨slot, hmem⟩ => hclear _ hmem
      -- what has been accepted has been taken
      have htaken : taken (log ++ es) a.router j = accepted (log ++ es) a.router j := by
        rw [(run_historyInv hr').taken hij, (run_historyInv hr').accepted hij,
          State.queuedLag_eq_zero hqueued, Nat.sub_zero]
      rw [accepted_append] at htaken
      refine (run_back hr' ?_).resolve_left ?_
      · rw [htaken]
        exact List.append_ne_nil_of_left_ne_nil haccepted _
      · rintro ⟨slot, hpc⟩
        rw [hrouter] at hpc
        cases hpc
  · cases r with
    | first => rw [callLog_append] at hround; cases hround
    | second => rw [callLog_append] at hasked; cases hasked

/-- **A call that returns `true` has seen links back everywhere.** -/
theorem twoWay_of_accepted (h : (stress C).Run log s) (haccepted : s.main.pc.accepted = true) :
    C.topology.TwoWay := by
  have hprobe := run_probeInv h
  obtain ⟨hround, hcomplete, -⟩ := (position_of_accepted haccepted).mp hprobe.position
  have hasked : ∀ j, (callLog log).Asked j := by
    intro j
    obtain ⟨⟨job, epoch, ha⟩, -⟩ := hprobe.settled hcomplete j
    exact hprobe.asked_of_answer ha
  exact Topology.twoWay_of_back fun i j hij => run_secondAsked h hround (hasked j) hij

/-! ## at rest -/

/-- **Routers at rest have links back everywhere**, if no assertion has failed: everything
has been sent, and nothing is before line 179. -/
theorem State.AtRest.twoWay (h : s.AtRest C) (hf : s.fault = none) (hr : (stress C).Run log s)
    (hmain : s.main.pc = .between) : C.topology.TwoWay := by
  have hselect := h.select hf hr hmain
  have hqueue := h.queue_nil hf hr hmain
  refine Topology.twoWay_of_back fun i j hij => ?_
  have hinv := run_routerInv hr i
  have hsent : ¬ (s.routers i).Unsent j := by
    rintro (hcopy | ⟨m, hm, htarget⟩)
    · rw [hselect i] at hcopy
      cases hcopy
    · -- the entry would be performed
      obtain ⟨job, he⟩ := SelectList.target_eq_some.mp htarget
      have hready : (s.queues j).length < C.bufferSize ∨
          C.bufferSize = 0 ∧ j ≠ i ∧ (s.routers j).pc = .select := by
        rw [hqueue j, List.length_nil]
        by_cases hbuf : C.bufferSize = 0
        · exact .inr ⟨hbuf, hij.1, hselect j⟩
        · exact .inl (Nat.pos_of_ne_zero hbuf)
      have hsome := schedule_isSome hf (hselect i) hm he hready
      rw [h _ (by simp)] at hsome
      cases hsome
  have hqueued : ¬ s.Queued i j := by
    rintro ⟨slot, hmem⟩
    rw [hqueue j] at hmem
    cases hmem
  have hpos := hinv.buffer.epoch_pos
  have htaken : taken log i j ≠ [] := by
    refine List.ne_nil_of_length_pos ?_
    rw [(run_historyInv hr).taken hij, List.length_take, (run_historyInv hr).length,
      Router.unsentLag_eq_zero hsent, State.queuedLag_eq_zero hqueued]
    omega
  refine (run_back hr htaken).resolve_left ?_
  rintro ⟨slot, hpc⟩
  rw [hselect j] at hpc
  cases hpc

/-- A patient main thread stays where it is until then. -/
theorem run_waiting (hT : ¬ C.topology.TwoWay) (h : (stress C).RunWhere (CallsAtRest C) log s) :
    calls log = 0 ∧ s.main.pc = .between := by
  refine h.invariant (P := fun log s => calls log = 0 ∧ s.main.pc = .between) ⟨rfl, rfl⟩
    fun {log s a es s'} hr hp hs hok => ?_
  obtain ⟨hcalls, hmain⟩ := hp
  obtain ⟨hf, ht⟩ := trans_of_step hs
  have hnone : calls es = 0 := by
    by_contra hcall
    exact hT ((hok hcall).twoWay hf hr hmain)
  have hkeep : s'.main = s.main := by
    refine main_of_step hs (fun ha => ?_) hmain
    subst ha
    have hfirst := step_main_of_between (C := C) hf hmain
    obtain ⟨rfl, rfl⟩ := Prod.mk.inj (Option.some.inj (hfirst.symm.trans hs))
    cases hnone
  rw [calls_append, hcalls, hnone, hkeep]
  exact ⟨rfl, hmain⟩

/-- Between two calls only line 179 can fail. -/
theorem fault_of_between (hr : (stress C).Run log s) (hmain : s.main.pc = .between) {f : Fault}
    (hf : s.fault = some f) : f = .neighborDist := by
  cases run_faulty hr hf with
  | neighborDist => rfl
  | driverged hpc hclosed =>
      rw [(run_closeInv hr).closed, hmain] at hclosed
      cases hclosed
  | result hpc | unwrittenCompare hpc | unwrittenResult hpc => rw [hmain] at hpc; cases hpc

end Steps

/-- **Which topologies `run_stress` can be done with**: some call of `check_done` returns
`true` in some run, and some run comes to its proper end, exactly when the links are
two-way. -/
theorem finish_iff_twoWay (C : Config n) :
    ((∃ log s, (stress C).Run log s ∧ s.main.pc.accepted = true) ↔ C.topology.TwoWay) ∧
    ((∃ log s, (stress C).Run log s ∧ s.Finished C) ↔ C.topology.TwoWay) := by
  have hend : C.topology.TwoWay → ∃ log s, (stress C).Run log s ∧ s.Finished C := by
    intro hT
    obtain ⟨as, es, s, hexec, hfinished⟩ := can_finish_of_between hT Lts.Run.init rfl
    exact ⟨_, s, Lts.Run.init.exec hexec, hfinished⟩
  have haccepted : ∀ {s : State n}, s.Finished C → s.main.pc.accepted = true := by
    intro s hfinished
    rw [hfinished.joined]
    rfl
  refine ⟨⟨fun ⟨_, _, hr, hs⟩ => twoWay_of_accepted hr hs, fun hT => ?_⟩,
    ⟨fun ⟨_, _, hr, hs⟩ => twoWay_of_accepted hr (haccepted hs), hend⟩⟩
  obtain ⟨log, s, hr, hfinished⟩ := hend hT
  exact ⟨log, s, hr, haccepted hfinished⟩

/-- **A one-way link aborts the run**, with room for one job as well as without.  If
`check_done` is called only when no router can move, then under every schedule it is
never called, the number of steps is bounded by the links, and where no step is
possible that keeps to this, the assert of line 179 has failed. -/
theorem one_way_aborts {C : Config n} {as : List (Action n)} {log : List (Event n)} {s : State n}
    (hT : ¬ C.topology.TwoWay)
    (h : (stress C).execWhere (CallsAtRest C) [] (State.init C) as = some (log, s)) :
    calls log = 0 ∧
    as.length ≤ ∑ i, (epochWork n * ∑ k, C.topology.link i k +
      entryWork n * (C.topology.neighbors i).length) + n + 1 ∧
    ((∀ a es s', step C s a = some (es, s') → ¬ CallsAtRest C log s es) →
      s.fault = some .neighborDist) := by
  obtain ⟨hr, es, hexec, hlog⟩ := Lts.RunWhere.init.exec_checked h
  obtain rfl : log = es := by simpa using hlog
  obtain ⟨hcalls, hmain⟩ := run_waiting hT hr
  refine ⟨hcalls, ?_, fun hstuck => ?_⟩
  · have hle := exec_length_le_potential .init hexec
    rw [hcalls, Nat.mul_zero, Nat.add_zero] at hle
    have hinit := potential_init C
    have hpot : (stress C).init.potential = (State.init C).potential := rfl
    omega
  · cases hf : s.fault with
    | none =>
        obtain ⟨a, es, s', hs, hok⟩ := exists_step_of_between hf hmain
        exact absurd hok (hstuck a es s' hs)
    | some f => rw [fault_of_between hr.run hmain hf]

/-- Two routers and a link from the first to the second: the vector that goes over it is
the last thing that happens. -/
theorem one_way_aborts_oneLink : ∃ C : Config 2, C.bufferSize = 1 ∧ ∃ as log s,
    (stress C).execWhere (CallsAtRest C) [] (State.init C) as = some (log, s) ∧
      calls log = 0 ∧ s.fault = some .neighborDist := by
  let C : Config 2 := .buffered (.ofRows 2 [[0, 1], [0x7fffffff, 0]])
  have hrun : ((stress C).execWhere (CallsAtRest C) [] (State.init C)
      [.schedule 0 2, .handle 1, .continue 1]).any
      (fun q => decide (q.2.fault.isSome)) = true := by
    decide +kernel
  obtain ⟨⟨log, s⟩, hexec, hp⟩ := (Option.any_eq_true _ _).mp hrun
  obtain ⟨f, hf⟩ := Option.isSome_iff_exists.mp (of_decide_eq_true hp)
  obtain ⟨hcalls, -, hstuck⟩ := one_way_aborts (by decide) hexec
  refine ⟨C, rfl, _, log, s, hexec, hcalls, hstuck fun a es s' hs => ?_⟩
  have hnone : s.fault = none := (trans_of_step hs).1
  exact absurd (hf.symm.trans hnone) (Option.some_ne_none f)

end ConcurrencyLab
