import ConcurrencyLab.Pipeline

/-!
# ConcurrencyLab.History

What the log of a run says about the vectors of a router, against what its
neighbours have accepted and taken.

`begun C log i` lists the vectors router `i` has broadcast, each as it was when
its epoch began.  What a neighbour's driver has accepted and what the neighbour
has taken are prefixes of that list (`HistoryInv`): the pipeline never skips,
repeats or alters a vector, although only addresses of recycled buffers travel
through it.
-/

namespace ConcurrencyLab

variable {n : Nat}

/-! ## histories read off the log -/

/-- The vectors with which router `i` began its epochs, the first one being its
row of links. -/
def begun (C : Config n) (log : List (Event n)) (i : Fin n) : List (DistanceVector n) :=
  (TripleBuffer.init C.topology i).curr ::
    log.filterMap fun e => match e with
      | .begin index v => if index = i then some v else none
      | _ => none

/-- The vectors of router `i` that `drivers[j]` has accepted, as they were
then. -/
def accepted (log : List (Event n)) (i j : Fin n) : List (DistanceVector n) :=
  log.filterMap fun e => match e with
    | .accept src dst (some v) => if src = i ∧ dst = j then some v else none
    | _ => none

/-- The vectors with `src == i` that router `j` has taken out of `drivers[j]`,
as they were then. -/
def taken (log : List (Event n)) (i j : Fin n) : List (DistanceVector n) :=
  log.filterMap fun e => match e with
    | .take index (some v) => if index = j ∧ v.src = i then some v else none
    | _ => none

section Append

variable (C : Config n) (log : List (Event n)) (i j a b : Fin n) (v : DistanceVector n)

theorem begun_begin :
    begun C (log ++ [.begin a v]) i = begun C log i ++ if a = i then [v] else [] := by
  by_cases h : a = i <;> simp [begun, h]

theorem begun_accept : begun C (log ++ [.accept a b (some v)]) i = begun C log i := by
  simp [begun]

theorem begun_take : begun C (log ++ [.take a (some v)]) i = begun C log i := by
  simp [begun]

theorem accepted_accept : accepted (log ++ [.accept a b (some v)]) i j =
    accepted log i j ++ if a = i ∧ b = j then [v] else [] := by
  by_cases h : a = i ∧ b = j <;> simp [accepted, h]

theorem accepted_take : accepted (log ++ [.take a (some v)]) i j = accepted log i j := by
  simp [accepted]

theorem accepted_begin : accepted (log ++ [.begin a v]) i j = accepted log i j := by
  simp [accepted]

theorem taken_take : taken (log ++ [.take a (some v)]) i j =
    taken log i j ++ if a = j ∧ v.src = i then [v] else [] := by
  by_cases h : a = j ∧ v.src = i <;> simp [taken, h]

theorem taken_accept : taken (log ++ [.accept a b (some v)]) i j = taken log i j := by
  simp [taken]

theorem taken_begin : taken (log ++ [.begin a v]) i j = taken log i j := by
  simp [taken]

variable {es : List (Event n)} (hes : ∀ e ∈ es, e.isVector = false)
include hes

/-- Events about other things leave no trace in a history. -/
theorem begun_quiet : begun C (log ++ es) i = begun C log i := by
  have hnone : es.filterMap (fun e => match e with
      | .begin index v => if index = i then some v else none
      | _ => none) = [] := by
    refine List.filterMap_eq_nil_iff.mpr fun e he => ?_
    have := hes e he
    cases e <;> first | rfl | simp [Event.isVector] at this
  simp [begun, hnone]

theorem accepted_quiet : accepted (log ++ es) i j = accepted log i j := by
  have hnone : accepted es i j = [] := by
    refine List.filterMap_eq_nil_iff.mpr fun e he => ?_
    have := hes e he
    rcases e with ⟨_, _, _ | _⟩ | _ | _ | _ | _ | _ | _ <;>
      first | rfl | simp [Event.isVector] at this
  have happ : accepted (log ++ es) i j = accepted log i j ++ accepted es i j :=
    List.filterMap_append
  rw [happ, hnone, List.append_nil]

theorem taken_quiet : taken (log ++ es) i j = taken log i j := by
  have hnone : taken es i j = [] := by
    refine List.filterMap_eq_nil_iff.mpr fun e he => ?_
    have := hes e he
    rcases e with _ | ⟨_, _ | _⟩ | _ | _ | _ | _ | _ <;> first | rfl | simp [Event.isVector] at this
  have happ : taken (log ++ es) i j = taken log i j ++ taken es i j := List.filterMap_append
  rw [happ, hnone, List.append_nil]

end Append

/-! ## histories agree -/

section Invariant

variable {C : Config n} {log : List (Event n)} {s s' : State n} {es : List (Event n)}

/-- The histories of every router and of every pipeline. -/
structure HistoryInv (C : Config n) (log : List (Event n)) (s : State n) : Prop where
  length : ∀ i, (begun C log i).length = (s.routers i).buffer.curr.epoch
  epoch : ∀ {i m v}, (begun C log i)[m]? = some v → v.epoch = m + 1
  recent : ∀ i k, k ≤ 1 → k < (s.routers i).buffer.curr.epoch →
    (begun C log i)[(s.routers i).buffer.curr.epoch - 1 - k]? =
      some ((s.routers i).buffer.states ((s.routers i).buffer.back k))
  accepted : ∀ {i j}, C.topology.IsNeighbor i j → accepted log i j =
    (begun C log i).take ((s.routers i).buffer.curr.epoch - (s.routers i).unsentLag j)
  taken : ∀ {i j}, C.topology.IsNeighbor i j → taken log i j =
    (begun C log i).take
      ((s.routers i).buffer.curr.epoch - (s.routers i).unsentLag j - s.queuedLag i j)

theorem begun_nil (C : Config n) (i : Fin n) :
    begun C [] i = [(TripleBuffer.init C.topology i).curr] := rfl

theorem historyInv_init (C : Config n) : HistoryInv C [] (State.init C) where
  length i := by simp [begun_nil, State.init, Router.init, TripleBuffer.init, TripleBuffer.curr]
  epoch := by
    intro i m v hv
    rw [begun_nil, List.getElem?_singleton] at hv
    split at hv
    · next hm => cases hv; subst hm; rfl
    · contradiction
  recent := by
    intro i k hk hlt
    have hk0 : k = 0 := by
      simp [State.init, Router.init, TripleBuffer.init, TripleBuffer.curr] at hlt; exact hlt
    subst hk0
    rfl
  accepted := by
    intro i j hij
    have hpend : (SelectList.init C.topology i).Pending j :=
      (SelectList.valid_init C.topology i).pending_of_total rfl hij
    have hlag : ((State.init C).routers i).unsentLag j = 1 := Router.unsentLag_eq_one (.inr hpend)
    rw [hlag]; rfl
  taken := by
    intro i j hij
    have hpend : (SelectList.init C.topology i).Pending j :=
      (SelectList.valid_init C.topology i).pending_of_total rfl hij
    have hlag : ((State.init C).routers i).unsentLag j = 1 := Router.unsentLag_eq_one (.inr hpend)
    have hzero : ((State.init C).routers i).buffer.curr.epoch - 1 - (State.init C).queuedLag i j =
        0 := by
      simp [State.init, Router.init, TripleBuffer.init, TripleBuffer.curr]
    rw [hlag, hzero]; rfl

/-- Cutting a list one earlier and putting the element back. -/
theorem take_pred_append_curr {α : Type} {l : List α} {E : Nat} {v : α}
    (h : l[E - 1 - 0]? = some v) (hE : 0 < E) : l.take (E - 1) ++ [v] = l.take (E - 0) := by
  obtain ⟨E, rfl⟩ := Nat.exists_eq_add_one.mpr hE
  rw [Nat.add_sub_cancel, Nat.sub_zero] at *
  rw [List.take_add_one, h]
  rfl

/-- Moves that leave the pipelines alone keep all histories. -/
theorem HistoryInv.quiet (h : HistoryInv C log s)
    (hr : ∀ i, Router.Quiet C.topology i (s.routers i) (s'.routers i))
    (hq : ∀ j p, some p ∈ s'.queues j ↔ some p ∈ s.queues j)
    (hes : ∀ e ∈ es, e.isVector = false) : HistoryInv C (log ++ es) s' where
  length i := by rw [begun_quiet C log i hes, (hr i).curr]; exact h.length i
  epoch := by
    intro i m v
    rw [begun_quiet C log i hes]
    exact h.epoch
  recent := by
    intro i k hk hlt
    rw [(hr i).curr] at hlt ⊢
    rw [begun_quiet C log i hes, h.recent i k hk hlt]
    rcases k with _ | _ | k
    · exact congrArg some (hr i).curr.symm
    · exact congrArg some (hr i).prev.symm
    · omega
  accepted := by
    intro i j hij
    rw [accepted_quiet log i j hes, begun_quiet C log i hes, (hr i).curr, (hr i).unsentLag hij]
    exact h.accepted hij
  taken := by
    intro i j hij
    rw [taken_quiet log i j hes, begun_quiet C log i hes, (hr i).curr, (hr i).unsentLag hij,
      State.queuedLag_congr (hq j)]
    exact h.taken hij

/-- A stored vector is taken: the reader catches up with its driver. -/
theorem HistoryInv.take (h : HistoryInv C log s) (hinv : ∀ i, (s.routers i).Inv C.topology i)
    (hpipe : PipeInv C s) {a : Fin n} {p : StatePtr n} (hpc : (s.routers a).pc = .select)
    (hq : s.queues a = [some p])
    (hr' : ∀ x, s'.routers x = if x = a then (s.routers a).handled a (some p) else s.routers x)
    (hq' : ∀ x, s'.queues x = if x = a then [] else s.queues x) :
    HistoryInv C (log ++ [.take a (some (s.load p))]) s' := by
  have hbuf := buffer_take hr'
  have hlag := unsentLag_take hr' (hinv a) hpc
  have hmem : some ⟨p.owner, p.slot⟩ ∈ s.queues a := by
    rw [hq]; exact List.mem_singleton.mpr rfl
  obtain ⟨-, hlt, hslot⟩ := hpipe.queued hmem
  have hsrc : (s.load p).src = p.owner := (hinv p.owner).buffer.src p.slot
  constructor
  · intro i; rw [begun_take, hbuf]; exact h.length i
  · intro i m v; rw [begun_take]; exact h.epoch
  · intro i k; rw [begun_take, hbuf]; exact h.recent i k
  · intro i j hij; rw [accepted_take, begun_take, hbuf, hlag]; exact h.accepted hij
  · intro i j hij
    rw [taken_take, begun_take, hbuf, hlag, h.taken hij, hsrc]
    by_cases hja : j = a
    · subst hja
      by_cases hi : p.owner = i
      · subst hi
        have hqueued : s.Queued p.owner j := ⟨p.slot, by rw [hq]; exact List.mem_singleton.mpr rfl⟩
        rw [State.queuedLag_eq_one hqueued,
          State.queuedLag_eq_zero (s := s') (State.not_queued_of_nil (by simp [hq'])),
          if_pos ⟨rfl, rfl⟩]
        -- the vector taken is the one at which the history was cut
        have hcontent := h.recent p.owner _ ((s.routers p.owner).unsentLag_le j) hlt
        rw [← hslot] at hcontent
        generalize hE : (s.routers p.owner).buffer.curr.epoch = E at *
        generalize hu : (s.routers p.owner).unsentLag j = u at *
        rw [Nat.sub_right_comm] at hcontent
        have hsucc : E - u - 0 = (E - u - 1) + 1 := by omega
        rw [hsucc, List.take_add_one, hcontent]
        rfl
      · have hne : ¬ s.Queued i j := by
          rintro ⟨slot, hmem⟩
          rw [hq, List.mem_singleton] at hmem
          exact hi (by rw [← Option.some.inj hmem])
        rw [State.queuedLag_eq_zero hne,
          State.queuedLag_eq_zero (s := s') (State.not_queued_of_nil (by simp [hq'])),
          if_neg fun hc => hi hc.2, List.append_nil]
    · have hsame : s'.queuedLag i j = s.queuedLag i j :=
        State.queuedLag_congr fun _ => by rw [hq', if_neg hja]
      rw [hsame, if_neg fun hc => hja hc.1.symm, List.append_nil]

/-- The driver accepts the vector being broadcast and catches up with it. -/
theorem HistoryInv.accept (h : HistoryInv C log s) (hinv : ∀ i, (s.routers i).Inv C.topology i)
    {a b : Fin n} {m : Nat} (hpc : (s.routers a).pc = .select)
    (hm : m < (s.routers a).selects.selectCount)
    (he : (s.routers a).selects.entries[m]? =
      some ⟨.drivers b, .schdle, some ⟨a, (s.routers a).buffer.currState⟩⟩)
    (hq : s.queues b = [])
    (hr' : ∀ x, s'.routers x = if x = a then (s.routers a).sent m else s.routers x)
    (hq' : ∀ x, s'.queues x =
      if x = b then [some ⟨a, (s.routers a).buffer.currState⟩] else s.queues x) :
    HistoryInv C (log ++ [.accept a b (some (s.routers a).buffer.curr)]) s' := by
  have hbuf := buffer_accept hr'
  have hone := (hinv a).unsentLag_sent_self hpc hm he
  have hself := unsentLag_accept_self hr' (hinv a) hpc hm he
  have hlag : ∀ {i j}, (i = a → j ≠ b) →
      (s'.routers i).unsentLag j = (s.routers i).unsentLag j := fun hne =>
    unsentLag_accept hr' (hinv a) hpc hm he hne
  constructor
  · intro i; rw [begun_accept, hbuf]; exact h.length i
  · intro i m v; rw [begun_accept]; exact h.epoch
  · intro i k; rw [begun_accept, hbuf]; exact h.recent i k
  · intro i j hij
    rw [accepted_accept, begun_accept, hbuf, h.accepted hij]
    by_cases hc : a = i ∧ b = j
    · obtain ⟨rfl, rfl⟩ := hc
      rw [hself, hone.1, if_pos ⟨rfl, rfl⟩]
      exact take_pred_append_curr (h.recent a 0 (by omega) (hinv a).buffer.epoch_pos)
        (hinv a).buffer.epoch_pos
    · rw [hlag fun hia hjb => hc ⟨hia.symm, hjb.symm⟩, if_neg hc, List.append_nil]
  · intro i j hij
    rw [taken_accept, begun_accept, hbuf, h.taken hij]
    by_cases hjb : j = b
    · subst hjb
      rw [State.queuedLag_eq_zero (State.not_queued_of_nil hq)]
      by_cases hia : i = a
      · subst hia
        have hqueued : s'.Queued i j := ⟨(s.routers i).buffer.currState, by simp [hq']⟩
        rw [hself, hone.1, State.queuedLag_eq_one hqueued]
        rfl
      · have hqueued : ¬ s'.Queued i j := by simp [State.Queued, hq', hia]
        rw [hlag fun hc => absurd hc hia, State.queuedLag_eq_zero hqueued]
    · have hsame : s'.queuedLag i j = s.queuedLag i j :=
        State.queuedLag_congr fun _ => by rw [hq', if_neg hjb]
      rw [hlag fun _ => hjb, hsame]

/-- The vector being broadcast passes directly to the reader. -/
theorem HistoryInv.meet (h : HistoryInv C log s) (hinv : ∀ i, (s.routers i).Inv C.topology i)
    {a b : Fin n} {m : Nat} (hpc : (s.routers a).pc = .select)
    (hab : C.topology.IsNeighbor a b) (hm : m < (s.routers a).selects.selectCount)
    (he : (s.routers a).selects.entries[m]? =
      some ⟨.drivers b, .schdle, some ⟨a, (s.routers a).buffer.currState⟩⟩)
    (hq : s.queues b = []) (hpcb : (s.routers b).pc = .select)
    (hr' : ∀ x, s'.routers x =
      if x = b then (s.routers b).handled b (some ⟨a, (s.routers a).buffer.currState⟩)
      else if x = a then (s.routers a).sent m else s.routers x)
    (hq' : s'.queues = s.queues) :
    HistoryInv C (log ++ [.accept a b (some (s.routers a).buffer.curr),
      .take b (some (s.routers a).buffer.curr)]) s' := by
  have hbuf := buffer_meet hr'
  have hone := (hinv a).unsentLag_sent_self hpc hm he
  have hself := unsentLag_meet_self hr' hinv hpc hm he hab.1.symm
  have hlag : ∀ {i j}, (i = a → j ≠ b) →
      (s'.routers i).unsentLag j = (s.routers i).unsentLag j := fun hne =>
    unsentLag_meet hr' hinv hpc hm he hpcb hne
  have hqueued : ∀ i j, s'.queuedLag i j = s.queuedLag i j := fun i j =>
    State.queuedLag_congr fun _ => by rw [hq']
  have hsrc : (s.routers a).buffer.curr.src = a := (hinv a).buffer.src _
  have hlast := take_pred_append_curr (h.recent a 0 (by omega) (hinv a).buffer.epoch_pos)
    (hinv a).buffer.epoch_pos
  rw [List.append_cons]
  constructor
  · intro i; rw [begun_take, begun_accept, hbuf]; exact h.length i
  · intro i m v; rw [begun_take, begun_accept]; exact h.epoch
  · intro i k; rw [begun_take, begun_accept, hbuf]; exact h.recent i k
  · intro i j hij
    rw [accepted_take, accepted_accept, begun_take, begun_accept, hbuf, h.accepted hij]
    by_cases hc : a = i ∧ b = j
    · obtain ⟨rfl, rfl⟩ := hc
      rw [hself, hone.1, if_pos ⟨rfl, rfl⟩]
      exact hlast
    · rw [hlag fun hia hjb => hc ⟨hia.symm, hjb.symm⟩, if_neg hc, List.append_nil]
  · intro i j hij
    rw [taken_take, taken_accept, begun_take, begun_accept, hbuf, h.taken hij, hqueued, hsrc]
    by_cases hc : b = j ∧ a = i
    · obtain ⟨rfl, rfl⟩ := hc
      rw [hself, hone.1, State.queuedLag_eq_zero (State.not_queued_of_nil hq), if_pos ⟨rfl, rfl⟩]
      exact hlast
    · rw [hlag fun hia hjb => hc ⟨hjb.symm, hia.symm⟩, if_neg hc, List.append_nil]

/-- A new epoch begins: everything accepted and taken so far is a proper
prefix now. -/
theorem HistoryInv.rotate (h : HistoryInv C log s) (hinv : ∀ i, (s.routers i).Inv C.topology i)
    {a : Fin n} (hpc : (s.routers a).pc = .check) (hreset : (s.routers a).MustReset)
    (hr' : ∀ x, s'.routers x = if x = a then (s.routers a).rotated else s.routers x)
    (hq' : s'.queues = s.queues) :
    HistoryInv C (log ++ [.begin a (s.routers a).buffer.next]) s' := by
  have hcurr := (hinv a).buffer.curr_cycle
  have hprev := (hinv a).buffer.prev_cycle
  have hnext := (hinv a).buffer.epoch_next
  have hlen := h.length a
  have hqueued : ∀ i j, s'.queuedLag i j = s.queuedLag i j := fun i j =>
    State.queuedLag_congr fun _ => by rw [hq']
  have hself : s'.routers a = (s.routers a).rotated := by rw [hr', if_pos rfl]
  have hbegun : begun C (log ++ [.begin a (s.routers a).buffer.next]) a =
      begun C log a ++ [(s.routers a).buffer.next] := by rw [begun_begin, if_pos rfl]
  have hother : ∀ {i}, i ≠ a → s'.routers i = s.routers i ∧
      begun C (log ++ [.begin a (s.routers a).buffer.next]) i = begun C log i := fun {i} hia =>
    ⟨by rw [hr', if_neg hia], by rw [begun_begin, if_neg (Ne.symm hia), List.append_nil]⟩
  have hepoch := (hinv a).epoch_rotated
  -- the new vector is one that nobody has accepted yet
  have hsent : ∀ i j q, (begun C log i).take
        ((s.routers i).buffer.curr.epoch - (s.routers i).unsentLag j - q) =
      (begun C (log ++ [.begin a (s.routers a).buffer.next]) i).take
        ((s'.routers i).buffer.curr.epoch - (s'.routers i).unsentLag j - q) := by
    intro i j q
    by_cases hia : i = a
    · subst hia
      have hlag := (hinv i).unsentLag_rotated (j := j) hpc hreset
      rw [hself, hbegun, hepoch, hlag.1, hlag.2, Nat.add_sub_cancel, Nat.sub_zero,
        List.take_append_of_le_length (by omega)]
    · rw [(hother hia).1, (hother hia).2]
  constructor
  · intro i
    by_cases hia : i = a
    · subst hia
      rw [hself, hbegun, List.length_append, hlen, hepoch]; rfl
    · rw [(hother hia).1, (hother hia).2]; exact h.length i
  · intro i m v hv
    by_cases hia : i = a
    · subst hia
      rw [hbegun, List.getElem?_append] at hv
      split at hv
      · exact h.epoch hv
      · next hm =>
        rw [List.getElem?_singleton] at hv
        split at hv
        · cases hv; omega
        · contradiction
    · rw [(hother hia).2] at hv; exact h.epoch hv
  · intro i k hk hlt
    by_cases hia : i = a
    · subst hia
      rw [hself, hepoch, hbegun, Nat.add_sub_cancel]
      rcases k with _ | _ | k
      · rw [Nat.sub_zero, ← hlen, List.getElem?_append_right (Nat.le_refl _), Nat.sub_self]
        exact congrArg some hcurr.symm
      · have hpos := (hinv i).buffer.epoch_pos
        rw [List.getElem?_append_left (by omega)]
        have hold := h.recent i 0 (by omega) hpos
        rw [Nat.sub_zero] at hold
        rw [hold]
        exact congrArg some hprev.symm
      · omega
    · rw [(hother hia).1] at hlt ⊢
      rw [(hother hia).2]; exact h.recent i k hk hlt
  · intro i j hij
    rw [accepted_begin, h.accepted hij]
    exact hsent i j 0
  · intro i j hij
    rw [taken_begin, h.taken hij, hqueued]
    exact hsent i j _

/-- **Accepted and taken vectors follow the epochs begun.** -/
theorem HistoryInv.step (h : HistoryInv C log s) (hinv : ∀ i, (s.routers i).Inv C.topology i)
    (hpipe : PipeInv C s) (hs : VectorStep C s es s') : HistoryInv C (log ++ es) s' := by
  cases hs with
  | quiet hr hq hes => exact h.quiet hr hq hes
  | take hpc hq hr' hq' => exact h.take hinv hpipe hpc hq hr' hq'
  | accept hpc hij hm he hq hr' hq' => exact h.accept hinv hpc hm he hq hr' hq'
  | meet hpc hij hm he hq hpcj hr' hq' => exact h.meet hinv hpc hij hm he hq hpcj hr' hq'
  | rotate hpc hreset hr' hq' => exact h.rotate hinv hpc hreset hr' hq'

theorem run_historyInv (h : (stress C).Run log s) : HistoryInv C log s :=
  run_vectorInvariant (P := fun log s => HistoryInv C log s) (historyInv_init C)
    (fun hr hp hs => hp.step (run_routerInv hr) (run_pipeInv hr) hs) h

/-! ## order of delivery -/

/-- An epoch begins only when every neighbour's driver has accepted the one
before. -/
def BeginsAfterAccepted (C : Config n) (log : List (Event n)) : Prop :=
  ∀ pre i v post, log = pre ++ .begin i v :: post → ∀ j, C.topology.IsNeighbor i j →
    ∃ u ∈ ConcurrencyLab.accepted pre i j, u.epoch + 1 = v.epoch

/-- An event of a log extended by one more event. -/
theorem concat_eq_append_cons {α : Type} {l pre post : List α} {e x : α}
    (h : l ++ [e] = pre ++ x :: post) :
    (l = pre ∧ e = x ∧ post = []) ∨ ∃ post', l = pre ++ x :: post' := by
  rcases List.eq_nil_or_concat post with rfl | ⟨post', y, rfl⟩
  · obtain ⟨hl, he⟩ := List.append_inj' h rfl
    exact .inl ⟨hl, (List.cons.inj he).1, rfl⟩
  · have hsplit : l ++ [e] = (pre ++ x :: post') ++ [y] := by rw [h]; simp
    exact .inr ⟨post', (List.append_inj' hsplit rfl).1⟩

/-- An event of an extended log that is not one of the new events. -/
theorem append_eq_append_cons {α : Type} {l es pre post : List α} {e : α}
    (h : l ++ es = pre ++ e :: post) (he : e ∉ es) : ∃ post', l = pre ++ e :: post' := by
  rcases List.append_eq_append_iff.mp h with ⟨as, rfl, hes⟩ | ⟨bs, rfl, hpost⟩
  · exact absurd (hes ▸ List.mem_append_right as List.mem_cons_self) he
  · rcases bs with _ | ⟨b, bs⟩
    · rw [List.nil_append] at hpost
      exact absurd (hpost ▸ List.mem_cons_self) he
    · rw [List.cons_append, List.cons.injEq] at hpost
      exact ⟨bs, by rw [hpost.1]⟩

theorem BeginsAfterAccepted.append (h : BeginsAfterAccepted C log)
    (hes : ∀ i v, Event.begin i v ∉ es) : BeginsAfterAccepted C (log ++ es) := by
  intro pre i v post heq
  obtain ⟨post', hlog⟩ := append_eq_append_cons heq (hes i v)
  exact h pre i v post' hlog

theorem run_beginsAfterAccepted (h : (stress C).Run log s) : BeginsAfterAccepted C log := by
  refine run_vectorInvariant (P := fun log _ => BeginsAfterAccepted C log) ?_ ?_ h
  · intro pre i v post heq
    exact absurd heq.symm (by simp)
  · intro log s es s' hr hp hs
    cases hs with
    | quiet hr hq hes =>
        refine hp.append fun i v hmem => ?_
        exact absurd (hes _ hmem) (by simp [Event.isVector])
    | take | accept | meet => exact hp.append fun i v => by simp
    | @rotate a s' hpc hreset hr' hq' =>
        intro pre i v post heq j hij
        rcases concat_eq_append_cons heq with ⟨rfl, hev, -⟩ | ⟨post', hlog⟩
        · -- the epoch that begins in this step
          obtain ⟨rfl, rfl⟩ := Event.begin.inj hev
          have hinv := run_routerInv hr a
          have hhist := run_historyInv hr
          have hlag := hinv.unsentLag_rotated (j := j) hpc hreset
          have hlast := hhist.recent a 0 (by omega) hinv.buffer.epoch_pos
          refine ⟨(s.routers a).buffer.curr, ?_, hinv.buffer.epoch_next.symm⟩
          rw [hhist.accepted hij, hlag.1, Nat.sub_zero, ← hhist.length, List.take_length]
          exact List.mem_of_getElem? hlast
        · exact hp pre i v post' hlog j hij

/-- A vector of `i` stored in `drivers[j]` is what separates the two histories
of the pipeline. -/
theorem HistoryInv.accepted_eq (h : HistoryInv C log s) (hpipe : PipeInv C s) {i j : Fin n}
    {slot : Fin 3} (hq : some ⟨i, slot⟩ ∈ s.queues j) :
    ConcurrencyLab.accepted log i j = ConcurrencyLab.taken log i j ++ [s.load ⟨i, slot⟩] := by
  obtain ⟨hij, hlt, hslot⟩ := hpipe.queued hq
  have hrecent := h.recent i _ ((s.routers i).unsentLag_le j) hlt
  rw [h.accepted hij, h.taken hij, State.queuedLag_eq_one ⟨slot, hq⟩]
  generalize (s.routers i).unsentLag j = u at *
  have hsucc : (s.routers i).buffer.curr.epoch - u =
      (s.routers i).buffer.curr.epoch - u - 1 + 1 := by omega
  have hlast : (s.routers i).buffer.curr.epoch - 1 - u =
      (s.routers i).buffer.curr.epoch - u - 1 := by omega
  rw [hlast] at hrecent
  rw [hsucc, List.take_add_one, Nat.add_sub_cancel, hrecent, hslot]
  rfl

/-- Every vector accepted was begun, and no epoch is skipped or repeated. -/
theorem HistoryInv.accepted_getElem? (h : HistoryInv C log s) {i j : Fin n}
    (hij : C.topology.IsNeighbor i j) {m : Nat} {v : DistanceVector n}
    (hv : (ConcurrencyLab.accepted log i j)[m]? = some v) :
    v.epoch = m + 1 ∧ (begun C log i)[m]? = some v ∧
      v.epoch ≤ (s.routers i).buffer.curr.epoch := by
  rw [h.accepted hij, List.getElem?_take] at hv
  split at hv
  · next hm =>
    have hepoch := h.epoch hv
    exact ⟨hepoch, hv, by omega⟩
  · contradiction

theorem HistoryInv.taken_prefix (h : HistoryInv C log s) {i j : Fin n}
    (hij : C.topology.IsNeighbor i j) :
    ConcurrencyLab.taken log i j <+: ConcurrencyLab.accepted log i j := by
  rw [h.accepted hij, h.taken hij]
  exact List.take_prefix_take_left (Nat.sub_le _ _)

end Invariant

/-- **Broadcasts are exactly once, in order and intact at hand-over.**  The
`m`-th vector of `i` that `j` takes is the one with which `i` began epoch
`m + 1`; a vector still stored is the next one; and no epoch begins before all
neighbours' drivers have accepted the one before it. -/
theorem broadcast_in_order {C : Config n} {log : List (Event n)} {s : State n} {i j : Fin n}
    (h : (stress C).Run log s) (hij : C.topology.IsNeighbor i j) :
    (∀ m v, (taken log i j)[m]? = some v → v.epoch = m + 1 ∧ (begun C log i)[m]? = some v) ∧
    (∀ v ∈ taken log i j, v.epoch ≤ (s.routers i).buffer.curr.epoch) ∧
    (∀ slot, some ⟨i, slot⟩ ∈ s.queues j →
      (s.load ⟨i, slot⟩).epoch = (taken log i j).length + 1 ∧
      (s.load ⟨i, slot⟩).epoch ≤ (s.routers i).buffer.curr.epoch) ∧
    ∀ pre v post, log = pre ++ .begin i v :: post →
      ∃ u ∈ accepted pre i j, u.epoch + 1 = v.epoch := by
  have hhist := run_historyInv h
  have htaken : ∀ (m : Nat) v, (taken log i j)[m]? = some v → (accepted log i j)[m]? = some v := by
    intro m v hv
    obtain ⟨rest, hrest⟩ := hhist.taken_prefix hij
    have hlt := (List.getElem?_eq_some_iff.mp hv).1
    rw [← hrest, List.getElem?_append_left hlt, hv]
  constructor
  · intro m v hv
    obtain ⟨hepoch, hbegun, -⟩ := hhist.accepted_getElem? hij (htaken m v hv)
    exact ⟨hepoch, hbegun⟩
  constructor
  · intro v hv
    obtain ⟨m, hm⟩ := List.getElem?_of_mem hv
    exact (hhist.accepted_getElem? hij (htaken m v hm)).2.2
  constructor
  · intro slot hq
    have hsplit := hhist.accepted_eq (run_pipeInv h) hq
    have hlast : (accepted log i j)[(taken log i j).length]? = some (s.load ⟨i, slot⟩) := by
      rw [hsplit, List.getElem?_concat_length]
    obtain ⟨hepoch, -, hle⟩ := hhist.accepted_getElem? hij hlast
    exact ⟨hepoch, hle⟩
  · intro pre v post heq
    exact run_beginsAfterAccepted h pre i v post heq j hij

theorem broadcast_in_order_twoRouters : ∃ log s, (stress twoRouters).Run log s ∧
    (taken log 0 1).map (·.epoch) = [1, 2] ∧
    (∀ m v, (taken log 0 1)[m]? = some v →
      v.epoch = m + 1 ∧ (begun twoRouters log 0)[m]? = some v) ∧
    (∀ v ∈ taken log 0 1, v.epoch ≤ (s.routers 0).buffer.curr.epoch) ∧
    (∀ slot, some ⟨0, slot⟩ ∈ s.queues 1 →
      (s.load ⟨0, slot⟩).epoch = (taken log 0 1).length + 1 ∧
      (s.load ⟨0, slot⟩).epoch ≤ (s.routers 0).buffer.curr.epoch) ∧
    ∀ pre v post, log = pre ++ .begin 0 v :: post →
      ∃ u ∈ accepted pre 0 1, u.epoch + 1 = v.epoch := by
  obtain ⟨log, s, hr, hepochs⟩ := Lts.Run.exists_of_exec (stress twoRouters)
    (unroll twoRoutersSettle)
    (fun q => (taken q.1 0 1).map (·.epoch) == [1, 2]) (by decide +kernel)
  exact ⟨log, s, hr, by simpa using hepochs, broadcast_in_order hr (by decide)⟩

end ConcurrencyLab
