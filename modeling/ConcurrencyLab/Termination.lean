import ConcurrencyLab.History
import ConcurrencyLab.Progress
import ConcurrencyLab.Sound
import Mathlib.Algebra.BigOperators.Fin
import Mathlib.Algebra.Order.BigOperators.Group.Finset

/-!
# ConcurrencyLab.Termination

The routers come to rest by themselves.  A new epoch lowers the sum of a
router's current vector, which is a natural number; everything else a router
does between two epochs is paid for by a constant share of that sum.

* `Router.work`, `State.work` — the work that is left.  An epoch pays for its
  broadcast, an offered entry for the vector it will store, a stored vector for
  the loop that reads it;
* `work_lt` — each step of the routers, as long as the main thread is between
  two calls of `check_done`, leaves less;
* `resting` — where no step is left, every broadcast is complete and no vector
  is stored.
-/

namespace ConcurrencyLab

variable {n : Nat}

/-! ## sums that change in one place -/

theorem sum_add_eq_of_eq_off {f g : Fin n → Nat} (i : Fin n) (h : ∀ x, x ≠ i → g x = f x) :
    ∑ x, g x + f i = ∑ x, f x + g i := by
  rw [← Finset.add_sum_erase _ f (Finset.mem_univ i),
    ← Finset.add_sum_erase _ g (Finset.mem_univ i)]
  have hrest : ∑ x ∈ Finset.univ.erase i, g x = ∑ x ∈ Finset.univ.erase i, f x :=
    Finset.sum_congr rfl fun x hx => h x (Finset.ne_of_mem_erase hx)
  omega

/-! ## an epoch lowers the current vector -/

section Epochs

variable {T : Topology n} {i : Fin n} {r : Router n}

/-- When an epoch begins, some entry of the new vector is lower. -/
theorem Router.Inv.exists_lt (h : r.Inv T i) (hpc : r.pc = .check) (hreset : r.MustReset) :
    ∃ k, r.buffer.next.dist k < r.buffer.curr.dist k := by
  have hcopy : r.pc.isCopy = false := by rw [hpc]; rfl
  obtain ⟨k, hne⟩ := (h.driverged_iff hcopy).mp hreset.2
  exact ⟨k, Nat.lt_of_le_of_ne (h.next_le hcopy k) hne⟩

theorem Router.Inv.sum_next_lt (h : r.Inv T i) (hpc : r.pc = .check) (hreset : r.MustReset) :
    ∑ k, r.buffer.next.dist k < ∑ k, r.buffer.curr.dist k := by
  obtain ⟨k, hlt⟩ := h.exists_lt hpc hreset
  exact Finset.sum_lt_sum (fun a _ => h.next_le (by rw [hpc]; rfl) a) ⟨k, Finset.mem_univ k, hlt⟩

end Epochs

section Steps

variable {C : Config n} {log : List (Event n)} {s s' : State n} {es : List (Event n)}

/-- Consecutive vectors of a router go down. -/
def Descending (vs : List (DistanceVector n)) : Prop :=
  ∀ m u v, vs[m]? = some u → vs[m + 1]? = some v →
    (∀ k, v.dist k ≤ u.dist k) ∧ ∃ k, v.dist k < u.dist k

theorem Descending.concat {vs : List (DistanceVector n)} {last v : DistanceVector n}
    (h : Descending vs) (hlast : vs[vs.length - 1]? = some last)
    (hle : ∀ k, v.dist k ≤ last.dist k) (hlt : ∃ k, v.dist k < last.dist k) :
    Descending (vs ++ [v]) := by
  intro m u w hu hw
  by_cases hm : m + 1 < vs.length
  · rw [List.getElem?_append_left (by omega)] at hu
    rw [List.getElem?_append_left hm] at hw
    exact h m u w hu hw
  · have hbound := (List.getElem?_eq_some_iff.mp hw).1
    rw [List.length_append, List.length_singleton] at hbound
    have hm' : m = vs.length - 1 := by omega
    have hlen : m + 1 = vs.length := by omega
    rw [hlen, List.getElem?_concat_length] at hw
    cases hw
    rw [List.getElem?_append_left (by omega), hm', hlast] at hu
    cases hu
    exact ⟨hle, hlt⟩

/-- Each started epoch strictly lowers some entry and raises none. -/
theorem run_descending (h : (stress C).Run log s) (i : Fin n) : Descending (begun C log i) := by
  refine run_vectorInvariant (P := fun log _ => Descending (begun C log i)) ?_ ?_ h
  · intro m u v hu hv
    rw [begun_nil, List.getElem?_singleton] at hv
    split at hv
    · next hm => omega
    · contradiction
  · intro log s es s' hr hp hs
    cases hs with
    | quiet hr' hq hes => rw [begun_quiet C log i hes]; exact hp
    | take => rw [begun_take]; exact hp
    | accept => rw [begun_accept]; exact hp
    | @meet a b m s' hpc hab hm he hq hpcb hr' hq' =>
        rw [List.append_cons, begun_take, begun_accept]
        exact hp
    | @rotate a s' hpc hreset hr' hq' =>
        rw [begun_begin]
        by_cases hai : a = i
        · subst hai
          have hinv := run_routerInv hr a
          have hlast := (run_historyInv hr).recent a 0 (by omega) hinv.buffer.epoch_pos
          rw [← (run_historyInv hr).length a, Nat.sub_zero] at hlast
          rw [if_pos rfl]
          exact hp.concat hlast (fun k => hinv.next_le (by rw [hpc]; rfl) k)
            (hinv.exists_lt hpc hreset)
        · rw [if_neg hai, List.append_nil]
          exact hp

/-- The epoch of a router is paid for by what its vector has gone down. -/
theorem run_epoch_le (h : (stress C).Run log s) (i : Fin n) :
    (s.routers i).buffer.curr.epoch ≤
      1 + ∑ k, (C.topology.link i k - (s.routers i).buffer.curr.dist k) := by
  refine run_vectorInvariant (P := fun _ s => (s.routers i).buffer.curr.epoch ≤
    1 + ∑ k, (C.topology.link i k - (s.routers i).buffer.curr.dist k)) ?_ ?_ h
  · simp [State.init, Router.init, TripleBuffer.init, TripleBuffer.curr]
  · intro log s es s' hr hp hs
    have hinv := run_routerInv hr
    cases hs with
    | quiet hr' hq hes => rw [(hr' i).curr]; exact hp
    | take hpc hq hr' hq' => rw [buffer_take hr']; exact hp
    | accept hpc hij hm he hq hr' hq' => rw [buffer_accept hr']; exact hp
    | meet hpc hij hm he hq hpcj hr' hq' => rw [buffer_meet hr']; exact hp
    | @rotate a s' hpc hreset hr' hq' =>
        rw [hr']
        split
        · next hia =>
          subst hia
          obtain ⟨k, hlt⟩ := (hinv i).exists_lt hpc hreset
          have hlink : (s.routers i).buffer.curr.dist k ≤ C.topology.link i k :=
            ((run_soundInv hr).vectors ⟨i, (s.routers i).buffer.currState⟩ k).le_link
          have hsum : ∑ k, (C.topology.link i k - (s.routers i).buffer.curr.dist k) <
              ∑ k, (C.topology.link i k - (s.routers i).buffer.next.dist k) := by
            refine Finset.sum_lt_sum (fun a _ => ?_) ⟨k, Finset.mem_univ k, by omega⟩
            have hle := (hinv i).next_le (by rw [hpc]; rfl) a
            omega
          have hnext := (hinv i).buffer.epoch_next
          simp only [Router.rotated, (hinv i).buffer.curr_cycle]
          omega
        · exact hp

/-! ## broadcasts per epoch -/

/-- The vectors of router `i` that any driver has accepted, with that driver. -/
def sent (log : List (Event n)) (i : Fin n) : List (Fin n × DistanceVector n) :=
  log.filterMap fun e => match e with
    | .accept src dst (some v) => if src = i then some (dst, v) else none
    | _ => none

/-- An event counts for the one driver that accepted the vector. -/
theorem length_sent_singleton (e : Event n) (i : Fin n) :
    (sent [e] i).length = ∑ j, (accepted [e] i j).length := by
  cases e with
  | accept src dst job =>
      cases job with
      | none => simp [sent, accepted]
      | some v =>
          by_cases hsrc : src = i
          · have hone : ∀ j, (accepted [.accept src dst (some v)] i j).length =
                if j = dst then 1 else 0 := by
              intro j
              by_cases hj : dst = j
              · simp [accepted, hsrc, hj]
              · simp [accepted, hj, Ne.symm hj]
            simp only [hone, Finset.sum_ite_eq', Finset.mem_univ, if_true]
            simp [sent, hsrc]
          · simp [sent, accepted, hsrc]
  | take | begin | round | probe | reply | collect => simp [sent, accepted]

theorem length_sent (log : List (Event n)) (i : Fin n) :
    (sent log i).length = ∑ j, (accepted log i j).length := by
  induction log with
  | nil => simp [sent, accepted]
  | cons e log ih =>
      have hsent : sent ([e] ++ log) i = sent [e] i ++ sent log i := List.filterMap_append
      have haccepted : ∀ j, accepted ([e] ++ log) i j = accepted [e] i j ++ accepted log i j :=
        fun j => List.filterMap_append
      have hcons : e :: log = [e] ++ log := rfl
      simp only [hcons, hsent, haccepted, List.length_append, Finset.sum_add_distrib, ih,
        length_sent_singleton]

/-- Drivers of other routers than the neighbours accept nothing. -/
theorem run_accepted_of_not_isNeighbor (h : (stress C).Run log s) {i j : Fin n}
    (hij : ¬ C.topology.IsNeighbor i j) : accepted log i j = [] := by
  refine run_vectorInvariant (P := fun log _ => accepted log i j = []) rfl
    (fun {log s es s'} _ hp hs => ?_) h
  cases hs with
  | quiet hr hq hes => rw [accepted_quiet log i j hes]; exact hp
  | take => rw [accepted_take]; exact hp
  | rotate => rw [accepted_begin]; exact hp
  | @accept a b m s' hpc hab hm he hq hr' hq' =>
      have hne : ¬ (a = i ∧ b = j) := fun hc => hij (hc.1 ▸ hc.2 ▸ hab)
      rw [accepted_accept, hp, if_neg hne, List.append_nil]
  | @meet a b m s' hpc hab hm he hq hpcb hr' hq' =>
      have hne : ¬ (a = i ∧ b = j) := fun hc => hij (hc.1 ▸ hc.2 ▸ hab)
      rw [List.append_cons, accepted_take, accepted_accept, hp, if_neg hne, List.append_nil]

/-- A neighbour accepts no more than one vector in each epoch. -/
theorem run_length_accepted_le (h : (stress C).Run log s) {i j : Fin n}
    (hij : C.topology.IsNeighbor i j) :
    (accepted log i j).length ≤ (s.routers i).buffer.curr.epoch := by
  have hhist := run_historyInv h
  rw [hhist.accepted hij, List.length_take, hhist.length]
  omega

/-- A router gets no more vectors accepted than one by each neighbour and
epoch. -/
theorem run_length_sent_le (h : (stress C).Run log s) (i : Fin n) :
    (sent log i).length ≤
      (C.topology.neighbors i).length * (s.routers i).buffer.curr.epoch := by
  have hcard : (C.topology.neighbors i).length =
      (Finset.univ.filter (C.topology.IsNeighbor i)).card := by
    rw [← List.toFinset_card_of_nodup (SelectList.nodup_neighbors C.topology i)]
    congr 1
    ext j
    simp
  have hterm : ∀ j, (accepted log i j).length ≤
      if C.topology.IsNeighbor i j then (s.routers i).buffer.curr.epoch else 0 := by
    intro j
    split
    · next hij => exact run_length_accepted_le h hij
    · next hij => rw [run_accepted_of_not_isNeighbor h hij]; rfl
  calc (sent log i).length = ∑ j, (accepted log i j).length := length_sent log i
    _ ≤ ∑ j, if C.topology.IsNeighbor i j then (s.routers i).buffer.curr.epoch else 0 :=
        Finset.sum_le_sum fun j _ => hterm j
    _ = (C.topology.neighbors i).length * (s.routers i).buffer.curr.epoch := by
        rw [← Finset.sum_filter, Finset.sum_const, smul_eq_mul, hcard]

end Steps

/-! ## the work that is left -/

/-- Work for an offered SCHDLE entry: the vector it stores, and the test after
it. -/
def entryWork (n : Nat) : Nat := n + 6

/-- Work for a stored job: the loop that reads it. -/
def jobWork (n : Nat) : Nat := n + 4

/-- Work for an epoch: the copy loop and a broadcast to all neighbours. -/
def epochWork (n : Nat) : Nat := entryWork n * n + n + 1

/-- Work until the router is back at its select. -/
def RouterPc.work : RouterPc n → Nat
  | .received _ => n + 3
  | .relax _ _ k => n - k + 2
  | .check => 1
  | .copy k => n - k + 1 + entryWork n * n
  | .select | .reply _ | .exited => 0

def Router.work (r : Router n) : Nat :=
  epochWork n * ∑ k, r.buffer.curr.dist k + entryWork n * (r.selects.selectCount - 2) + r.pc.work

def State.work (s : State n) : Nat :=
  ∑ i, (s.routers i).work + jobWork n * ∑ i, (s.queues i).length

section Work

variable {C : Config n} {log : List (Event n)} {s s' : State n} {es : List (Event n)}

theorem State.work_setRouter (s : State n) (i : Fin n) (r : Router n) :
    (s.setRouter i r).work + (s.routers i).work = s.work + r.work := by
  have hsum := sum_add_eq_of_eq_off (f := fun x => (s.routers x).work)
    (g := fun x => ((s.setRouter i r).routers x).work) i fun x hx => by simp [hx]
  simp only [State.routers_setRouter, if_true] at hsum
  simp only [work, State.routers_setRouter, State.queues_setRouter]
  omega

theorem State.work_setQueue (s : State n) (i : Fin n) (q : List (Job n)) :
    (s.setQueue i q).work + jobWork n * (s.queues i).length = s.work + jobWork n * q.length := by
  have hsum := sum_add_eq_of_eq_off (f := fun x => (s.queues x).length)
    (g := fun x => ((s.setQueue i q).queues x).length) i fun x hx => by simp [hx]
  simp only [State.queues_setQueue, if_true] at hsum
  have hmul := congrArg (jobWork n * ·) hsum
  simp only [Nat.mul_add] at hmul
  simp only [work, State.routers_setQueue, State.queues_setQueue]
  omega

/-- Taking a job up costs no more than the loop that reads it. -/
theorem Router.work_handled (r : Router n) (i : Fin n) (job : Job n) (hpc : r.pc = .select) :
    (r.handled i job).work ≤ r.work + (n + 3) := by
  cases job <;> simp [work, handled, hpc, RouterPc.work, SelectList.storeJob]

/-- A performed entry has paid for the job it stored. -/
theorem Router.Inv.work_sent {T : Topology n} {i j : Fin n} {r : Router n} (h : r.Inv T i)
    (hpc : r.pc = .select) {m : Nat} {job : Job n} (hm : m < r.selects.selectCount)
    (he : r.selects.entries[m]? = some ⟨.drivers j, .schdle, job⟩) :
    (r.sent m).work + (n + 5) = r.work := by
  have hm2 := h.selects.two_le_of_entry he
  have hcount : r.selects.selectCount - 2 = r.selects.selectCount - 1 - 2 + 1 := by omega
  simp only [work, Router.sent, SelectList.remove, hpc, RouterPc.work]
  rw [hcount, Nat.mul_succ, entryWork]
  omega

/-- Between two driver calls a router works something off. -/
theorem LocalStep.work_lt {i : Fin n} {r : Router n} (hinv : (s.routers i).Inv C.topology i)
    (h : LocalStep C s i es r) (hopen : s.doneClosed = false) : r.work < (s.routers i).work := by
  cases h with
  | received hpc => simp only [Router.work, Router.goto, hpc, RouterPc.work]; omega
  | @relaxed p nd k hpc =>
      have hk := k.isLt
      unfold Router.relaxed
      split
      · simp only [Router.work, hinv.buffer.curr_writeNext, hpc, RouterPc.work]; omega
      · simp only [Router.work, Router.goto, hpc, RouterPc.work]; omega
  | relaxDone hpc hk => simp only [Router.work, Router.goto, hpc, RouterPc.work]; omega
  | rotated hpc hreset =>
      have hsum := Nat.mul_le_mul_left (epochWork n) (hinv.sum_next_lt hpc hreset)
      rw [Nat.mul_succ] at hsum
      have hepoch : epochWork n = entryWork n * n + n + 1 := rfl
      simp only [Router.work, Router.rotated, hinv.buffer.curr_cycle, hpc, RouterPc.work]
      omega
  | skipped hpc hreset => simp only [Router.work, Router.goto, hpc, RouterPc.work]; omega
  | @copied k hpc =>
      have hk := k.isLt
      simp only [Router.work, Router.copied, hinv.buffer.curr_writeNext, hpc, RouterPc.work]
      omega
  | reset hpc hk =>
      have hcount := (hinv.copy _ hpc).2.1
      have hlen : (C.topology.neighbors i).length ≤ n := by
        have hle := List.length_filter_le (C.topology.IsNeighbor i ·) (List.finRange n)
        rwa [List.length_finRange] at hle
      have htotal : (s.routers i).selects.totalSelectCount - 2 ≤ n := by
        rw [hinv.selects.total]; omega
      have hbroadcast := Nat.mul_le_mul_left (entryWork n) htotal
      simp only [Router.work, Router.reset, SelectList.rearm, hpc, RouterPc.work, hcount]
      omega
  | left hpc hclosed => rw [hopen] at hclosed; cases hclosed

/-- The routers do not touch the main thread between two calls. -/
theorem main_of_step {a : Action n} (h : step C s a = some (es, s')) (ha : a ≠ .main)
    (hmain : s.main.pc = .between) : s'.main = s.main := by
  unfold step at h
  split at h
  · contradiction
  cases a with
  | handle i =>
      simp only [stepHandle] at h
      split at h <;> cases h
      rfl
  | schedule i m =>
      simp only [stepSchedule] at h
      split at h
      · split at h
        · split at h
          · cases h; rfl
          · split at h <;> cases h
            rfl
        · cases h
      · cases h
  | closed i =>
      simp only [stepClosed] at h
      split at h
      · split at h <;> cases h <;> rfl
      · cases h
  | «continue» i =>
      simp only [stepContinue] at h
      split at h
      · split at h <;> cases h <;> rfl
      · split at h <;> cases h <;> rfl
      · split at h <;> cases h <;> rfl
      · split at h <;> cases h <;> rfl
      · cases h
  | reply i =>
      simp only [stepReply, hmain] at h
      split at h
      · split at h <;> cases h
        rfl
      · cases h
  | main => exact absurd rfl ha

/-- **Each step of the routers leaves less work**, while the main thread is
between two calls. -/
theorem work_lt (hT : C.topology.TwoWay) (hr : (stress C).Run log s)
    (hmain : s.main.pc = .between) {a : Action n} (hs : step C s a = some (es, s'))
    (ha : a ≠ .main) : s'.work < s.work := by
  have hinv := run_routerInv hr
  have hkeep := main_of_step hs ha hmain
  have hidle := (run_probeInv hr).idle (by rw [probeView_main, hmain]; rfl)
  have hreply : ∀ i job, (s.routers i).pc ≠ .reply job := by
    intro i job hpc
    have hnone := (hidle.2 i).2
    rw [probeView_replying, hpc] at hnone
    cases hnone
  have hopen : s.doneClosed = false := by rw [(run_closeInv hr).closed, hmain]; rfl
  have hjob : jobWork n = n + 4 := rfl
  have ht := (trans_of_step hs).2
  cases ht with
  | @handle i job rest hpc hq =>
      have h₁ := s.work_setQueue i rest
      have h₂ := (s.setQueue i rest).work_setRouter i ((s.routers i).handled i job)
      have h₃ := (s.routers i).work_handled i job hpc
      rw [hq, List.length_cons, Nat.mul_succ] at h₁
      rw [State.routers_setQueue] at h₂
      omega
  | @schedule i j m job hpc hm he hroom =>
      have h₁ := s.work_setQueue j (s.queues j ++ [job])
      have h₂ := (s.setQueue j (s.queues j ++ [job])).work_setRouter i ((s.routers i).sent m)
      have h₃ := (hinv i).work_sent hpc hm he
      rw [List.length_append, List.length_singleton, Nat.mul_succ] at h₁
      rw [State.routers_setQueue] at h₂
      omega
  | @meet i j m job hpc hm he hbuf hne hpcj =>
      have h₁ := s.work_setRouter i ((s.routers i).sent m)
      have h₂ := (s.setRouter i ((s.routers i).sent m)).work_setRouter j
        ((s.routers j).handled j job)
      have h₃ := (hinv i).work_sent hpc hm he
      have h₄ := (s.routers j).work_handled j job hpcj
      rw [State.routers_setRouter, if_neg hne] at h₂
      omega
  | @router i es r h =>
      have h₁ := s.work_setRouter i r
      have h₂ := h.work_lt (hinv i) hopen
      omega
  | reply hpc => exact absurd hpc (hreply _ _)
  | replyMeet hpc => exact absurd hpc (hreply _ _)
  | probe hpc => rw [hmain] at hpc; cases hpc
  | probeMeet hpc => rw [hmain] at hpc; cases hpc
  | collect hpc => rw [hmain] at hpc; cases hpc
  | main h =>
      cases h with
      | call hpc =>
          have hpc' : s.main.pc = .probe .first 0 := (congrArg Main.pc hkeep).symm
          rw [hmain] at hpc'
          cases hpc'
      | probeDone hpc | firstValid hpc | secondValid hpc | invalid hpc | compared hpc | resultOk hpc
      | resultRow hpc | resultsDone hpc | close hpc | joinOne hpc | joinDone hpc =>
          rw [hmain] at hpc; cases hpc
  | @abort f hfault =>
      have hnone := fault_eq_none_of_between hT (hr.step hs) hmain
      cases hnone

/-- The routers cannot take more steps than there is work. -/
theorem exec_length_le_work (hT : C.topology.TwoWay) (hr : (stress C).Run log s)
    (hmain : s.main.pc = .between) {as : List (Action n)} (ha : ∀ a ∈ as, a ≠ .main)
    (he : (stress C).exec s as = some (es, s')) : as.length + s'.work ≤ s.work := by
  refine (stress C).exec_length_le (A := (· ≠ .main))
    (P := fun s => (∃ log, (stress C).Run log s) ∧ s.main.pc = .between) State.work ?_ ha he
    ⟨⟨log, hr⟩, hmain⟩
  intro s a es s' ha hp hs
  obtain ⟨⟨log, hr⟩, hmain⟩ := hp
  refine ⟨⟨⟨_, hr.step hs⟩, ?_⟩, work_lt hT hr hmain hs ha⟩
  rw [main_of_step hs ha hmain]
  exact hmain

/-! ## at rest -/

/-- **Where no router can move**, every broadcast is complete, nobody diverges
and no vector is stored: full drivers cannot block each other, because a router
that cannot move is waiting in its select and would take what is stored. -/
theorem resting (hT : C.topology.TwoWay) (hr : (stress C).Run log s)
    (hmain : s.main.pc = .between) (hstuck : ∀ a, a ≠ .main → step C s a = none) (i : Fin n) :
    (s.routers i).selects.selectCount = 2 ∧ (s.routers i).driverged = false ∧
      ∀ p, some p ∉ s.queues i := by
  have hf := fault_eq_none_of_between hT hr hmain
  have hinv := run_routerInv hr
  have hblocked : ∀ a, a ≠ .main → ¬ (step C s a).isSome := by
    intro a ha; rw [hstuck a ha]; simp
  have hselect : ∀ j, (s.routers j).pc = .select := by
    intro j
    have hrun : (s.routers j).pc.running = false := by
      cases hrun : (s.routers j).pc.running with
      | true => exact absurd (continue_isSome hf hrun) (hblocked _ (by simp))
      | false => rfl
    rcases RouterPc.cases_not_running hrun with hpc | ⟨job, hpc⟩ | hpc
    · exact hpc
    · have hidle := ((run_probeInv hr).idle (by rw [probeView_main, hmain]; rfl)).2 j
      rw [probeView_replying, hpc] at hidle
      cases hidle.2
    · have hclosed := (run_closeInv hr).exited j hpc
      rw [(run_closeInv hr).closed, hmain] at hclosed
      cases hclosed
  have hqueue : ∀ j, s.queues j = [] := by
    intro j
    by_contra hq
    exact hblocked (.handle j) (by simp) (handle_isSome hf (hselect j) hq)
  have hcount : (s.routers i).selects.selectCount = 2 := by
    have htwo := (hinv i).selects.two_le
    by_contra hne
    obtain ⟨m, j, hm, hij, he⟩ := (hinv i).selects.exists_entry_of_two_lt (by omega)
    refine hblocked (.schedule i m) (by simp) (schedule_isSome hf (hselect i) hm he ?_)
    have hone := C.bufferSize_le
    rw [hqueue j]
    by_cases hbuf : C.bufferSize = 0
    · exact .inr ⟨hbuf, hij.1, hselect j⟩
    · exact .inl (by simp; omega)
  refine ⟨hcount, ?_, fun p => by rw [hqueue i]; simp⟩
  cases hd : (s.routers i).driverged with
  | false => rfl
  | true =>
      have hwait := (hinv i).waiting (.inl (hselect i)) hd
      omega

/-- A router that has sent everything offers nothing to its select. -/
theorem schedule_eq_none {i : Fin n} (hinv : (s.routers i).Inv C.topology i)
    (hcount : (s.routers i).selects.selectCount = 2) (m : Nat) :
    step C s (.schedule i m) = none := by
  unfold step
  split
  · rfl
  simp only [stepSchedule]
  split
  · next hm =>
    split
    · next j job he => exact absurd he (hinv.selects.not_offered_of_two hcount hm.2)
    · rfl
  · rfl

/-- Conversely, routers that wait in their selects with nothing to send and
nothing to take cannot move. -/
theorem stuck_of_idle (hr : (stress C).Run log s) (hmain : s.main.pc = .between)
    (hidle : ∀ i, (s.routers i).pc = .select ∧ (s.routers i).selects.selectCount = 2 ∧
      s.queues i = []) (a : Action n) (ha : a ≠ .main) : step C s a = none := by
  have hopen : s.doneClosed = false := by rw [(run_closeInv hr).closed, hmain]; rfl
  cases a with
  | handle i => simp [step, stepHandle, (hidle i).1, (hidle i).2.2]
  | schedule i m => exact schedule_eq_none (run_routerInv hr i) (hidle i).2.1 m
  | closed i => simp [step, stepClosed, hopen]
  | «continue» i => simp [step, stepContinue, (hidle i).1]
  | reply i => simp [step, stepReply, (hidle i).1]
  | main => exact absurd rfl ha

end Work

/-- **The routing computation terminates in quiescence.**  Between two calls of
`check_done`, the routers alone can take only so many steps; each epoch lowers
an entry of its router's vector and raises none, which bounds epochs and
broadcasts; and where no router can move, everything has been delivered. -/
theorem routing_terminates {C : Config n} {log : List (Event n)} {s : State n}
    (hT : C.topology.TwoWay) (h : (stress C).Run log s) (hmain : s.main.pc = .between) :
    (∃ bound, ∀ as es s', (∀ a ∈ as, a ≠ .main) → (stress C).exec s as = some (es, s') →
      as.length ≤ bound) ∧
    (∀ i, Descending (begun C log i)) ∧
    (∀ i, (s.routers i).buffer.curr.epoch - 1 ≤
      ∑ k, (C.topology.link i k - (s.routers i).buffer.curr.dist k)) ∧
    (∀ i, (sent log i).length ≤
      (C.topology.neighbors i).length * (s.routers i).buffer.curr.epoch) ∧
    ((∀ a, a ≠ .main → step C s a = none) → ∀ i,
      (s.routers i).selects.selectCount = 2 ∧ (s.routers i).driverged = false ∧
      ∀ p, some p ∉ s.queues i) := by
  constructor
  · refine ⟨s.work, fun as es s' ha he => ?_⟩
    exact Nat.le_trans (Nat.le_add_right _ _) (exec_length_le_work hT h hmain ha he)
  constructor
  · exact run_descending h
  constructor
  · intro i
    have hle := run_epoch_le h i
    omega
  constructor
  · exact run_length_sent_le h
  · exact resting hT h hmain

theorem routing_terminates_twoRouters : ∃ log s, (stress twoRouters).Run log s ∧
    (begun twoRouters log 0).length = 2 ∧ (sent log 0).length = 2 ∧
    (∃ bound, ∀ as es s', (∀ a ∈ as, a ≠ .main) →
      (stress twoRouters).exec s as = some (es, s') → as.length ≤ bound) ∧
    ∀ i, (s.routers i).selects.selectCount = 2 ∧ (s.routers i).driverged = false ∧
      ∀ p, some p ∉ s.queues i := by
  obtain ⟨log, s, hr, hp⟩ := Lts.Run.exists_of_exec (stress twoRouters) (unroll twoRoutersSettle)
    (fun q => decide (q.2.main.pc = .between ∧
      (begun twoRouters q.1 0).length = 2 ∧ (sent q.1 0).length = 2 ∧
      ∀ i, (q.2.routers i).pc = .select ∧ (q.2.routers i).selects.selectCount = 2 ∧
        q.2.queues i = [])) (by decide +kernel)
  obtain ⟨hmain, hbegun, hsent, hidle⟩ : s.main.pc = .between ∧
    (begun twoRouters log 0).length = 2 ∧ (sent log 0).length = 2 ∧
    ∀ i, (s.routers i).pc = .select ∧ (s.routers i).selects.selectCount = 2 ∧
      s.queues i = [] := of_decide_eq_true hp
  have hends := routing_terminates (by decide) hr hmain
  exact ⟨log, s, hr, hbegun, hsent, hends.1, hends.2.2.2.2 (stuck_of_idle hr hmain hidle)⟩

end ConcurrencyLab
