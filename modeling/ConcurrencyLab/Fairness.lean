import ConcurrencyLab.Rendezvous

/-!
# ConcurrencyLab.Fairness

`run_stress` ends if its loop leaves the routers some time.

The loop of line 320 may call `check_done` as often as it likes and is answered
`false` every time, if no router gets on in between.  So something has to be asked of
the schedule.  It is little: that since the last call another vector has been sent,
or else that the routers are at rest (`CallsApart`).  With `buffer_size = 0` every
such run comes to its proper end (`fair_run_finishes`).

The links bound the number of vectors that are ever sent (`sendings_le_traffic`), hence
that of calls, hence that of steps.
-/

namespace ConcurrencyLab

variable {n : Nat}

/-! ## traffic -/

/-- A driver accepts a vector. -/
def Event.isSending : Event n → Bool
  | .accept _ _ (some _) => true
  | _ => false

/-- How many vectors have been accepted. -/
def sendings (es : List (Event n)) : Nat := es.countP Event.isSending

/-- What the links leave room for: a router broadcasts its vector once, and again when
an entry has gone down. -/
def Config.traffic (C : Config n) : Nat :=
  ∑ i, (C.topology.neighbors i).length *
    (1 + ∑ k, (C.topology.link i k - C.topology.floydWarshall i k))

theorem sendings_append (es es' : List (Event n)) :
    sendings (es ++ es') = sendings es + sendings es' :=
  List.countP_append

/-- Each vector is sent by one router. -/
theorem sendings_eq_sum (log : List (Event n)) : sendings log = ∑ i, (sent log i).length := by
  have hone : ∀ e : Event n, sendings [e] = ∑ i, (sent [e] i).length := by
    intro e
    cases e with
    | accept src dst job =>
        cases job with
        | none => simp [sendings, Event.isSending, sent]
        | some v =>
            have hlen : ∀ i, (sent [.accept src dst (some v)] i).length =
                if src = i then 1 else 0 := by
              intro i
              by_cases hsrc : src = i <;> simp [sent, hsrc]
            simp only [hlen, Finset.sum_ite_eq, Finset.mem_univ, if_true]
            rfl
    | _ => simp [sendings, Event.isSending, sent]
  induction log with
  | nil => simp [sendings, sent]
  | cons e log ih =>
      have hsent : ∀ i, sent ([e] ++ log) i = sent [e] i ++ sent log i := fun i =>
        List.filterMap_append
      have hcons : e :: log = [e] ++ log := rfl
      simp only [hcons, sendings_append, hsent, List.length_append, Finset.sum_add_distrib, ih,
        hone]

section Steps

variable {C : Config n} {log : List (Event n)} {s s' : State n} {es : List (Event n)}

/-- No run sends more. -/
theorem sendings_le_traffic (h : (stress C).Run log s) : sendings log ≤ C.traffic := by
  rw [sendings_eq_sum]
  refine Finset.sum_le_sum fun i _ => Nat.le_trans (run_length_sent_le h i)
    (Nat.mul_le_mul_left _ (Nat.le_trans (run_epoch_le h i) ?_))
  refine Nat.add_le_add_left (Finset.sum_le_sum fun k _ => ?_) 1
  have hlow := ((run_soundInv h).vectors ⟨i, (s.routers i).buffer.currState⟩ k).floydWarshall_le
  exact Nat.sub_le_sub_left hlow _

/-! ## calls with something in between -/

/-- Another vector has been sent since the last call began, or there was none yet. -/
def sentSince (log : List (Event n)) : Bool :=
  log.foldl (fun b e => !e.isCall && (b || e.isSending)) true

theorem sentSince_append (log es : List (Event n)) (h : calls es = 0) :
    sentSince (log ++ es) = (sentSince log || decide (sendings es ≠ 0)) := by
  unfold sentSince
  rw [List.foldl_append]
  generalize log.foldl (fun b e => !e.isCall && (b || e.isSending)) true = b
  induction es generalizing b with
  | nil => simp [sendings]
  | cons e es ih =>
      have hcons : e :: es = [e] ++ es := rfl
      rw [hcons, calls_append] at h
      have hcall : e.isCall = false := by
        by_contra hne
        have : calls [e] = 1 := by simp [calls, hne]
        omega
      rw [List.foldl_cons, ih (by omega), hcall, hcons, sendings_append]
      cases hv : e.isSending <;> simp [sendings, hv]

/-- A call begins when another vector has been sent since the last one, or when no
router can move. -/
def CallsApart (C : Config n) (log : List (Event n)) (s : State n) (es : List (Event n)) : Prop :=
  calls es ≠ 0 → sentSince log = true ∨ s.AtRest C

instance (C : Config n) (log : List (Event n)) (s : State n) (es : List (Event n)) :
    Decidable (CallsApart C log s es) := by
  unfold CallsApart; infer_instance

/-- Each call is paid for by a vector, but for the first one and a last one at rest. -/
def Apart (log : List (Event n)) (s : State n) : Prop :=
  calls log ≤ sendings log + (if sentSince log then 0 else 1) ∨
    (calls log ≤ sendings log + 2 ∧ QuietCall s)

theorem run_apart (hT : C.topology.TwoWay) (h : (stress C).RunWhere (CallsApart C) log s) :
    Apart log s := by
  refine h.invariant (P := Apart) (.inl (Nat.zero_le _)) fun {log s a es s'} hr hp hs hok => ?_
  obtain ⟨hf, ht⟩ := trans_of_step hs
  by_cases hcall : calls es = 0
  · -- no call begins
    rcases hp with hpaid | ⟨hpaid, hquiet⟩
    · left
      rw [calls_append, sendings_append, hcall, sentSince_append _ _ hcall]
      by_cases hsendings : sendings es = 0
      · simpa [hsendings] using hpaid
      · simp only [ne_eq, hsendings, not_false_eq_true, decide_true, Bool.or_true, if_true]
        split at hpaid <;> omega
    · right
      rw [calls_append, sendings_append, hcall]
      exact ⟨by omega, hquiet.step (run_routerInv hr) ht⟩
  · have hmain : s.main.pc = .between := by
      by_contra hne
      exact hcall (ht.calls_eq_zero hne)
    have ha : a = .main := by
      by_contra hne
      exact hcall (ht.calls_eq_zero_of_main (main_of_step hs hne hmain))
    subst ha
    have hfirst := step_main_of_between (C := C) hf hmain
    obtain ⟨rfl, rfl⟩ := Prod.mk.inj (Option.some.inj (hfirst.symm.trans hs))
    have hone : calls (log ++ [Event.round .first]) = calls log + 1 := by
      rw [calls_append]
      rfl
    have hnone : sendings (log ++ [Event.round .first]) = sendings log := by
      rw [sendings_append]
      rfl
    rcases hp with hpaid | ⟨-, hquiet⟩
    · rcases hok hcall with hsent | hrest
      · left
        have hflag : sentSince (log ++ [Event.round .first]) = false := by
          rw [sentSince, List.foldl_append]
          rfl
        rw [hone, hnone, hflag]
        rw [hsent, if_pos rfl] at hpaid
        exact Nat.succ_le_succ hpaid
      · right
        rw [hone, hnone]
        refine ⟨?_, (hrest.quiescent hT hr hmain).call hr hmain⟩
        split at hpaid <;> omega
    · exact absurd hmain hquiet.main.running

end Steps

/-- **A fair run finishes.**  With `buffer_size = 0`, if `check_done` is called again only
when another vector has been sent or the routers are at rest, then under every
schedule no assertion fails, the numbers of calls and of steps are bounded by the
links, and where no step is possible that keeps to this, the run has finished. -/
theorem fair_run_finishes {C : Config n} {as : List (Action n)} {log : List (Event n)}
    {s : State n} (hT : C.topology.TwoWay) (hbuf : C.bufferSize = 0)
    (h : (stress C).execWhere (CallsApart C) [] (State.init C) as = some (log, s)) :
    s.fault = none ∧ calls log ≤ C.traffic + 2 ∧
    as.length ≤ ∑ i, (epochWork n * ∑ k, C.topology.link i k +
      entryWork n * (C.topology.neighbors i).length) + n + 1 +
      (3 * n ^ 2 + 17 * n + 9) * (C.traffic + 2) ∧
    ((∀ a es s', step C s a = some (es, s') → ¬ CallsApart C log s es) → s.Finished C) := by
  obtain ⟨hr, es, hexec, hlog⟩ := Lts.RunWhere.init.exec_checked h
  obtain rfl : log = es := by simpa using hlog
  have hwhere : (stress C).RunWhere (AddressTellsEpoch C) log s :=
    .of_run (fun _ _ => .inl hbuf) hr.run
  have hf := run_fault_eq_none hT hwhere
  have hcalls : calls log ≤ C.traffic + 2 := by
    have htraffic := sendings_le_traffic hr.run
    rcases run_apart hT hr with hpaid | ⟨hpaid, -⟩
    · split at hpaid <;> omega
    · omega
  refine ⟨hf, hcalls, ?_, fun hstuck => ?_⟩
  · have hle := exec_length_le_potential .init hexec
    have hcost := Nat.mul_le_mul_left (callSteps n) hcalls
    have hinit := potential_init C
    rw [callSteps_eq] at hle hcost
    have hpot : (stress C).init.potential = (State.init C).potential := rfl
    omega
  · refine finished_of_stuck hT hwhere fun henabled => ?_
    obtain ⟨a, es, s', hs, hok⟩ : ∃ a es s', step C s a = some (es, s') ∧
        (calls es ≠ 0 → s.AtRest C) := by
      by_cases hmain : s.main.pc = .between
      · exact exists_step_of_between hf hmain
      · obtain ⟨a, hsome⟩ := henabled
        obtain ⟨⟨es, s'⟩, hs⟩ := Option.isSome_iff_exists.mp hsome
        exact ⟨a, es, s', hs, fun hcall => absurd ((trans_of_step hs).2.calls_eq_zero hmain) hcall⟩
    exact hstuck a es s' hs fun hcall => .inr (hok hcall)

/-- The two routers are called before they have sent anything, and then once more. -/
theorem fair_run_finishes_twoRouters : ∃ as log s,
    (stress meetingRouters).execWhere (CallsApart meetingRouters) [] (State.init meetingRouters)
      as = some (log, s) ∧ calls log = 2 ∧ sendings log = meetingRouters.traffic ∧
    s.Finished meetingRouters := by
  have hrun : ((stress meetingRouters).execWhere (CallsApart meetingRouters) []
      (State.init meetingRouters)
      (unroll ([(4, .main), (1, .reply 0), (1, .reply 1), (1, .main), (1, .continue 0),
        (1, .continue 1)] ++ meetingSettle ++ [(4, .main), (1, .reply 0), (1, .continue 0),
        (1, .reply 1), (1, .continue 1), (4, .main), (1, .reply 0), (1, .continue 0), (1, .main),
        (1, .reply 1), (1, .continue 1), (10, .main), (1, .closed 0), (1, .closed 1),
        (3, .main)]))).any
      (fun q => decide (calls q.1 = 2 ∧ sendings q.1 = meetingRouters.traffic ∧
        q.2.AtRest meetingRouters ∧ step meetingRouters q.2 .main = none)) = true := by
    decide +kernel
  obtain ⟨⟨log, s⟩, hexec, hp⟩ := (Option.any_eq_true _ _).mp hrun
  obtain ⟨hcalls, hsendings, hrest, hmain⟩ := of_decide_eq_true hp
  refine ⟨_, log, s, hexec, hcalls, hsendings, ?_⟩
  refine (fair_run_finishes (by decide) rfl hexec).2.2.2 fun a es s' hs => ?_
  by_cases ha : a = .main
  · rw [ha, hmain] at hs
    cases hs
  · rw [hrest a ha] at hs
    cases hs

end ConcurrencyLab
