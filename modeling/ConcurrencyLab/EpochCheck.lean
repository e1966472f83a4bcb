import ConcurrencyLab.Acceptance
import ConcurrencyLab.History

/-!
# ConcurrencyLab.EpochCheck

What line 275 finds out about one router.

The comment above the second round says what it is for: "ensure epoch hasn't
driverged since first validation".  Both epochs of the comparison are read through
addresses, at the time of the comparison; equal epochs mean equal addresses, and a
router comes back to an address after three epochs.

* `betweenAnswers` — the events between the two answers of a router in a call;
* `run_reply_epoch` — an answer tells how many epochs its router had begun;
* `equal_epochs_faithful` — the comparison is right about every router that does not
  go round its three buffers between its answers;
* `equal_epochs_unfaithful` — and wrong about one that does.
-/

namespace ConcurrencyLab

variable {n : Nat}

/-! ## the events of a call -/

/-- The events of the two rounds of the current call, those about probes and all
others; before the second round there is only the second list. -/
def callRounds (log : List (Event n)) : List (Event n) × List (Event n) :=
  log.foldl (fun rounds e => match e with
    | .round .first => ([], [])
    | .round .second => (rounds.2, [])
    | e => (rounds.1, rounds.2 ++ [e])) ([], [])

/-- Router `i` answers. -/
def Event.isReplyOf (i : Fin n) : Event n → Bool
  | .reply j _ _ => decide (j = i)
  | _ => false

/-- Router `i` starts an epoch. -/
def Event.isBeginOf (i : Fin n) : Event n → Bool
  | .begin j _ => decide (j = i)
  | _ => false

/-- What happens after the answer of router `i` in the first round of the current
call and before its answer in the second one. -/
def betweenAnswers (i : Fin n) (log : List (Event n)) : List (Event n) :=
  ((callRounds log).1.dropWhile fun e => !e.isReplyOf i).drop 1 ++
    (callRounds log).2.takeWhile fun e => !e.isReplyOf i

theorem callRounds_first (log : List (Event n)) :
    callRounds (log ++ [.round .first]) = ([], []) := by
  rw [callRounds, List.foldl_append]
  rfl

theorem callRounds_second (log : List (Event n)) :
    callRounds (log ++ [.round .second]) = ((callRounds log).2, []) := by
  rw [callRounds, List.foldl_append]
  rfl

theorem callRounds_concat (log : List (Event n)) {e : Event n} (he : e.isRound = false) :
    callRounds (log ++ [e]) = ((callRounds log).1, (callRounds log).2 ++ [e]) := by
  rw [callRounds, List.foldl_append]
  cases e with
  | round r => cases he
  | accept | take | begin | probe | reply | collect => rfl

theorem callLog_concat (log : List (Event n)) {e : Event n} (he : e.isRound = false) :
    callLog (log ++ [e]) = { callLog log with
      current := (callLog log).current ++ [e].filter Event.isProbe } := by
  rw [callLog_append]
  exact CallLog.foldl_add (by simpa using he) (callLog log)

/-- The log of the call keeps the events about probes. -/
theorem callLog_eq_filter (log : List (Event n)) :
    (callLog log).first = (callRounds log).1.filter Event.isProbe ∧
      (callLog log).current = (callRounds log).2.filter Event.isProbe := by
  induction log using List.reverseRecOn with
  | nil => exact ⟨rfl, rfl⟩
  | append_singleton log e ih =>
      cases he : e.isRound with
      | false =>
          rw [callLog_concat log he, callRounds_concat log he, List.filter_append, ← ih.2]
          exact ⟨ih.1, rfl⟩
      | true =>
          cases e with
          | round r =>
              rw [callLog_append]
              cases r with
              | first => rw [callRounds_first]; exact ⟨rfl, rfl⟩
              | second => rw [callRounds_second]; exact ⟨ih.2, rfl⟩
          | accept | take | begin | probe | reply | collect => cases he

/-- The rounds of the current call are the end of the log. -/
theorem log_eq_callRounds (log : List (Event n)) :
    (∃ before, log = before ++ (callRounds log).2) ∧
      ((callLog log).round = some .second → ∃ before,
        log = before ++ (callRounds log).1 ++ .round .second :: (callRounds log).2) := by
  induction log using List.reverseRecOn with
  | nil => exact ⟨⟨[], rfl⟩, fun h => by cases h⟩
  | append_singleton log e ih =>
      obtain ⟨⟨before, hlog⟩, hsecond⟩ := ih
      cases he : e.isRound with
      | false =>
          rw [callLog_concat log he, callRounds_concat log he]
          refine ⟨⟨before, by rw [← List.append_assoc, ← hlog]⟩, fun hround => ?_⟩
          obtain ⟨before', hlog'⟩ := hsecond hround
          refine ⟨before', ?_⟩
          rw [← List.cons_append, ← List.append_assoc, ← hlog']
      | true =>
          cases e with
          | round r =>
              rw [callLog_append]
              cases r with
              | first =>
                  rw [callRounds_first]
                  exact ⟨⟨_, (List.append_nil _).symm⟩, fun h => by cases h⟩
              | second =>
                  rw [callRounds_second]
                  exact ⟨⟨_, (List.append_nil _).symm⟩, fun _ => ⟨before, by rw [← hlog]⟩⟩
          | accept | take | begin | probe | reply | collect => cases he

/-! ## answers and epochs -/

/-- The first answer of a router in a list of events. -/
theorem exists_first_reply {i : Fin n} {es : List (Event n)} {job : Job n} {epoch : Nat}
    (ha : ⟨i, job, epoch⟩ ∈ answers es) : ∃ job' epoch' rest, ⟨i, job', epoch'⟩ ∈ answers es ∧
      es = es.takeWhile (fun e => !e.isReplyOf i) ++ .reply i job' epoch' :: rest ∧
      (es.dropWhile fun e => !e.isReplyOf i).drop 1 = rest := by
  induction es with
  | nil => cases ha
  | cons e es ih =>
      cases he : e.isReplyOf i with
      | true =>
          cases e with
          | reply j job' epoch' =>
              obtain rfl : j = i := of_decide_eq_true he
              refine ⟨job', epoch', es, List.mem_cons_self, ?_, ?_⟩
              · simp [he]
              · simp [he]
          | accept | take | begin | probe | round | collect => cases he
      | false =>
          have hmem : ⟨i, job, epoch⟩ ∈ answers es := by
            rcases List.mem_cons.mp (mem_answers.mp ha) with rfl | hold
            · exact absurd rfl (of_decide_eq_false he)
            · exact mem_answers.mpr hold
          obtain ⟨job', epoch', rest, hb, hes, hrest⟩ := ih hmem
          refine ⟨job', epoch', rest, ?_, ?_, ?_⟩
          · exact mem_answers.mpr (List.mem_cons_of_mem e (mem_answers.mp hb))
          · simp only [List.takeWhile_cons, he, Bool.not_false, if_true, List.cons_append]
            rw [← hes]
          · simp only [List.dropWhile_cons, he, Bool.not_false, if_true]
            exact hrest

section Steps

variable {C : Config n} {log : List (Event n)} {s s' : State n} {es : List (Event n)}

/-- An answer is the first event of its step. -/
theorem Trans.reply_not_in_tail (h : Trans C s es s') {i : Fin n} {job : Job n} {epoch : Nat} :
    Event.reply i job epoch ∉ es.tail := by
  cases h with
  | router h => cases h <;> simp
  | main h => cases h <;> simp
  | handle | schedule | meet | reply | replyMeet | probe | probeMeet | collect | abort => simp

/-- **An answer tells the epochs begun**: its epoch is the number of vectors its
router had begun by then. -/
theorem run_reply_epoch (h : (stress C).Run log s) {before after : List (Event n)} {i : Fin n}
    {job : Job n} {epoch : Nat} (heq : log = before ++ .reply i job epoch :: after) :
    epoch = (begun C before i).length := by
  refine run_invariant (P := fun log _ => ∀ before after i job epoch,
    log = before ++ .reply i job epoch :: after → epoch = (begun C before i).length) ?_
    (fun {log s es s'} hr hp ht before after i job epoch heq => ?_) h before after i job epoch heq
  · intro before after i job epoch heq
    exact absurd heq (by simp)
  have hnow : Event.reply i job epoch ∈ es → epoch = (begun C log i).length := by
    intro hmem
    rw [(run_historyInv hr).length i]
    exact (ht.reply_of_mem hmem).2.1
  -- the answer stands in the last step, at its beginning, or before it
  rcases List.append_eq_append_iff.mp heq with ⟨as, rfl, hes⟩ | ⟨bs, hlog, hes⟩
  · cases as with
    | nil =>
        rw [List.append_nil]
        exact hnow (by rw [hes]; exact List.mem_cons_self)
    | cons e as =>
        have hmem : Event.reply i job epoch ∈ es.tail := by
          rw [hes]
          exact List.mem_append_right as List.mem_cons_self
        exact absurd hmem ht.reply_not_in_tail
  · cases bs with
    | nil =>
        rw [List.append_nil] at hlog
        rw [List.nil_append] at hes
        rw [← hlog]
        exact hnow (by rw [← hes]; exact List.mem_cons_self)
    | cons e bs =>
        obtain ⟨rfl, -⟩ := List.cons.inj hes
        exact hp before bs i job epoch hlog

/-- The answer that line 275 looks at has been collected. -/
theorem run_compare_collected (h : (stress C).Run log s) {k : Nat} {new : StatePtr n}
    (hpc : s.main.pc = .compare k new) : some new ∈ collected (callLog log).current := by
  refine run_invariant (P := fun log s => ∀ k new, s.main.pc = .compare k new →
    some new ∈ collected (callLog log).current) (fun k new hpc => by cases hpc)
    (fun {log s es s'} hr hp ht k new hpc => ?_) h k new hpc
  have hkeep : s.main.pc = .compare k new → (∀ e ∈ es, e.isRound = false) →
      some new ∈ collected (callLog (log ++ es)).current := by
    intro hold hes
    rw [callLog_append, collected_foldl_add hes]
    exact List.mem_append_left _ (hp k new hold)
  have hnew : ∀ {round : Round} {j : Nat} {job : Job n} {src : StatePtr n → Fin n},
      (s.main.collected round j job src).pc = .compare k new → job = some new := by
    intro round j job src hcol
    cases round <;> cases job <;> cases hcol
    rfl
  have htake : ∀ {job : Job n}, job = some new → (∀ e ∈ es, e.isRound = false) →
      job ∈ collected es → some new ∈ collected (callLog (log ++ es)).current := by
    rintro job rfl hes hmem
    rw [callLog_append, collected_foldl_add hes]
    exact List.mem_append_right _ hmem
  cases ht with
  | router hl =>
      cases hl <;> exact hkeep hpc (by simp [Event.isRound])
  | handle | schedule | meet | reply | abort =>
      exact hkeep hpc (by simp [Event.isRound])
  | replyMeet hpci hbuf hmain hk =>
      exact htake (hnew hpc) (by simp [Event.isRound]) (by simp [collected])
  | collect hmain hk hq =>
      exact htake (hnew hpc) (by simp [Event.isRound]) (by simp [collected])
  | probe | probeMeet => cases hpc
  | main hm =>
      cases hm with
      | call | probeDone | firstValid | secondValid | invalid | compared | resultOk | resultRow
      | resultsDone | close | joinOne | joinDone => cases hpc

/-! ## the comparison of line 275 -/

/-- Begun vectors are only ever added. -/
theorem begun_append (C : Config n) (log es : List (Event n)) (i : Fin n) :
    begun C (log ++ es) i = begun C log i ++ (begun C es i).tail := by
  simp only [begun, List.filterMap_append, List.cons_append, List.tail_cons]

/-- If none was added, the router did not start an epoch. -/
theorem begin_notMem_of_length_eq {i : Fin n} {v : DistanceVector n}
    (h : (begun C log i).length = (begun C (log ++ es) i).length) : Event.begin i v ∉ es := by
  intro hmem
  have hv : v ∈ (begun C es i).tail := by
    simp only [begun, List.tail_cons]
    exact List.mem_filterMap.mpr ⟨_, hmem, if_pos rfl⟩
  have hpos := List.length_pos_of_mem hv
  rw [begun_append, List.length_append] at h
  omega

/-- A router that gives its second answer with a vector is in the epoch of its first
answer, or not a multiple of three epochs further; with nothing stored this needs no
care. -/
def NoFullTurn (C : Config n) (log : List (Event n)) (_s : State n) (es : List (Event n)) : Prop :=
  C.bufferSize = 0 ∨ ∀ a ∈ answers (callLog log).first, ∀ b ∈ answers es,
    a.router = b.router → a.job ≠ none → b.job ≠ none →
      a.epoch % 3 = b.epoch % 3 → a.epoch = b.epoch

instance (C : Config n) (log : List (Event n)) (s : State n) (es : List (Event n)) :
    Decidable (NoFullTurn C log s es) := by
  unfold NoFullTurn; infer_instance

/-- A router that does not go round its three buffers does not answer with the same
address from another epoch. -/
theorem NoFullTurn.addressTellsEpoch {a : Action n} (hr : (stress C).Run log s)
    (hstep : (stress C).step s a = some (es, s')) (h : NoFullTurn C log s es) :
    AddressTellsEpoch C log s es := by
  refine h.imp_right fun hturn a ha b hb hjob hne => ?_
  obtain ⟨p, hp⟩ := Option.ne_none_iff_exists'.mp hne
  have hold := (run_answerInv hr (mem_answers_of_callLog (.inl ha))).job p hp
  have hnew := ((trans_of_step hstep).2.answerInv (run_routerInv hr) hb).job p (hjob ▸ hp)
  exact hturn a ha b hb (hold.1.symm.trans hnew.1) hne (hjob ▸ hne) (hold.2.symm.trans hnew.2)

/-- The two answers behind a comparison: the stored one and the new one. -/
theorem exists_compared_answers (h : (stress C).Run log s) {k : Nat} {new old : StatePtr n}
    (hpc : s.main.pc = .compare k new) (hold : s.main.completed new.owner = some old) :
    (callLog log).round = some .second ∧
    (∃ epoch, ⟨new.owner, some old, epoch⟩ ∈ answers (callLog log).first) ∧
    ∃ epoch, ⟨new.owner, some new, epoch⟩ ∈ answers (callLog log).current := by
  have hprobe := run_probeInv h
  have hposition : Position (callLog log) s.main.pc := hprobe.position
  rw [hpc] at hposition
  refine ⟨hposition.1, ?_, ?_⟩
  · obtain ⟨p, epoch, hmem, hcompleted⟩ := hprobe.second hposition.1 new.owner
    obtain rfl : old = p := Option.some.inj (hold.symm.trans hcompleted)
    exact ⟨epoch, hmem⟩
  · have hcol := List.mem_append_left (probeView s).answered (run_compare_collected h hpc)
    rw [← hprobe.queue] at hcol
    obtain ⟨⟨i, job, epoch⟩, hmem, rfl⟩ := List.mem_map.mp hcol
    obtain rfl : new.owner = i := (hprobe.filter_of_mem hmem).1 new rfl
    exact ⟨epoch, hmem⟩

/-- The log, cut at the two answers of a router in the two rounds. -/
theorem log_split_at_answers (h : (stress C).Run log s)
    (hround : (callLog log).round = some .second) {i : Fin n} {job job' : Job n}
    {epoch epoch' : Nat} (ha : ⟨i, job, epoch⟩ ∈ answers (callLog log).first)
    (hb : ⟨i, job', epoch'⟩ ∈ answers (callLog log).current) : ∃ before middle after,
      log = before ++ (.reply i job epoch :: middle) ++ .reply i job' epoch' :: after ∧
      ∀ e ∈ betweenAnswers i log, e ∈ middle := by
  have hprobe := run_probeInv h
  obtain ⟨hfirst, hcurrent⟩ := callLog_eq_filter log
  obtain ⟨before, hlog⟩ := (log_eq_callRounds log).2 hround
  have hmem : ∀ {x : Answer n}, (x ∈ answers (callRounds log).1 ↔ x ∈ answers (callLog log).first) ∧
      (x ∈ answers (callRounds log).2 ↔ x ∈ answers (callLog log).current) := by
    intro x
    rw [hfirst, hcurrent, answers_filter_isProbe, answers_filter_isProbe]
    exact ⟨Iff.rfl, Iff.rfl⟩
  obtain ⟨_, _, rest, ha', hone, hdrop⟩ := exists_first_reply (hmem.1.mpr ha)
  obtain ⟨_, _, after, hb', htwo, -⟩ := exists_first_reply (hmem.2.mpr hb)
  cases hprobe.distinct _ (hmem.1.mp ha') _ ha rfl
  cases hprobe.answer_unique (hmem.2.mp hb') hb rfl
  refine ⟨before ++ (callRounds log).1.takeWhile fun e => !e.isReplyOf i,
    rest ++ .round .second :: (callRounds log).2.takeWhile fun e => !e.isReplyOf i, after, ?_, ?_⟩
  · calc
      log = before ++ ((callRounds log).1.takeWhile (fun e => !e.isReplyOf i) ++
            .reply i job epoch :: rest) ++ .round .second ::
            ((callRounds log).2.takeWhile (fun e => !e.isReplyOf i) ++
              .reply i job' epoch' :: after) := by rw [← hone, ← htwo]; exact hlog
      _ = _ := by simp
  · intro e he
    rw [betweenAnswers, hdrop, List.mem_append] at he
    rw [List.mem_append, List.mem_cons]
    exact he.imp_right .inr

/-- **The second-round epoch check is faithful** as long as no router goes round its
three buffers between its two answers: when line 275 finds the epochs equal, the
router gave both answers and started no epoch between them. -/
theorem equal_epochs_faithful (h : (stress C).RunWhere (NoFullTurn C) log s) {k : Nat}
    {new old : StatePtr n} (hpc : s.main.pc = .compare k new)
    (hold : s.main.completed (s.load new).src = some old)
    (hequal : (s.load old).epoch = (s.load new).epoch) :
    (∃ epoch, Event.reply (s.load new).src (some old) epoch ∈ (callRounds log).1) ∧
    (∃ epoch, Event.reply (s.load new).src (some new) epoch ∈ (callRounds log).2) ∧
    ∀ v, Event.begin (s.load new).src v ∉ betweenAnswers (s.load new).src log := by
  have hr := h.run
  have hinv := run_routerInv hr
  have hsrc : (s.load new).src = new.owner := (hinv new.owner).buffer.src new.slot
  rw [hsrc] at hold ⊢
  obtain ⟨hround, ⟨first, hfirst⟩, second, hsecond⟩ := exists_compared_answers hr hpc hold
  obtain ⟨hone, htwo⟩ := callLog_eq_filter log
  have hmem := mem_answers.mp hfirst
  have hmem' := mem_answers.mp hsecond
  rw [hone] at hmem
  rw [htwo] at hmem'
  refine ⟨⟨first, List.mem_of_mem_filter hmem⟩, ⟨second, List.mem_of_mem_filter hmem'⟩, ?_⟩
  obtain ⟨before, middle, after, hlog, hbetween⟩ :=
    log_split_at_answers hr hround hfirst hsecond
  have hlog' : log = before ++ .reply new.owner (some old) first ::
      (middle ++ .reply new.owner (some new) second :: after) := by
    rw [hlog, List.append_assoc]
    rfl
  have hbegun := run_reply_epoch hr hlog'
  have hbegun' := run_reply_epoch hr hlog
  -- both answers are from the same epoch
  have hepoch : first = second := by
    by_cases hbuf : C.bufferSize = 0
    · have hfinal : first = (s.routers new.owner).buffer.curr.epoch :=
        ((run_waitInv hr hbuf).second hround).2 _ hfirst
      have hle : second ≤ (s.routers new.owner).buffer.curr.epoch :=
        (run_answerInv hr (mem_answers_of_callLog (.inr hsecond))).epoch_le
      rw [begun_append, List.length_append] at hbegun'
      omega
    · have howner := (run_answerInv hr (mem_answers_of_callLog (.inl hfirst))).job old rfl
      obtain rfl : old = new := eq_of_epoch_eq hinv howner.1 hequal
      have hwhere := h.imp fun hr hstep hok => hok.addressTellsEpoch hr hstep
      exact run_addressTellsEpoch hwhere hbuf _ hfirst _ hsecond rfl (by simp)
  rw [hbegun, hbegun'] at hepoch
  exact fun v hv => begin_notMem_of_length_eq hepoch (List.mem_cons_of_mem _ (hbetween _ hv))

end Steps

/-- Router 0 of the two is compared, having answered twice in its second epoch. -/
theorem equal_epochs_faithful_twoRouters : ∃ log s,
    (stress twoRouters).RunWhere (NoFullTurn twoRouters) log s ∧
    s.main.pc = .compare 0 ⟨0, 2⟩ ∧ ∀ v, Event.begin (s.load ⟨0, 2⟩).src v ∉
      betweenAnswers (s.load ⟨0, 2⟩).src log := by
  obtain ⟨log, s, hr, hp⟩ := Lts.RunWhere.exists_of_exec (stress twoRouters)
    (NoFullTurn twoRouters)
    (unroll (twoRoutersSettle ++ twoRoutersCall.take 12 ++ [(1, .main)]))
    (fun q => decide (q.2.main.pc = .compare 0 ⟨0, 2⟩ ∧
      q.2.main.completed (q.2.load ⟨0, 2⟩).src = some ⟨0, 2⟩)) (by decide +kernel)
  obtain ⟨hpc, hold⟩ := of_decide_eq_true hp
  exact ⟨log, s, hr, hpc, (equal_epochs_faithful hr hpc hold rfl).2.2⟩

/-- **Where the check is not faithful**: router 0 starts three epochs between its
answers, which brings it back to the vector of the first one. -/
theorem equal_epochs_unfaithful :
    ¬ ∀ (C : Config 4) (log : List (Event 4)) (s : State 4) (k : Nat) (new old : StatePtr 4),
      C.topology.TwoWay → (stress C).Run log s → s.main.pc = .compare k new →
      s.main.completed (s.load new).src = some old → (s.load old).epoch = (s.load new).epoch →
      ∀ v, Event.begin (s.load new).src v ∉ betweenAnswers (s.load new).src log := by
  intro hall
  obtain ⟨log, s, hr, hp⟩ := Lts.Run.exists_of_exec (stress (hubRouters 1))
    (unroll (hubSchedule ++ [(1, .main)]))
    (fun q => decide (q.2.main.pc = .compare 3 ⟨0, 1⟩ ∧
      q.2.main.completed (q.2.load ⟨0, 1⟩).src = some ⟨0, 1⟩ ∧
      ∃ e ∈ betweenAnswers (q.2.load ⟨0, 1⟩).src q.1,
        e.isBeginOf (q.2.load ⟨0, 1⟩).src = true)) (by decide +kernel)
  obtain ⟨hpc, hold, e, he, hbegin⟩ := of_decide_eq_true hp
  cases e with
  | begin j v =>
      obtain rfl := of_decide_eq_true hbegin
      exact hall _ log s 3 _ _ (by decide) hr hpc hold rfl v he
  | accept | take | reply | probe | round | collect => cases hbegin

end ConcurrencyLab
