import ConcurrencyLab.Detection
import ConcurrencyLab.Progress

/-!
# ConcurrencyLab.Acceptance

What it means that `check_done` accepts.

In the second round it compares the epochs it finds at two addresses of one
router when the second answer arrives, not the epochs of the two answers.  The
vectors at different addresses have different epochs, so what is compared is the
addresses: a router that has gone on by three epochs, or any multiple, answers
with the same address again.

* with `buffer_size = 0` this does no harm: all routers wait in line 190 at the
  same time, and if no answer is `NULL` then all is quiet already (`WaitInv`);
* with `buffer_size = 1` it does no harm as long as no router answers in this
  way (`AddressTellsEpoch`), and then acceptance is what
  `ConcurrencyLab.Detection` speaks about;
* otherwise the check of the results can fail (`wrong_table_accepted`).
-/

namespace ConcurrencyLab

variable {n : Nat}

/-- A router that answers with the same vector in both rounds is still in the
same epoch; with nothing stored this needs no care. -/
def AddressTellsEpoch (C : Config n) (log : List (Event n)) (_s : State n)
    (es : List (Event n)) : Prop :=
  C.bufferSize = 0 ∨ ∀ a ∈ answers (callLog log).first, ∀ b ∈ answers es,
    a.job = b.job → a.job ≠ none → a.epoch = b.epoch

instance (C : Config n) (log : List (Event n)) (s : State n) (es : List (Event n)) :
    Decidable (AddressTellsEpoch C log s es) := by
  unfold AddressTellsEpoch; infer_instance

/-- All is quiet, and these answers are from the last epochs. -/
def FinalAnswers (s : State n) (as : List (Answer n)) : Prop :=
  s.Quiescent ∧ ∀ a ∈ as, a.epoch = (s.routers a.router).buffer.curr.epoch

section Steps

variable {C : Config n} {log : List (Event n)} {s s' : State n} {es : List (Event n)}

theorem FinalAnswers.step {as : List (Answer n)} (h : FinalAnswers s as)
    (hinv : ∀ i, (s.routers i).Inv C.topology i) (ht : Trans C s es s') :
    FinalAnswers s' (as ++ answers es) := by
  obtain ⟨hq, hbuf, -⟩ := h.1.step hinv ht
  refine ⟨hq, fun a ha => ?_⟩
  rw [hbuf]
  rcases List.mem_append.mp ha with hold | hnew
  · exact h.2 a hold
  · exact (ht.reply_of_mem (mem_answers.mp hnew)).2.1

/-! ## comparing addresses -/

/-- Two vectors of one router with the same epoch are the same vector. -/
theorem eq_of_epoch_eq (hinv : ∀ i, (s.routers i).Inv C.topology i) {p q : StatePtr n}
    (howner : p.owner = q.owner) (hepoch : (s.load p).epoch = (s.load q).epoch) : p = q := by
  obtain ⟨i, a⟩ := p
  obtain ⟨j, b⟩ := q
  obtain rfl : i = j := howner
  have ha := (hinv i).buffer.slot_eq a
  have hb := (hinv i).buffer.slot_eq b
  simp only [State.load] at hepoch
  rw [hepoch, ← hb] at ha
  rw [Fin.ext ha]

/-- A second answer that has been compared, and did not spoil the call, is the
address stored by the first round. -/
def Compared (c : CallLog n) (m : Main n) : Prop :=
  c.round = some .second → m.valid = true → ∀ q, some q ∈ collected c.current →
    (∃ k, m.pc = .compare k q) ∨ m.completed q.owner = some q

/-- Control moves on from somewhere else than the comparison. -/
theorem Compared.goto {c : CallLog n} {m m' : Main n} (h : Compared c m)
    (hpc : ∀ k q, m.pc ≠ .compare k q) (hcompleted : m'.completed = m.completed)
    (hvalid : m'.valid = true → m.valid = true) : Compared c m' := by
  intro hround hv q hq
  rcases h hround (hvalid hv) q hq with ⟨k, hk⟩ | hold
  · exact absurd hk (hpc k q)
  · exact .inr (by rw [hcompleted]; exact hold)

theorem collected_append (es es' : List (Event n)) :
    collected (es ++ es') = collected es ++ collected es' := List.filterMap_append

theorem collected_filter_isProbe (es : List (Event n)) :
    collected (es.filter Event.isProbe) = collected es := by
  rw [collected, List.filterMap_filter, collected]
  refine List.filterMap_congr fun e _ => ?_
  rcases e with _ | ⟨_, _ | _⟩ | _ | _ | _ | _ | _ <;> rfl

/-- The collected answers of the current round, after a step within it. -/
theorem collected_foldl_add (hes : ∀ e ∈ es, e.isRound = false) (c : CallLog n) :
    collected (es.foldl CallLog.add c).current = collected c.current ++ collected es := by
  rw [CallLog.foldl_add hes, collected_append, collected_filter_isProbe]

/-- Nothing is collected. -/
theorem Compared.of_collected_nil {c : CallLog n} {m : Main n} (h : Compared c m)
    (hes : ∀ e ∈ es, e.isRound = false) (hcol : collected es = []) :
    Compared (es.foldl CallLog.add c) m := by
  intro hround
  rw [collected_foldl_add hes, hcol, List.append_nil]
  rw [CallLog.foldl_add hes] at hround
  exact h hround

/-- The main thread takes an answer. -/
theorem Compared.collect {c : CallLog n} {m : Main n} (h : Compared c m)
    (hposition : Position c m.pc) {round : Round} {k : Nat} (hpc : m.pc = .collect round k)
    (job : Job n) (src : StatePtr n → Fin n) (hes : ∀ e ∈ es, e.isRound = false)
    (hcol : collected es = [job]) :
    Compared (es.foldl CallLog.add c) (m.collected round k job src) := by
  intro hround hv q hq
  rw [CallLog.foldl_add hes] at hround
  rw [hpc] at hposition
  obtain rfl : round = .second := Option.some.inj (hposition.1.symm.trans hround)
  rw [collected_foldl_add hes, hcol, List.mem_append, List.mem_singleton] at hq
  cases job with
  | none => cases hv
  | some new =>
      rcases hq with hold | hnew
      · refine .inr ((h hround hv q hold).resolve_left ?_)
        rw [hpc]; simp
      · cases hnew
        exact .inl ⟨k, rfl⟩

/-- Line 275 compares the addresses. -/
theorem Compared.compared (h : Compared (callLog log) s.main) (hr : (stress C).Run log s) {k : Nat}
    {new old : StatePtr n} (hpc : s.main.pc = .compare k new)
    (hold : s.main.completed (s.load new).src = some old) : Compared (callLog log)
      (s.main.compared k ((s.load old).epoch == (s.load new).epoch)) := by
  intro hround hv q hq
  have hinv := run_routerInv hr
  obtain ⟨hvalid, hepoch⟩ : s.main.valid = true ∧ (s.load old).epoch = (s.load new).epoch := by
    simpa [Main.compared] using hv
  have hsrc : (s.load new).src = new.owner := (hinv new.owner).buffer.src new.slot
  rw [hsrc] at hold
  rcases h hround hvalid q hq with ⟨k', hk⟩ | hstored
  · rw [hpc] at hk
    obtain ⟨rfl, rfl⟩ := MainPc.compare.inj hk
    obtain ⟨p, epoch, hmem, hcompleted⟩ := (run_probeInv hr).second hround new.owner
    obtain rfl : old = p := Option.some.inj (hold.symm.trans hcompleted)
    have howner := (run_answerInv hr (mem_answers_of_callLog (.inl hmem))).job old rfl
    obtain rfl : old = new := eq_of_epoch_eq hinv howner.1 hepoch
    exact .inr hold
  · exact .inr hstored

/-- **What has been compared and is valid is equal.** -/
theorem run_compared (h : (stress C).Run log s) : Compared (callLog log) s.main := by
  refine run_invariant (P := fun log s => Compared (callLog log) s.main)
    (fun hround => by cases hround) (fun {log s es s'} hr hp ht => ?_) h
  have hposition : Position (callLog log) s.main.pc := (run_probeInv hr).position
  rw [callLog_append]
  cases ht with
  | router hl => cases hl <;> exact hp
  | handle | schedule | meet | reply | abort =>
      exact hp.of_collected_nil (by simp [Event.isRound]) rfl
  | replyMeet hpc hbuf hmain hk =>
      exact hp.collect hposition hmain _ _ (by simp [Event.isRound]) rfl
  | collect hmain hk hq => exact hp.collect hposition hmain _ _ (by simp [Event.isRound]) rfl
  | @probe round k hmain | @probeMeet round k hmain =>
      have hgoto : Compared (callLog log) (s.main.goto (.probe round (k.val + 1))) :=
        hp.goto (by simp [hmain]) rfl id
      exact hgoto.of_collected_nil (by simp [Event.isRound]) rfl
  | main hm =>
      cases hm with
      | call hpc => intro hround; cases hround
      | firstValid hpc hk hvalid => intro _ _ q hq; simp [CallLog.add] at hq
      | compared hpc hold => exact hp.compared hr hpc hold
      | probeDone hpc | secondValid hpc | invalid hpc | resultOk hpc | resultRow hpc
      | resultsDone hpc | close hpc | joinOne hpc | joinDone hpc =>
          exact hp.goto (by simp [hpc]) rfl id

/-- In the runs considered, equal answers are from equal epochs. -/
theorem run_addressTellsEpoch (h : (stress C).RunWhere (AddressTellsEpoch C) log s)
    (hbuf : C.bufferSize ≠ 0) : ∀ a ∈ answers (callLog log).first,
      ∀ b ∈ answers (callLog log).current, a.job = b.job → a.job ≠ none → a.epoch = b.epoch := by
  refine h.invariant (P := fun log _ => ∀ a ∈ answers (callLog log).first,
    ∀ b ∈ answers (callLog log).current, a.job = b.job → a.job ≠ none → a.epoch = b.epoch)
    (fun a ha => by cases ha) (fun {log s a es s'} hr hp hs hok => ?_)
  rw [callLog_append]
  rcases (trans_of_step hs).2.round_cases with hes | ⟨⟨r, rfl⟩, -⟩
  · rw [answers_foldl_add hes, CallLog.foldl_add hes]
    intro a ha b hb
    rcases List.mem_append.mp hb with hold | hnew
    · exact hp a ha b hold
    · exact hok.resolve_left hbuf a ha b hnew
  · rw [List.foldl_cons, List.foldl_nil]
    cases r <;> exact fun a _ b hb => by cases hb

/-- With room for one job, an accepted call saw equal epochs. -/
theorem run_finalAnswers_of_room (h : (stress C).RunWhere (AddressTellsEpoch C) log s)
    (hbuf : C.bufferSize ≠ 0) (hacc : s.main.pc.accepted = true) :
    FinalAnswers s (answers (callLog log).first) := by
  have hr := h.run
  have hprobe := run_probeInv hr
  obtain ⟨hround, hn, -⟩ := (position_of_accepted hacc).mp hprobe.position
  have hvalid := hprobe.accepted hacc
  have hsecond : ∀ i, ∃ a ∈ answers (callLog log).first, ∃ b ∈ answers (callLog log).current,
      a.router = i ∧ b.router = i ∧ a.epoch = b.epoch := by
    intro i
    obtain ⟨p, epoch, hfirst, hcompleted⟩ := hprobe.second hround i
    obtain ⟨⟨job, epoch', hcurrent⟩, -⟩ := hprobe.settled hn i
    have hjob : job ∈ collected (callLog log).current := by
      rw [(hprobe.complete hn).2.1]
      exact List.mem_map_of_mem (f := Answer.job) hcurrent
    cases job with
    | none => exact absurd hjob (hprobe.valid hvalid)
    | some q =>
        have howner : q.owner = i := (hprobe.filter_of_mem hcurrent).1 q rfl
        have hstored := (run_compared hr hround hvalid q hjob).resolve_left (by
          rintro ⟨k, hk⟩
          rw [hk] at hacc
          cases hacc)
        rw [howner] at hstored
        obtain rfl : p = q := Option.some.inj (hcompleted.symm.trans hstored)
        exact ⟨_, hfirst, _, hcurrent, rfl, rfl,
          run_addressTellsEpoch h hbuf _ hfirst _ hcurrent rfl (by simp)⟩
  rcases run_spoiled_or_calm hr hround with ⟨a, ha, hlater⟩ | hcalm
  · exfalso
    obtain ⟨a', ha', b', hb', hia, hib, hepoch⟩ := hsecond a.router
    obtain rfl := hprobe.distinct a' ha' a ha hia
    rcases hlater with ⟨b, hb, hrouter, hlt⟩ | ⟨hnone, -⟩
    · obtain rfl := hprobe.answer_unique hb hb' (hrouter.trans hib.symm)
      omega
    · exact hnone b' hb' hib
  · refine ⟨hcalm.quiescent hr hround fun i => ?_, hcalm.epoch⟩
    obtain ⟨-, -, b, hb, -, hib, -⟩ := hsecond i
    exact ⟨b, hb, hib⟩

/-! ## waiting for each other -/

/-- With nothing stored, the routers that have been probed wait in line 190
until all have been, and their answers describe one moment. -/
structure WaitInv (c : CallLog n) (s : State n) : Prop where
  probing : ∀ k, s.main.pc = .probe .first k → ∀ i : Fin n, i.val < k →
    ∃ job, (s.routers i).pc = .reply job
  collecting : ∀ k, s.main.pc = .collect .first k → (∃ i, (s.routers i).pc = .reply none) ∨
    none ∈ (answers c.current).map Answer.job ∨ FinalAnswers s (answers c.current)
  second : c.round = some .second → FinalAnswers s (answers c.first)

/-- A router in line 190 stays there until its answer is accepted. -/
theorem Trans.reply_stays (h : Trans C s es s') {i : Fin n} {job : Job n}
    (hpc : (s.routers i).pc = .reply job) : (s'.routers i).pc = .reply job ∨
      Event.reply i job (s.routers i).buffer.curr.epoch ∈ es := by
  have hother : ∀ {a : Fin n} {r : Router n}, (s.routers a).pc ≠ .reply job →
      ((s.setRouter a r).routers i).pc = .reply job := by
    intro a r hne
    have hia : i ≠ a := by rintro rfl; exact hne hpc
    rw [State.routers_setRouter, if_neg hia]
    exact hpc
  cases h with
  | handle hpca hq => exact .inl (hother (by simp [hpca]))
  | schedule hpca hm he hroom => exact .inl (hother (by simp [hpca]))
  | @meet a b m job' hpca hm he hbuf hne hpcb =>
      have hia : i ≠ a := by rintro rfl; rw [hpc] at hpca; cases hpca
      have hib : i ≠ b := by rintro rfl; rw [hpc] at hpcb; cases hpcb
      exact .inl (by simp [hia, hib, hpc])
  | router hl =>
      cases hl with
      | received hpca | relaxed hpca | relaxDone hpca | rotated hpca | skipped hpca | copied hpca
      | reset hpca | left hpca => exact .inl (hother (by simp [hpca]))
  | @reply a job' hpca hroom =>
      by_cases hia : i = a
      · subst hia
        obtain rfl := RouterPc.reply.inj (hpc.symm.trans hpca)
        exact .inr List.mem_cons_self
      · exact .inl (by simp [hia, hpc])
  | @replyMeet a job' round k hpca hbuf hmain hk =>
      by_cases hia : i = a
      · subst hia
        obtain rfl := RouterPc.reply.inj (hpc.symm.trans hpca)
        exact .inr List.mem_cons_self
      · exact .inl (by simp [hia, hpc])
  | probeMeet hmain hbuf hpca => exact .inl (hother (by simp [hpca]))
  | probe | collect | main | abort => exact .inl hpc

/-- With nothing stored, an answer is accepted by the main thread taking it. -/
theorem Trans.collect_of_reply (h : Trans C s es s') (hbuf : C.bufferSize = 0) {i : Fin n}
    {job : Job n} {epoch : Nat} (he : Event.reply i job epoch ∈ es) :
    ∃ round k, s.main.pc = .collect round k := by
  cases h with
  | reply hpc hroom => omega
  | replyMeet hpc hbuf hmain hk => exact ⟨_, _, hmain⟩
  | router h => cases h <;> simp at he
  | main h => cases h <;> simp at he
  | handle | schedule | meet | probe | probeMeet | collect | abort => simp at he

/-- How the main thread comes to probe in the first round: from the probe
before, having met the router, or at the start of the call. -/
theorem Trans.of_probe_first (h : Trans C s es s') (hbuf : C.bufferSize = 0) {k : Nat}
    (hpc : s'.main.pc = .probe .first k) : s.main.pc = .probe .first k ∨ k = 0 ∨
      ∃ j : Fin n, k = j.val + 1 ∧ s.main.pc = .probe .first j.val ∧
        ∃ job, (s'.routers j).pc = .reply job := by
  cases h with
  | @replyMeet i job round k' hpci hbuf hmain hk =>
      cases round <;> cases job <;> cases hpc
  | @collect round k' job rest hmain hk hq => cases round <;> cases job <;> cases hpc
  | probe hmain hroom => omega
  | @probeMeet round j hmain hbuf hpcj =>
      obtain ⟨rfl, rfl⟩ := MainPc.probe.inj hpc
      refine .inr (.inr ⟨j, rfl, hmain, ?_⟩)
      rw [State.routers_setMain, State.routers_setRouter, if_pos rfl]
      exact ⟨_, rfl⟩
  | main hm =>
      cases hm with
      | call => exact .inr (.inl (MainPc.probe.inj hpc).2.symm)
      | probeDone | firstValid | secondValid | invalid | compared | resultOk | resultRow
      | resultsDone | close | joinOne | joinDone => cases hpc
  | handle | schedule | meet | router | reply | abort => exact .inl hpc

/-- How it comes to collect in the first round. -/
theorem Trans.of_collect_first (h : Trans C s es s') {k : Nat}
    (hpc : s'.main.pc = .collect .first k) : (∃ k, s.main.pc = .collect .first k) ∨
      (∃ k, s.main.pc = .probe .first k ∧ n ≤ k) ∧ s'.routers = s.routers ∧ es = [] := by
  cases h with
  | @replyMeet i job round k' hpci hbuf hmain hk =>
      cases round with
      | first => exact .inl ⟨_, hmain⟩
      | second => cases job <;> cases hpc
  | @collect round k' job rest hmain hk hq =>
      cases round with
      | first => exact .inl ⟨_, hmain⟩
      | second => cases job <;> cases hpc
  | main hm =>
      cases hm with
      | @probeDone round k' hpc' hk =>
          obtain ⟨rfl, -⟩ := MainPc.collect.inj hpc
          exact .inr ⟨⟨_, hpc', hk⟩, rfl, rfl⟩
      | call | firstValid | secondValid | invalid | compared | resultOk | resultRow
      | resultsDone | close | joinOne | joinDone => cases hpc
  | probe | probeMeet => cases hpc
  | handle | schedule | meet | router | reply | abort => exact .inl ⟨_, hpc⟩

/-- The second round starts when all first answers name a vector. -/
theorem Trans.of_round_second (h : Trans C s es s') (he : Event.round .second ∈ es) :
    ∃ k, s.main.pc = .collect .first k ∧ n ≤ k ∧ s.main.valid = true := by
  cases h with
  | main hm =>
      cases hm with
      | firstValid hpc hk hvalid => exact ⟨_, hpc, hk, hvalid⟩
      | call | probeDone | secondValid | invalid | compared | resultOk | resultRow
      | resultsDone | close | joinOne | joinDone => simp at he
  | router hl => cases hl <;> simp at he
  | handle | schedule | meet | reply | replyMeet | probe | probeMeet | collect | abort =>
      simp at he

/-- All routers wait in line 190, and no answer is `NULL`: all is quiet. -/
theorem quiescent_of_replying (hr : (stress C).Run log s) (hbuf : C.bufferSize = 0)
    (hreply : ∀ i, ∃ job, (s.routers i).pc = .reply job ∧ job ≠ none) : s.Quiescent := by
  have hconv : ∀ i, (s.routers i).Converged := by
    intro i
    obtain ⟨job, hpc, hjob⟩ := hreply i
    rw [(run_routerInv hr i).reply job hpc] at hjob
    by_contra hn
    exact hjob (if_neg hn)
  constructor
  case queues =>
    intro i p hmem
    rw [C.eq_nil_of_rendezvous hbuf (run_room hr i)] at hmem
    cases hmem
  case held =>
    intro i
    obtain ⟨job, hpc, -⟩ := hreply i
    rw [hpc]; rfl
  case selectCount => exact fun i => (hconv i).1
  case driverged => exact fun i => (hconv i).2

/-- When the last router has been probed. -/
theorem WaitInv.probed {c : CallLog n} (h : WaitInv c s) (hr : (stress C).Run log s)
    (hprobe : ProbeInv c (probeView s)) (hbuf : C.bufferSize = 0) {k : Nat}
    (hpc : s.main.pc = .probe .first k) (hk : n ≤ k) : (∃ i, (s.routers i).pc = .reply none) ∨
      FinalAnswers s (answers c.current) := by
  by_cases hnone : ∃ i, (s.routers i).pc = .reply none
  · exact .inl hnone
  · refine .inr ⟨quiescent_of_replying hr hbuf fun i => ?_, ?_⟩
    · obtain ⟨job, hjob⟩ := h.probing k hpc i (Nat.lt_of_lt_of_le i.isLt hk)
      exact ⟨job, hjob, fun hn => hnone ⟨i, by rw [hjob, hn]⟩⟩
    · -- nothing has been answered yet
      have hposition : Position c s.main.pc := hprobe.position
      rw [hpc] at hposition
      have hlen := hprobe.length_collected_le
      have hroom := run_completedRoom hr
      rw [hposition.2.1, probeView_answered, List.length_nil] at hlen
      have hnil : answers c.current = [] := List.eq_nil_of_length_eq_zero (by omega)
      simp [hnil]

section WaitStep

variable (h : WaitInv (callLog log) s) (hr : (stress C).Run log s) (hbuf : C.bufferSize = 0)
  (ht : Trans C s es s')
include h hbuf ht

/-- While the main thread probes, no answer is accepted. -/
theorem WaitInv.probing_step {k : Nat} (hpc : s'.main.pc = .probe .first k) {i : Fin n}
    (hi : i.val < k) : ∃ job, (s'.routers i).pc = .reply job := by
  have hstays : ∀ {j}, s.main.pc = .probe .first j → i.val < j →
      ∃ job, (s'.routers i).pc = .reply job := by
    intro j hmain hij
    obtain ⟨job, hjob⟩ := h.probing j hmain i hij
    rcases ht.reply_stays hjob with hstill | hanswer
    · exact ⟨job, hstill⟩
    · obtain ⟨round, k, hmain'⟩ := ht.collect_of_reply hbuf hanswer
      rw [hmain] at hmain'
      cases hmain'
  rcases ht.of_probe_first hbuf hpc with hmain | rfl | ⟨j, rfl, hmain, hreply⟩
  · exact hstays hmain hi
  · exact absurd hi (Nat.not_lt_zero _)
  · by_cases hij : i = j
    · subst hij; exact hreply
    · have hne : i.val ≠ j.val := fun he => hij (Fin.ext he)
      exact hstays hmain (by omega)

include hr

/-- A `NULL` is still to come or has come, or all is quiet. -/
theorem WaitInv.collecting_step {k : Nat} (hpc : s'.main.pc = .collect .first k)
    (hes : ∀ e ∈ es, e.isRound = false) : (∃ i, (s'.routers i).pc = .reply none) ∨
      none ∈ (answers (es.foldl CallLog.add (callLog log)).current).map Answer.job ∨
      FinalAnswers s' (answers (es.foldl CallLog.add (callLog log)).current) := by
  have hinv := run_routerInv hr
  rw [answers_foldl_add hes]
  rcases ht.of_collect_first hpc with ⟨k', hmain⟩ | ⟨⟨k', hmain, hk⟩, hrouters, rfl⟩
  · rcases h.collecting k' hmain with ⟨i, hi⟩ | hnone | hfinal
    · rcases ht.reply_stays hi with hstill | hanswer
      · exact .inl ⟨i, hstill⟩
      · have hmem := mem_answers (a := ⟨i, none, _⟩).mpr hanswer
        exact .inr (.inl (List.mem_map.mpr ⟨_, List.mem_append_right _ hmem, rfl⟩))
    · rw [List.map_append]
      exact .inr (.inl (List.mem_append_left _ hnone))
    · exact .inr (.inr (hfinal.step hinv ht))
  · rcases h.probed hr (run_probeInv hr) hbuf hmain hk with ⟨i, hi⟩ | hfinal
    · exact .inl ⟨i, by rw [hrouters]; exact hi⟩
    · exact .inr (.inr (hfinal.step hinv ht))

omit hbuf

/-- When the second round starts no `NULL` has come. -/
theorem WaitInv.second_start (hround : Event.round .second ∈ es) :
    FinalAnswers s (answers (callLog log).current) := by
  have hprobe := run_probeInv hr
  obtain ⟨k, hpc, hk, hvalid⟩ := ht.of_round_second hround
  have hn := hprobe.collected_length hpc hk
  rcases h.collecting k hpc with ⟨i, hi⟩ | hnone | hfinal
  · have hidle := (hprobe.settled hn i).2.2
    rw [probeView_replying, hi] at hidle
    cases hidle
  · rw [← (hprobe.complete hn).2.1] at hnone
    exact absurd hnone (hprobe.valid hvalid)
  · exact hfinal

end WaitStep

/-- **With nothing stored, a valid first round is the last one.** -/
theorem run_waitInv (h : (stress C).Run log s) (hbuf : C.bufferSize = 0) :
    WaitInv (callLog log) s := by
  refine run_invariant (P := fun log s => WaitInv (callLog log) s) ⟨?_, ?_, ?_⟩
    (fun {log s es s'} hr hp ht => ?_) h
  · intro k hpc; cases hpc
  · intro k hpc; cases hpc
  · intro hround; cases hround
  rw [callLog_append]
  rcases ht.round_cases with hes | ⟨⟨r, rfl⟩, hrouters, hqueues⟩
  · constructor
    case probing => exact fun k hpc i hi => hp.probing_step hbuf ht hpc hi
    case collecting => exact fun k hpc => hp.collecting_step hr hbuf ht hpc hes
    case second =>
      rw [CallLog.foldl_add hes]
      intro hround
      obtain ⟨hq, hbuf', -⟩ := (hp.second hround).1.step (run_routerInv hr) ht
      refine ⟨hq, fun a ha => ?_⟩
      rw [hbuf']
      exact (hp.second hround).2 a ha
  · rw [List.foldl_cons, List.foldl_nil]
    have hmain : ∀ k, s'.main.pc ≠ .collect .first k := by
      cases ht with
      | main hm => cases hm <;> simp [State.setMain, Main.goto, Main.call]
      | router hl => cases hl
    constructor
    case probing => exact fun k hpc i hi => hp.probing_step hbuf ht hpc hi
    case collecting => exact fun k hpc => absurd hpc (hmain k)
    case second =>
      cases r with
      | first => intro hround; cases hround
      | second =>
          intro _
          have hnow := (hp.second_start hr ht List.mem_cons_self).step (run_routerInv hr) ht
          rw [show answers [Event.round (n := n) .second] = [] from rfl, List.append_nil] at hnow
          exact hnow

/-! ## acceptance -/

section Accepted

variable (h : (stress C).RunWhere (AddressTellsEpoch C) log s)
  (hacc : s.main.pc.accepted = true)
include h hacc

/-- What `check_done` accepts is final. -/
theorem run_finalAnswers : FinalAnswers s (answers (callLog log).first) := by
  by_cases hbuf : C.bufferSize = 0
  · have hposition := (position_of_accepted hacc).mp (run_probeInv h.run).position
    exact (run_waitInv h.run hbuf).second hposition.1
  · exact run_finalAnswers_of_room h hbuf hacc

/-- The addresses it has stored are those of the current vectors. -/
theorem run_completed_eq (i : Fin n) :
    s.main.completed i = some ⟨i, (s.routers i).buffer.currState⟩ := by
  have hprobe := run_probeInv h.run
  have hposition := (position_of_accepted hacc).mp hprobe.position
  obtain ⟨p, epoch, hmem, hcompleted⟩ := hprobe.second hposition.1 i
  obtain ⟨howner, hslot⟩ := (run_answerInv h.run (mem_answers_of_callLog (.inl hmem))).job p rfl
  have hepoch : epoch = (s.routers i).buffer.curr.epoch := (run_finalAnswers h hacc).2 _ hmem
  have hcurr := (run_routerInv h.run i).buffer.curr_slot
  have hp : p = ⟨i, (s.routers i).buffer.currState⟩ := by
    obtain ⟨owner, slot⟩ := p
    simp only at howner hslot
    rw [hepoch, ← hcurr] at hslot
    rw [howner, Fin.ext hslot]
  rw [← hp]
  exact hcompleted

end Accepted

/-- `done_driver` is closed after an accepted call. -/
theorem MainPc.accepted_of_closing {pc : MainPc n} (h : pc.closing = true) :
    pc.accepted = true := by
  cases pc with
  | join | joined => rfl
  | between | probe | collect | compare | results | close => cases h

/-- Under the condition no assertion of the routers and of `check_done` fails. -/
theorem run_fault_eq_none (hT : C.topology.TwoWay)
    (h : (stress C).RunWhere (AddressTellsEpoch C) log s) : s.fault = none := by
  refine fault_eq_none_of hT h.run (fun hclosed => ?_) (fun src dst p hpc hcompleted => ?_)
  · have hclosing := (run_closeInv h.run).closed
    rw [hclosed] at hclosing
    exact (run_finalAnswers h (MainPc.accepted_of_closing hclosing.symm)).1.driverged
  · have hacc : s.main.pc.accepted = true := by rw [hpc]; rfl
    rw [run_completed_eq h hacc src] at hcompleted
    cases hcompleted
    rw [C.topology.floydWarshall_eq_least]
    exact (run_finalAnswers h hacc).1.dist_eq_least hT h.run src dst

end Steps

/-- **Accepted tables are right, as long as addresses tell epochs.**  In a run in
which no router has answered with the same vector in both rounds of a call from
different epochs, whenever `check_done` checks the results all of them are the
distances of `floyd_warshall`, and no assertion has failed. -/
theorem accepted_table_correct {C : Config n} {log : List (Event n)} {s : State n}
    (hT : C.topology.TwoWay) (h : (stress C).RunWhere (AddressTellsEpoch C) log s) :
    (∀ src dst, s.main.pc = .results src dst → ∀ i k, ∃ p, s.main.completed i = some p ∧
      (s.load p).dist k = C.topology.floydWarshall i k) ∧ s.fault = none := by
  refine ⟨fun src dst hpc i k => ?_, run_fault_eq_none hT h⟩
  have hacc : s.main.pc.accepted = true := by rw [hpc]; rfl
  refine ⟨_, run_completed_eq h hacc i, ?_⟩
  rw [C.topology.floydWarshall_eq_least]
  exact (run_finalAnswers h hacc).1.dist_eq_least hT h.run i k

/-- One accepted call of two routers. -/
theorem accepted_table_correct_twoRouters : ∃ log s,
    (stress twoRouters).RunWhere (AddressTellsEpoch twoRouters) log s ∧
    s.main.pc = .results 0 0 ∧ (∀ i k, ∃ p, s.main.completed i = some p ∧
      (s.load p).dist k = twoRouters.topology.floydWarshall i k) ∧ s.fault = none := by
  obtain ⟨log, s, hr, hp⟩ := Lts.RunWhere.exists_of_exec (stress twoRouters)
    (AddressTellsEpoch twoRouters) (unroll (twoRoutersSettle ++ twoRoutersCall))
    (fun q => decide (q.2.main.pc = .results 0 0)) (by decide +kernel)
  have hpc : s.main.pc = .results 0 0 := of_decide_eq_true hp
  obtain ⟨htable, hf⟩ := accepted_table_correct (by decide) hr
  exact ⟨log, s, hr, hpc, htable 0 0 hpc, hf⟩

/-- Four routers around router 0; `d` is the link from router 3 to router 2. -/
def hubRouters (d : Nat) : Config 4 :=
  .buffered (.ofRows 4 [[100, 4, 5, 1], [5, 0, infDistance, infDistance],
    [1, infDistance, 0, 5], [1, infDistance, d, 0]])

/-- Router 0 gives its two answers three epochs apart. -/
def hubSchedule : List (Nat × Action 4) := [
  -- router 0 sends its row of links and answers the first probe
  (1, .schedule 0 2), (1, .continue 0), (1, .schedule 0 3), (1, .continue 0), (1, .schedule 0 2),
  (1, .continue 0), (2, .main), (1, .handle 0), (1, .reply 0), (1, .continue 0),
  -- its neighbours read it, and routers 2 and 3 each other
  (1, .handle 1), (7, .continue 1), (1, .handle 2), (7, .continue 2), (1, .handle 3),
  (7, .continue 3), (1, .schedule 2 3), (1, .continue 2), (1, .handle 3), (7, .continue 3),
  (1, .schedule 3 3), (1, .continue 3), (1, .handle 2), (7, .continue 2),
  -- router 1 begins and sends its second epoch, router 0 too
  (1, .schedule 1 2), (6, .continue 1), (1, .handle 0), (12, .continue 0), (1, .schedule 1 2),
  (1, .continue 1), (1, .handle 0), (7, .continue 0), (1, .schedule 0 4), (1, .continue 0),
  (1, .schedule 0 3), (1, .continue 0), (1, .schedule 0 2), (1, .continue 0), (1, .handle 1),
  (7, .continue 1), (1, .handle 2), (7, .continue 2), (1, .handle 3), (7, .continue 3),
  -- the same with router 2, and the third epoch of router 0
  (1, .schedule 2 2), (6, .continue 2), (1, .handle 0), (12, .continue 0), (1, .schedule 2 2),
  (1, .continue 2), (1, .handle 0), (7, .continue 0), (1, .schedule 2 2), (1, .continue 2),
  (1, .handle 3), (7, .continue 3), (1, .schedule 0 4), (1, .continue 0), (1, .schedule 0 3),
  (1, .continue 0), (1, .schedule 0 2), (1, .continue 0), (1, .handle 1), (7, .continue 1),
  (1, .handle 2), (7, .continue 2), (1, .handle 3), (7, .continue 3),
  -- router 3 sends; router 0 takes that vector and does not read it yet
  (1, .schedule 3 2), (6, .continue 3), (1, .handle 0), (1, .schedule 3 2), (1, .continue 3),
  (1, .schedule 3 2), (1, .continue 3), (1, .handle 2), (7, .continue 2),
  -- the other first answers, and the second probe is in the driver of router 0
  (3, .main), (1, .handle 1), (1, .handle 2), (1, .handle 3), (2, .main), (1, .reply 1),
  (1, .continue 1), (1, .main), (1, .reply 2), (1, .continue 2), (1, .main), (1, .reply 3),
  (1, .continue 3), (2, .main),
  -- router 0 begins its fourth epoch, and sends it after the others took their second probe
  (12, .continue 0), (1, .handle 0), (7, .continue 0), (2, .main), (1, .handle 1), (1, .reply 1),
  (1, .continue 1), (2, .main), (1, .handle 2), (1, .handle 3), (1, .schedule 0 4),
  (1, .continue 0), (1, .schedule 0 3), (1, .continue 0), (1, .schedule 0 2), (1, .continue 0),
  -- the second answers
  (1, .handle 0), (3, .main), (1, .reply 2), (1, .continue 2), (2, .main), (1, .reply 3),
  (1, .continue 3), (2, .main), (1, .reply 0), (1, .continue 0)]

/-- **Where a wrong table is accepted**: the fourth vector of router 0 is where
the first one was, so the comparison of the epochs reads the same cell twice;
router 1 has not seen that vector, and its distance to router 2 is too large. -/
theorem wrong_table_accepted : (hubRouters 1).topology.TwoWay ∧
    ∃ log s, (stress (hubRouters 1)).Run log s ∧ s.main.pc = .results 1 2 ∧ s.main.valid = true ∧
      (∃ p, s.main.completed 1 = some p ∧ (s.load p).dist 2 = 10) ∧
      (hubRouters 1).topology.floydWarshall 1 2 = 7 ∧
      ∃ es s', step (hubRouters 1) s .main = some (es, s') ∧ s'.fault = some .result := by
  obtain ⟨log, s, hr, hp⟩ := Lts.Run.exists_of_exec (stress (hubRouters 1))
    (unroll (hubSchedule ++ [(10, .main)]))
    (fun q => decide (q.2.main.pc = .results 1 2 ∧ q.2.main.valid = true ∧
      q.2.main.completed 1 = some ⟨1, 2⟩ ∧ (q.2.load ⟨1, 2⟩).dist 2 = 10 ∧
      (step (hubRouters 1) q.2 .main).any (fun p => p.2.fault = some .result) = true))
    (by decide +kernel)
  obtain ⟨hpc, hvalid, hcompleted, hdist, hfault⟩ := of_decide_eq_true hp
  obtain ⟨⟨es, s'⟩, hs, hresult⟩ := (Option.any_eq_true _ _).mp hfault
  exact ⟨by decide, log, s, hr, hpc, hvalid, ⟨_, hcompleted, hdist⟩, by decide +kernel, es, s', hs,
    of_decide_eq_true hresult⟩

end ConcurrencyLab
