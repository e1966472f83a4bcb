import ConcurrencyLab.Probe
import ConcurrencyLab.Quiescence

/-!
# ConcurrencyLab.Detection

What two rounds of probes say about the routers, when epochs are compared as
numbers.

An answer that names a vector was given by a router with nothing to send.  That
stays so until the router begins another epoch (`AnswerInv`), so between equal
answers of all routers there is a time, the start of the second round, when
nobody sends anything.  From then on either some router turns out to have begun
an epoch, which its second answer will show (`Spoiled`), or a router that takes
its second `NULL` has nothing in its driver and gets nothing any more (`Calm`).

Hence `equal_epochs_quiescent`.  What `check_done` compares is not quite that:
see `ConcurrencyLab.Acceptance`.
-/

namespace ConcurrencyLab

variable {n : Nat}

/-! ## the log of a call, between two starts of a round -/

/-- The start of a round. -/
def Event.isRound : Event n → Bool
  | .round _ => true
  | _ => false

/-- An event that belongs to a round of probes. -/
def Event.isProbe : Event n → Bool
  | .probe _ | .take _ none | .reply _ _ _ | .collect _ => true
  | _ => false

/-- The current round grows by the events about probes. -/
theorem CallLog.foldl_add {es : List (Event n)} (hes : ∀ e ∈ es, e.isRound = false)
    (c : CallLog n) :
    es.foldl CallLog.add c = { c with current := c.current ++ es.filter Event.isProbe } := by
  induction es generalizing c with
  | nil => simp
  | cons e es ih =>
      have hrest : ∀ e ∈ es, e.isRound = false := fun x hx => hes x (List.mem_cons_of_mem e hx)
      rw [List.foldl_cons, ih hrest]
      cases e with
      | round r => exact absurd (hes _ List.mem_cons_self) (by simp [Event.isRound])
      | take i v => cases v <;> simp [CallLog.add, List.filter_cons, Event.isProbe]
      | accept | begin | probe | reply | collect =>
          simp [CallLog.add, List.filter_cons, Event.isProbe]

theorem mem_answers {es : List (Event n)} {a : Answer n} :
    a ∈ answers es ↔ Event.reply a.router a.job a.epoch ∈ es := by
  obtain ⟨router, job, epoch⟩ := a
  simp only [answers, List.mem_filterMap]
  constructor
  · rintro ⟨e, he, hsome⟩
    split at hsome
    · cases hsome; exact he
    · contradiction
  · exact fun he => ⟨_, he, rfl⟩

theorem answers_append (es es' : List (Event n)) :
    answers (es ++ es') = answers es ++ answers es' := List.filterMap_append

theorem answers_filter_isProbe (es : List (Event n)) :
    answers (es.filter Event.isProbe) = answers es := by
  rw [answers, List.filterMap_filter, answers]
  refine List.filterMap_congr fun e _ => ?_
  rcases e with _ | ⟨_, _ | _⟩ | _ | _ | _ | _ | _ <;> rfl

/-- The answers of the current round, after a step within it. -/
theorem answers_foldl_add {es : List (Event n)} (hes : ∀ e ∈ es, e.isRound = false)
    (c : CallLog n) : answers (es.foldl CallLog.add c).current =
      answers c.current ++ answers es := by
  rw [CallLog.foldl_add hes, answers_append, answers_filter_isProbe]

/-- Both rounds of a call are in the log of the run. -/
theorem mem_answers_of_callLog {log : List (Event n)} {a : Answer n}
    (h : a ∈ answers (callLog log).first ∨ a ∈ answers (callLog log).current) :
    a ∈ answers log := by
  induction log using List.reverseRecOn with
  | nil => rcases h with h | h <;> cases h
  | append_singleton log e ih =>
      rw [callLog_append, List.foldl_cons, List.foldl_nil] at h
      rw [answers_append, List.mem_append]
      cases hround : e.isRound with
      | true =>
          cases e with
          | round r =>
              cases r with
              | first => rcases h with h | h <;> cases h
              | second => exact .inl (ih (.inr (h.resolve_right (by simp [CallLog.add]))))
          | accept | take | begin | probe | reply | collect => cases hround
      | false =>
          have hes : ∀ x ∈ [e], x.isRound = false := by simpa using hround
          have hfold := CallLog.foldl_add hes (callLog log)
          have hcurrent := answers_foldl_add hes (callLog log)
          rw [List.foldl_cons, List.foldl_nil] at hfold hcurrent
          rw [hcurrent, List.mem_append, hfold, ← or_assoc] at h
          exact h.imp_left ih

/-! ## what the events say about the routers -/

section Steps

variable {C : Config n} {s s' : State n} {es : List (Event n)}

/-- A round starts in a step of its own. -/
theorem Trans.round_cases (h : Trans C s es s') :
    (∀ e ∈ es, e.isRound = false) ∨ (∃ r, es = [.round r]) ∧ s'.routers = s.routers ∧
      s'.queues = s.queues := by
  cases h with
  | main h =>
      cases h with
      | call hpc | firstValid hpc => exact .inr ⟨⟨_, rfl⟩, rfl, rfl⟩
      | probeDone | secondValid | invalid | compared | resultOk | resultRow | resultsDone | close
      | joinOne | joinDone => exact .inl (by simp)
  | router h => cases h <;> exact .inl (by simp [Event.isRound])
  | handle | schedule | meet | reply | replyMeet | probe | probeMeet | collect | abort =>
      exact .inl (by simp [Event.isRound])

/-- A router answers from line 190, with its epoch at that moment. -/
theorem Trans.reply_of_mem (h : Trans C s es s') {i : Fin n} {job : Job n} {epoch : Nat}
    (he : Event.reply i job epoch ∈ es) : (s.routers i).pc = .reply job ∧
      epoch = (s.routers i).buffer.curr.epoch ∧ s'.routers i = (s.routers i).goto .check := by
  cases h with
  | reply hpc hroom =>
      simp only [List.mem_singleton, Event.reply.injEq] at he
      obtain ⟨rfl, rfl, rfl⟩ := he
      exact ⟨hpc, rfl, by simp⟩
  | replyMeet hpc hbuf hmain hk =>
      simp only [List.mem_cons, List.not_mem_nil, or_false, reduceCtorEq, Event.reply.injEq] at he
      obtain ⟨rfl, rfl, rfl⟩ := he
      exact ⟨hpc, rfl, by simp⟩
  | router h => cases h <;> simp at he
  | main h => cases h <;> simp at he
  | handle | schedule | meet | probe | probeMeet | collect | abort => simp at he

/-- A router takes a `NULL` in its select, and leaves no vector in its driver. -/
theorem Trans.take_of_mem (hroom : ∀ j, (s.queues j).length ≤ C.bufferSize) (h : Trans C s es s')
    {i : Fin n} (he : Event.take i none ∈ es) : (s.routers i).pc = .select ∧
      s'.routers i = (s.routers i).handled i none ∧ ∀ p, some p ∉ s'.queues i := by
  cases h with
  | @handle a job rest hpc hq =>
      simp only [List.mem_singleton, Event.take.injEq, eq_comm (a := none), Option.map_eq_none_iff]
        at he
      obtain ⟨rfl, rfl⟩ := he
      have hrest := C.rest_eq_nil (hq ▸ hroom i)
      exact ⟨hpc, by simp, by simp [hrest]⟩
  | @meet a j m job hpc hm he' hbuf hne hpcj =>
      simp only [List.mem_cons, List.not_mem_nil, or_false, reduceCtorEq, Event.take.injEq,
        eq_comm (a := none), Option.map_eq_none_iff, false_or] at he
      obtain ⟨rfl, rfl⟩ := he
      have hq := C.eq_nil_of_rendezvous hbuf (hroom i)
      exact ⟨hpcj, by simp, by simp [hq]⟩
  | @probeMeet round k hmain hbuf hpc =>
      simp only [List.mem_cons, List.not_mem_nil, or_false, reduceCtorEq, Event.take.injEq,
        and_true, false_or] at he
      subst he
      have hq := C.eq_nil_of_rendezvous hbuf (hroom i)
      exact ⟨hpc, by simp, by simp [hq]⟩
  | router h => cases h <;> simp at he
  | main h => cases h <;> simp at he
  | schedule | reply | replyMeet | probe | collect | abort => simp at he

/-- The router has sent its current vector to all neighbours. -/
def Router.Sent (r : Router n) : Prop := r.selects.selectCount = 2 ∧ r.pc.isCopy = false

/-- A router that has sent everything stays so until it begins an epoch. -/
theorem Router.Inv.sent_step {T : Topology n} {load : StatePtr n → DistanceVector n} {i : Fin n}
    {r r' : Router n} (h : r.Inv T i) (hs : Router.Step T load i r r') (hsent : r.Sent) :
    r'.Sent ∨ r' = r.rotated := by
  obtain ⟨hcount, hcopy⟩ := hsent
  cases hs with
  | handled job hpc => exact .inl ⟨hcount, by cases job <;> rfl⟩
  | sent hpc hm he => exact absurd he (h.selects.not_offered_of_two hcount hm)
  | relaxed hpc =>
      refine .inl ?_
      unfold Router.relaxed
      split <;> exact ⟨hcount, rfl⟩
  | rotated hpc hreset => exact .inr rfl
  | copied hpc => rw [hpc] at hcopy; cases hcopy
  | reset hpc hk => rw [hpc] at hcopy; cases hcopy
  | replied hpc | received hpc | relaxDone hpc | skipped hpc | left hpc =>
      exact .inl ⟨hcount, rfl⟩

/-! ## what an answer says later -/

/-- An answer given earlier in the run.  The vector it names is the one of its
epoch, and until the router begins another epoch it has nothing to send. -/
structure AnswerInv (s : State n) (a : Answer n) : Prop where
  epoch_le : a.epoch ≤ (s.routers a.router).buffer.curr.epoch
  job : ∀ p, a.job = some p → p.owner = a.router ∧ p.slot.val = a.epoch % 3
  sent : a.job ≠ none → a.epoch = (s.routers a.router).buffer.curr.epoch →
    (s.routers a.router).Sent

theorem AnswerInv.step {a : Answer n} (h : AnswerInv s a)
    (hinv : ∀ i, (s.routers i).Inv C.topology i) (ht : Trans C s es s')
    (hs : VectorStep C s es s') : AnswerInv s' a := by
  have hle := hs.epoch_le hinv a.router
  have hold := h.epoch_le
  constructor
  case epoch_le => exact Nat.le_trans hold hle
  case job => exact h.job
  case sent =>
    intro hjob hepoch
    have hsent := h.sent hjob (by omega)
    rcases ht.router_cases a.router with heq | hstep
    · rw [heq]; exact hsent
    · rcases (hinv a.router).sent_step hstep hsent with hsent' | hrot
      · exact hsent'
      · have hnext := (hinv a.router).epoch_rotated
        rw [← hrot] at hnext
        omega

/-- What the router says when it answers. -/
theorem Trans.answerInv (hinv : ∀ i, (s.routers i).Inv C.topology i) (ht : Trans C s es s')
    {a : Answer n} (ha : a ∈ answers es) : AnswerInv s' a := by
  obtain ⟨hpc, hepoch, hr'⟩ := ht.reply_of_mem (mem_answers.mp ha)
  have hreply := (hinv a.router).reply a.job hpc
  have hcurr : (s'.routers a.router).buffer = (s.routers a.router).buffer := by rw [hr']; rfl
  constructor
  case epoch_le => rw [hcurr]; exact Nat.le_of_eq hepoch
  case job =>
    intro p hp
    rw [hreply] at hp
    split at hp
    · cases hp
      refine ⟨rfl, ?_⟩
      rw [hepoch]
      exact (hinv a.router).buffer.curr_slot
    · contradiction
  case sent =>
    intro hjob _
    rw [hreply] at hjob
    split at hjob
    · next hconv => rw [hr']; exact ⟨hconv.1, rfl⟩
    · exact absurd rfl hjob

theorem run_answerInv {log : List (Event n)} (h : (stress C).Run log s) {a : Answer n}
    (ha : a ∈ answers log) : AnswerInv s a := by
  refine run_invariant (P := fun log s => ∀ a ∈ answers log, AnswerInv s a) (by simp)
    (fun hr hp ht a ha => ?_) h a ha
  have hinv := run_routerInv hr
  rw [answers_append, List.mem_append] at ha
  rcases ha with hold | hnew
  · exact (hp a hold).step hinv ht (ht.vectorStep hinv (run_room hr))
  · exact ht.answerInv hinv hnew

/-! ## the second round -/

/-- The router has taken the `NULL` of the current round. -/
def CallLog.Asked (c : CallLog n) (i : Fin n) : Prop := Event.take i none ∈ c.current

/-- The second answer of some router is, or will be, from a later epoch than its
first one. -/
def Spoiled (c : CallLog n) (s : State n) : Prop :=
  ∃ a ∈ answers c.first, (∃ b ∈ answers c.current, b.router = a.router ∧ a.epoch < b.epoch) ∨
    (∀ b ∈ answers c.current, b.router ≠ a.router) ∧
      a.epoch < (s.routers a.router).buffer.curr.epoch

/-- Nobody has begun an epoch since the first answers, and no vector is before a
router that has taken its second `NULL`. -/
structure Calm (c : CallLog n) (s : State n) : Prop where
  epoch : ∀ a ∈ answers c.first, a.epoch = (s.routers a.router).buffer.curr.epoch
  queues : ∀ {i}, c.Asked i → ∀ p, some p ∉ s.queues i
  held : ∀ {i}, c.Asked i → (s.routers i).pc.held = none
  driverged : ∀ {i}, c.Asked i → (s.routers i).driverged = false

theorem asked_foldl_add {c : CallLog n} (hes : ∀ e ∈ es, e.isRound = false) {i : Fin n} :
    (es.foldl CallLog.add c).Asked i ↔ c.Asked i ∨ Event.take i none ∈ es := by
  simp [CallLog.Asked, CallLog.foldl_add hes, Event.isProbe]

/-- Who has answered has been asked. -/
theorem ProbeInv.asked_of_answer {c : CallLog n} {v : ProbeView n} (h : ProbeInv c v)
    {a : Answer n} (ha : a ∈ answers c.current) : c.Asked a.router := by
  have htrace := (h.filter_of_mem ha).2.1
  have hmem : Event.take a.router none ∈ probeTrace c.current a.router := by
    rw [htrace]; simp
  exact (List.mem_filter.mp hmem).1

/-- When a round starts, nobody has been asked. -/
theorem spoiled_or_calm_of_nil {c : CallLog n} (hnil : c.current = [])
    (hanswers : ∀ a ∈ answers c.first, AnswerInv s a) : Spoiled c s ∨ Calm c s := by
  have hasked : ∀ i, ¬ c.Asked i := by simp [CallLog.Asked, hnil]
  by_cases hepoch : ∀ a ∈ answers c.first, a.epoch = (s.routers a.router).buffer.curr.epoch
  · exact .inr ⟨hepoch, fun h => absurd h (hasked _), fun h => absurd h (hasked _),
      fun h => absurd h (hasked _)⟩
  · simp only [not_forall] at hepoch
    obtain ⟨a, ha, hne⟩ := hepoch
    exact .inl ⟨a, ha, .inr ⟨by simp [hnil], Nat.lt_of_le_of_ne (hanswers a ha).epoch_le hne⟩⟩

/-- An epoch that has begun will show. -/
theorem Spoiled.step {c : CallLog n} (h : Spoiled c s) (hinv : ∀ i, (s.routers i).Inv C.topology i)
    (ht : Trans C s es s') (hs : VectorStep C s es s') (hes : ∀ e ∈ es, e.isRound = false) :
    Spoiled (es.foldl CallLog.add c) s' := by
  obtain ⟨a, ha, hlater⟩ := h
  refine ⟨a, by rw [CallLog.foldl_add hes]; exact ha, ?_⟩
  rw [answers_foldl_add hes]
  rcases hlater with ⟨b, hb, hrouter, hlt⟩ | ⟨hnone, hlt⟩
  · exact .inl ⟨b, List.mem_append_left _ hb, hrouter, hlt⟩
  · by_cases hnew : ∃ b ∈ answers es, b.router = a.router
    · obtain ⟨b, hb, hrouter⟩ := hnew
      have hepoch := (ht.reply_of_mem (mem_answers.mp hb)).2.1
      rw [hrouter] at hepoch
      exact .inl ⟨b, List.mem_append_right _ hb, hrouter, by omega⟩
    · refine .inr ⟨fun b hb hrouter => ?_, Nat.lt_of_lt_of_le hlt (hs.epoch_le hinv _)⟩
      rcases List.mem_append.mp hb with hold | hb
      · exact hnone b hold hrouter
      · exact hnew ⟨b, hb, hrouter⟩

/-- While nobody sends, no vector comes before a router. -/
theorem VectorStep.keeps_clear (h : VectorStep C s es s')
    (hinv : ∀ i, (s.routers i).Inv C.topology i) (hsent : ∀ i, (s.routers i).Sent) {i : Fin n}
    (hq : ∀ p, some p ∉ s.queues i) (hheld : (s.routers i).pc.held = none) :
    (∀ p, some p ∉ s'.queues i) ∧ (s'.routers i).pc.held = none := by
  cases h with
  | quiet hr hqueue hes =>
      refine ⟨fun p hp => hq p ((hqueue i p).mp hp), ?_⟩
      cases hnow : (s'.routers i).pc.held with
      | none => rfl
      | some p => rw [(hr i).held hnow] at hheld; cases hheld
  | @take a p s' hpc hqueue hr' hq' =>
      have hia : i ≠ a := by
        rintro rfl
        exact hq p (by rw [hqueue]; exact List.mem_cons_self)
      rw [hr', hq', if_neg hia, if_neg hia]
      exact ⟨hq, hheld⟩
  | accept hpc hij hm he | meet hpc hij hm he =>
      exact absurd he ((hinv _).selects.not_offered_of_two (hsent _).1 hm)
  | @rotate a s' hpc hreset hr' hq' =>
      rw [hr', hq']
      refine ⟨hq, ?_⟩
      split
      · rfl
      · exact hheld

/-- Only a vector makes a router diverge. -/
theorem Router.Step.driverged_eq_false {T : Topology n} {load : StatePtr n → DistanceVector n}
    {i : Fin n} {r r' : Router n} (h : Router.Step T load i r r') (hheld : r.pc.held = none)
    (hd : r.driverged = false) : r'.driverged = false := by
  cases h with
  | relaxed hpc => rw [hpc] at hheld; cases hheld
  | reset => rfl
  | handled | sent | replied | received | relaxDone | rotated | skipped | copied | left => exact hd

section SecondRound

variable {log : List (Event n)} (hr : (stress C).Run log s)
  (hround : (callLog log).round = some .second)
include hr hround

/-- Every router has answered with a vector in the first round. -/
theorem run_firstAnswer (i : Fin n) : ∃ a ∈ answers (callLog log).first, a.router = i ∧
    a.job ≠ none := by
  obtain ⟨p, epoch, hmem, -⟩ := (run_probeInv hr).second hround i
  exact ⟨_, hmem, rfl, by simp⟩

theorem Calm.sent (h : Calm (callLog log) s) (i : Fin n) : (s.routers i).Sent := by
  obtain ⟨a, ha, rfl, hjob⟩ := run_firstAnswer hr hround i
  exact (run_answerInv hr (mem_answers_of_callLog (.inl ha))).sent hjob (h.epoch a ha)

theorem Calm.step (h : Calm (callLog log) s) (ht : Trans C s es s')
    (hes : ∀ e ∈ es, e.isRound = false) :
    Spoiled (es.foldl CallLog.add (callLog log)) s' ∨
      Calm (es.foldl CallLog.add (callLog log)) s' := by
  have hinv := run_routerInv hr
  have hs := ht.vectorStep hinv (run_room hr)
  have hsent := h.sent hr hround
  by_cases hrot : ∃ i, (s.routers i).pc = .check ∧ (s.routers i).MustReset ∧
      s'.routers i = (s.routers i).rotated
  · -- the router has not been asked: it would not diverge
    obtain ⟨i, hpc, hreset, hr'⟩ := hrot
    obtain ⟨a, ha, rfl, -⟩ := run_firstAnswer hr hround i
    refine .inl ⟨a, by rw [CallLog.foldl_add hes]; exact ha, .inr ⟨fun b hb hrouter => ?_, ?_⟩⟩
    · rw [answers_foldl_add hes] at hb
      rcases List.mem_append.mp hb with hold | hnew
      · have hd := h.driverged ((run_probeInv hr).asked_of_answer hold)
        rw [hrouter, hreset.2] at hd
        contradiction
      · have hpc' := (ht.reply_of_mem (mem_answers.mp hnew)).1
        rw [hrouter, hpc] at hpc'
        cases hpc'
    · rw [hr', (hinv _).epoch_rotated, h.epoch a ha]
      exact Nat.lt_succ_self _
  · have hcurr : ∀ i, (s'.routers i).buffer.curr = (s.routers i).buffer.curr := fun i =>
      (hs.curr_cases i).resolve_right fun hi => hrot ⟨i, hi⟩
    have hclear : ∀ i, (es.foldl CallLog.add (callLog log)).Asked i →
        ((∀ p, some p ∉ s'.queues i) ∧ (s'.routers i).pc.held = none) ∧
          (s'.routers i).driverged = false := by
      intro i hasked
      rcases (asked_foldl_add hes).mp hasked with hold | hnew
      · have hheld := h.held hold
        refine ⟨hs.keeps_clear hinv hsent (h.queues hold) hheld, ?_⟩
        rcases ht.router_cases i with heq | hstep
        · rw [heq]; exact h.driverged hold
        · exact hstep.driverged_eq_false hheld (h.driverged hold)
      · -- at its select it does not diverge, having nothing to send
        obtain ⟨hpc, hr', hq'⟩ := ht.take_of_mem (run_room hr) hnew
        refine ⟨⟨hq', by rw [hr']; rfl⟩, ?_⟩
        rw [hr']
        have hwait := (hinv i).waiting (.inl hpc)
        have hcount := (hsent i).1
        cases hd : (s.routers i).driverged with
        | false => exact hd
        | true => have := hwait hd; omega
    refine .inr ⟨fun a ha => ?_, fun hi => (hclear _ hi).1.1, fun hi => (hclear _ hi).1.2,
      fun hi => (hclear _ hi).2⟩
    rw [CallLog.foldl_add hes] at ha
    rw [hcurr]
    exact h.epoch a ha

end SecondRound

/-- **In the second round either nobody sends, or an epoch will show.** -/
theorem run_spoiled_or_calm {log : List (Event n)} (h : (stress C).Run log s)
    (hround : (callLog log).round = some .second) :
    Spoiled (callLog log) s ∨ Calm (callLog log) s := by
  refine run_invariant (P := fun log s => (callLog log).round = some .second →
    Spoiled (callLog log) s ∨ Calm (callLog log) s) (fun h => by cases h)
    (fun {log s es s'} hr hp ht hround => ?_) h hround
  have hinv := run_routerInv hr
  rcases ht.round_cases with hes | ⟨⟨r, rfl⟩, hrouters, -⟩
  · rw [callLog_append] at hround ⊢
    have hround' : (callLog log).round = some .second := by
      rw [CallLog.foldl_add hes] at hround; exact hround
    rcases hp hround' with hspoiled | hcalm
    · exact .inl (hspoiled.step hinv ht (ht.vectorStep hinv (run_room hr)) hes)
    · exact hcalm.step hr hround' ht hes
  · rw [callLog_append, List.foldl_cons, List.foldl_nil] at hround ⊢
    cases r with
    | first => cases hround
    | second =>
        refine spoiled_or_calm_of_nil rfl fun a ha => ?_
        have hold := run_answerInv hr (mem_answers_of_callLog (.inr ha))
        exact hold.step hinv ht (ht.vectorStep hinv (run_room hr))

/-- When every second answer has come, nobody sent after the first ones, and so
it stays. -/
theorem Calm.quiescent {log : List (Event n)} (h : Calm (callLog log) s)
    (hr : (stress C).Run log s) (hround : (callLog log).round = some .second)
    (hanswered : ∀ i, ∃ a ∈ answers (callLog log).current, a.router = i) : s.Quiescent := by
  have hasked : ∀ i, (callLog log).Asked i := by
    intro i
    obtain ⟨a, ha, rfl⟩ := hanswered i
    exact (run_probeInv hr).asked_of_answer ha
  constructor
  case queues => exact fun i => h.queues (hasked i)
  case held => exact fun i => h.held (hasked i)
  case selectCount => exact fun i => (h.sent hr hround i).1
  case driverged => exact fun i => h.driverged (hasked i)

end Steps

/-- **Two rounds with equal epochs detect quiescence.**  If every router has
answered both `NULL`s of a call with its current vector, and its epoch was the
same both times, then no vector is stored or being processed, nobody sends or
diverges, and in every continuation of the run no router begins an epoch. -/
theorem equal_epochs_quiescent {C : Config n} {log : List (Event n)} {s : State n}
    (h : (stress C).Run log s) (hround : (callLog log).round = some .second)
    (hequal : ∀ i, ∃ p q epoch, ⟨i, some p, epoch⟩ ∈ answers (callLog log).first ∧
      ⟨i, some q, epoch⟩ ∈ answers (callLog log).current) :
    s.Quiescent ∧ ∀ as es s', (stress C).exec s as = some (es, s') →
      s'.Quiescent ∧ ∀ i v, Event.begin i v ∉ es := by
  have hprobe := run_probeInv h
  have hq : s.Quiescent := by
    rcases run_spoiled_or_calm h hround with ⟨a, ha, hlater⟩ | hcalm
    · exfalso
      obtain ⟨p, q, epoch, hfirst, hsecond⟩ := hequal a.router
      have hsame := hprobe.distinct a ha _ hfirst rfl
      rcases hlater with ⟨b, hb, hrouter, hlt⟩ | ⟨hnone, -⟩
      · have hb' := hprobe.answer_unique hb hsecond hrouter
        rw [hb', hsame] at hlt
        exact Nat.lt_irrefl _ hlt
      · exact hnone _ hsecond rfl
    · refine hcalm.quiescent h hround fun i => ?_
      obtain ⟨p, q, epoch, -, hsecond⟩ := hequal i
      exact ⟨_, hsecond, rfl⟩
  refine ⟨hq, fun as es s' he => ?_⟩
  obtain ⟨hq', -, hnone⟩ := hq.exec h he
  exact ⟨hq', hnone⟩

/-- Both routers answer both rounds, and the run is over. -/
theorem equal_epochs_quiescent_twoRouters : ∃ log s, (stress twoRouters).Run log s ∧
    s.main.pc = .results 0 0 ∧ s.Quiescent ∧
    ∀ as es s', (stress twoRouters).exec s as = some (es, s') →
      s'.Quiescent ∧ ∀ i v, Event.begin i v ∉ es := by
  obtain ⟨log, s, hr, hp⟩ := Lts.Run.exists_of_exec (stress twoRouters)
    (unroll (twoRoutersSettle ++ twoRoutersCall))
    (fun q => decide (q.2.main.pc = .results 0 0 ∧ (callLog q.1).round = some .second ∧
      answers (callLog q.1).first = [⟨0, some ⟨0, 2⟩, 2⟩, ⟨1, some ⟨1, 1⟩, 1⟩] ∧
      answers (callLog q.1).current = [⟨0, some ⟨0, 2⟩, 2⟩, ⟨1, some ⟨1, 1⟩, 1⟩]))
    (by decide +kernel)
  obtain ⟨hmain, hround, hfirst, hsecond⟩ := of_decide_eq_true hp
  have hequal : ∀ i, ∃ p q epoch, ⟨i, some p, epoch⟩ ∈ answers (callLog log).first ∧
      ⟨i, some q, epoch⟩ ∈ answers (callLog log).current := by
    simp [hfirst, hsecond, Fin.forall_fin_two]
  obtain ⟨hq, hlater⟩ := equal_epochs_quiescent hr hround hequal
  exact ⟨log, s, hr, hmain, hq, hlater⟩

end ConcurrencyLab
