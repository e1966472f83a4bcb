import ConcurrencyLab.Pipeline
import Mathlib.Data.Fintype.Card

/-!
# ConcurrencyLab.Probe

The probe protocol of `check_done`, apart from the routing: `NULL` jobs go out
to the routers, answers come back through `completed_driver`.

* `callLog` — the part of the log that belongs to the current call, by rounds;
* `ProbeStep` — the abstract protocol: it knows where a `NULL` is stored, who is
  answering what, and the main thread, and nothing of vectors and buffers;
* `Trans.probeSteps` — the stress run refines it.  A rendezvous is two abstract
  steps, storing and taking, whatever the buffer size is;
* `ProbeInv` — each router's part in a round is a prefix of "probed, taken,
  answered", and what has been answered is what has been collected or is stored;
* `round_answers_match` — so every round collects exactly one answer of every
  router.
-/

namespace ConcurrencyLab

variable {n : Nat}

/-! ## the log of a call -/

/-- The events about probes in the current call of `check_done`: the current
round, and the first one when the second is going on. -/
structure CallLog (n : Nat) where
  round : Option Round
  first : List (Event n)
  current : List (Event n)

/-- How an event extends the log of the call. -/
def CallLog.add (c : CallLog n) : Event n → CallLog n
  | .round .first => { round := some .first, first := [], current := [] }
  | .round .second => { round := some .second, first := c.current, current := [] }
  | .accept _ _ _ => c
  | .take _ (some _) => c
  | .begin _ _ => c
  | e => { c with current := c.current ++ [e] }

/-- The log of the current call, read off the log of the run. -/
def callLog (log : List (Event n)) : CallLog n :=
  log.foldl CallLog.add { round := none, first := [], current := [] }

theorem callLog_append (log es : List (Event n)) :
    callLog (log ++ es) = es.foldl CallLog.add (callLog log) := List.foldl_append

/-- The answer of one router, with its epoch at that moment. -/
structure Answer (n : Nat) where
  router : Fin n
  job : Job n
  epoch : Nat
deriving DecidableEq

/-- The answers accepted by `completed_driver`, in order. -/
def answers (es : List (Event n)) : List (Answer n) :=
  es.filterMap fun e => match e with
    | .reply i job epoch => some ⟨i, job, epoch⟩
    | _ => none

/-- The answers the main thread has taken, in order. -/
def collected (es : List (Event n)) : List (Job n) :=
  es.filterMap fun e => match e with
    | .collect job => some job
    | _ => none

/-- The part of router `i` in a round of probes, in order. -/
def probeTrace (es : List (Event n)) (i : Fin n) : List (Event n) :=
  es.filter fun e => match e with
    | .probe j => j = i
    | .take j none => j = i
    | .reply j _ _ => j = i
    | _ => false

section Append

variable (es : List (Event n)) (i j : Fin n) (job : Job n) (epoch : Nat)

@[simp] theorem answers_nil : answers ([] : List (Event n)) = [] := rfl
@[simp] theorem collected_nil : collected ([] : List (Event n)) = [] := rfl
@[simp] theorem probeTrace_nil : probeTrace [] i = [] := rfl

@[simp] theorem answers_probe : answers (es ++ [.probe j]) = answers es := by simp [answers]
@[simp] theorem answers_take : answers (es ++ [.take j none]) = answers es := by simp [answers]
@[simp] theorem answers_collect : answers (es ++ [.collect job]) = answers es := by simp [answers]
@[simp] theorem answers_reply :
    answers (es ++ [.reply j job epoch]) = answers es ++ [⟨j, job, epoch⟩] := by simp [answers]

@[simp] theorem collected_probe : collected (es ++ [.probe j]) = collected es := by
  simp [collected]
@[simp] theorem collected_take : collected (es ++ [.take j none]) = collected es := by
  simp [collected]
@[simp] theorem collected_reply : collected (es ++ [.reply j job epoch]) = collected es := by
  simp [collected]
@[simp] theorem collected_collect : collected (es ++ [.collect job]) = collected es ++ [job] := by
  simp [collected]

@[simp] theorem probeTrace_collect : probeTrace (es ++ [.collect job]) i = probeTrace es i := by
  simp [probeTrace]

theorem probeTrace_probe :
    probeTrace (es ++ [.probe j]) i = probeTrace es i ++ if j = i then [.probe j] else [] := by
  by_cases h : j = i <;> simp [probeTrace, h]

theorem probeTrace_take : probeTrace (es ++ [.take j none]) i =
    probeTrace es i ++ if j = i then [.take j none] else [] := by
  by_cases h : j = i <;> simp [probeTrace, h]

theorem probeTrace_reply : probeTrace (es ++ [.reply j job epoch]) i =
    probeTrace es i ++ if j = i then [.reply j job epoch] else [] := by
  by_cases h : j = i <;> simp [probeTrace, h]

/-- The answers of one router are those in its part. -/
theorem answers_probeTrace : answers (probeTrace es i) = (answers es).filter (·.router = i) := by
  induction es with
  | nil => rfl
  | cons e es ih =>
      have happ : ∀ as bs : List (Event n), answers (as ++ bs) = answers as ++ answers bs :=
        fun as bs => List.filterMap_append
      have htrace : ∀ as bs : List (Event n),
          probeTrace (as ++ bs) i = probeTrace as i ++ probeTrace bs i :=
        fun as bs => List.filter_append as bs
      have hcons : e :: es = [e] ++ es := rfl
      rw [hcons, htrace, happ, ih, happ, List.filter_append]
      congr 1
      cases e with
      | reply a job epoch => by_cases ha : a = i <;> simp [probeTrace, answers, ha]
      | take a v => cases v <;> by_cases ha : a = i <;> simp [probeTrace, answers, ha]
      | probe a => by_cases ha : a = i <;> simp [probeTrace, answers, ha]
      | _ => rfl

end Append

/-! ## the abstract protocol -/

/-- What the probe protocol sees of a state: where a `NULL` is stored, who waits
in line 190 with which answer, the stored answers, and the main thread. -/
@[ext] structure ProbeView (n : Nat) where
  asked : Fin n → Bool
  replying : Fin n → Option (Job n)
  answered : List (Job n)
  main : Main n

/-- The main thread is in one of the loops that send probes or take answers. -/
def MainPc.probing : MainPc n → Bool
  | .probe _ _ | .collect _ _ | .compare _ _ => true
  | _ => false

/-- Both rounds of the last call were valid. -/
def MainPc.accepted : MainPc n → Bool
  | .results _ _ | .close | .join _ | .joined => true
  | _ => false

/-- One step of the protocol. -/
inductive ProbeStep (v : ProbeView n) : List (Event n) → ProbeView n → Prop
  | quiet {es : List (Event n)} (hes : ∀ c : CallLog n, es.foldl CallLog.add c = c) :
      ProbeStep v es v
  | ask {round : Round} {k : Fin n} (hpc : v.main.pc = .probe round k.val) :
      ProbeStep v [.probe k]
        { v with
          asked := Function.update v.asked k true
          main := v.main.goto (.probe round (k.val + 1)) }
  | take {i : Fin n} {job : Job n} (hasked : v.asked i = true) (hreply : v.replying i = none)
      (hown : ∀ p, job = some p → p.owner = i) :
      ProbeStep v [.take i none]
        { v with
          asked := Function.update v.asked i false
          replying := Function.update v.replying i (some job) }
  | answer {i : Fin n} {job : Job n} {epoch : Nat} (hreply : v.replying i = some job) :
      ProbeStep v [.reply i job epoch]
        { v with
          replying := Function.update v.replying i none
          answered := v.answered ++ [job] }
  | collect {round : Round} {k : Nat} {job : Job n} {rest : List (Job n)}
      (hpc : v.main.pc = .collect round k) (hk : k < n) (hq : v.answered = job :: rest) :
      ProbeStep v [.collect job]
        { v with
          answered := rest
          main := v.main.collected round k job StatePtr.owner }
  | call (hpc : v.main.pc = .between) :
      ProbeStep v [.round .first] { v with main := v.main.call }
  | probed {round : Round} {k : Nat} (hpc : v.main.pc = .probe round k) (hk : n ≤ k) :
      ProbeStep v [] { v with main := v.main.goto (.collect round 0) }
  | second {k : Nat} (hpc : v.main.pc = .collect .first k) (hk : n ≤ k)
      (hvalid : v.main.valid = true) :
      ProbeStep v [.round .second] { v with main := v.main.goto (.probe .second 0) }
  | compared {k : Nat} {new : StatePtr n} {equal : Bool} (hpc : v.main.pc = .compare k new) :
      ProbeStep v [] { v with main := v.main.compared k equal }
  | reject {round : Round} {k : Nat} (hpc : v.main.pc = .collect round k) (hk : n ≤ k) :
      ProbeStep v [] { v with main := v.main.goto .between }
  | accept {k : Nat} (hpc : v.main.pc = .collect .second k) (hk : n ≤ k)
      (hvalid : v.main.valid = true) : ProbeStep v [] { v with main := v.main.goto (.results 0 0) }
  | after {pc : MainPc n} (hpc : v.main.pc.accepted = true) (hpc' : pc.accepted = true) :
      ProbeStep v [] { v with main := v.main.goto pc }

/-! ## the stress run refines the protocol -/

/-- The answer a router waits to deliver. -/
def RouterPc.replying : RouterPc n → Option (Job n)
  | .reply job => some job
  | _ => none

@[simp] theorem RouterPc.replying_eq_some {pc : RouterPc n} {job : Job n} :
    pc.replying = some job ↔ pc = .reply job := by
  cases pc <;> simp [replying]

/-- The abstraction. -/
def probeView (s : State n) : ProbeView n where
  asked i := decide (none ∈ s.queues i)
  replying i := (s.routers i).pc.replying
  answered := s.completedQueue
  main := s.main

@[simp] theorem probeView_asked (s : State n) (i : Fin n) :
    (probeView s).asked i = decide (none ∈ s.queues i) := rfl

@[simp] theorem probeView_replying (s : State n) (i : Fin n) :
    (probeView s).replying i = (s.routers i).pc.replying := rfl

@[simp] theorem probeView_answered (s : State n) : (probeView s).answered = s.completedQueue := rfl

@[simp] theorem probeView_main (s : State n) : (probeView s).main = s.main := rfl

theorem probeView_setRouter (s : State n) (i : Fin n) (r : Router n) :
    probeView (s.setRouter i r) = { probeView s with
      replying := Function.update (probeView s).replying i r.pc.replying } := by
  ext1
  case replying =>
    funext j
    by_cases hji : j = i
    · subst hji; simp [probeView]
    · simp [probeView, hji]
  all_goals rfl

theorem probeView_setQueue (s : State n) (i : Fin n) (q : List (Job n)) :
    probeView (s.setQueue i q) = { probeView s with
      asked := Function.update (probeView s).asked i (decide (none ∈ q)) } := by
  ext1
  case asked =>
    funext j
    by_cases hji : j = i
    · subst hji; simp [probeView]
    · simp [probeView, hji]
  all_goals rfl

theorem probeView_setMain (s : State n) (m : Main n) :
    probeView (s.setMain m) = { probeView s with main := m } := rfl

/-- A router that does not start or stop answering does not move in the
protocol. -/
theorem probeView_setRouter_of_eq {s : State n} {i : Fin n} {r : Router n}
    (h : r.pc.replying = (s.routers i).pc.replying) :
    probeView (s.setRouter i r) = probeView s := by
  rw [probeView_setRouter, h]
  exact congrArg (fun f => { probeView s with replying := f }) (Function.update_eq_self i _)

/-- A driver that stores a `NULL` as before does not move in the protocol. -/
theorem probeView_setQueue_of_iff {s : State n} {i : Fin n} {q : List (Job n)}
    (h : none ∈ q ↔ none ∈ s.queues i) : probeView (s.setQueue i q) = probeView s := by
  rw [probeView_setQueue, decide_eq_decide.mpr h]
  exact congrArg (fun f => { probeView s with asked := f }) (Function.update_eq_self i _)

section Refinement

variable {C : Config n} {s s' : State n} {es : List (Event n)}

/-- Up to two steps of the protocol. -/
def ProbeSteps (v : ProbeView n) (es : List (Event n)) (v' : ProbeView n) : Prop :=
  ∃ w es₁ es₂, ProbeStep v es₁ w ∧ ProbeStep w es₂ v' ∧ es = es₁ ++ es₂

theorem ProbeSteps.one {v v' : ProbeView n} (h : ProbeStep v es v') : ProbeSteps v es v' :=
  ⟨v', es, [], h, .quiet fun _ => rfl, (List.append_nil es).symm⟩

theorem ProbeSteps.stutter {v : ProbeView n} (hes : ∀ c : CallLog n, es.foldl CallLog.add c = c) :
    ProbeSteps v es v := .one (.quiet hes)

/-- Between two driver calls a router neither starts nor stops answering. -/
theorem LocalStep.replying {i : Fin n} {r : Router n} (h : LocalStep C s i es r) :
    r.pc.replying = (s.routers i).pc.replying ∧
      ∀ c : CallLog n, es.foldl CallLog.add c = c := by
  cases h with
  | relaxed hpc =>
      refine ⟨?_, fun c => rfl⟩
      rw [hpc]; unfold Router.relaxed; split <;> rfl
  | received hpc | relaxDone hpc | rotated hpc | skipped hpc | copied hpc | reset hpc | left hpc =>
      exact ⟨by rw [hpc]; rfl, fun c => rfl⟩

/-- The answer to a `NULL` is the router's own vector, if any. -/
theorem handled_none_replying (r : Router n) (i : Fin n) :
    ∃ job, (r.handled i none).pc.replying = some job ∧ ∀ p, job = some p → p.owner = i := by
  refine ⟨_, rfl, fun p hp => ?_⟩
  split at hp
  · cases hp; rfl
  · contradiction

theorem MainStep.probeStep {m : Main n} {closed : Bool} (h : MainStep C s es m closed) :
    ProbeStep (probeView s) es { probeView s with main := m } := by
  cases h with
  | call hpc => exact .call hpc
  | probeDone hpc hk => exact .probed hpc hk
  | firstValid hpc hk hvalid => exact .second hpc hk hvalid
  | secondValid hpc hk hvalid => exact .accept hpc hk hvalid
  | invalid hpc hk hvalid => exact .reject hpc hk
  | compared hpc hold => exact .compared hpc
  | resultOk hpc | resultRow hpc | resultsDone hpc | close hpc | joinOne hpc | joinDone hpc =>
      exact .after (by rw [probeView_main, hpc]; rfl) rfl

/-- **The stress run refines the probe protocol.** -/
theorem Trans.probeSteps (hinv : ∀ i, (s.routers i).Inv C.topology i)
    (hroom : ∀ j, (s.queues j).length ≤ C.bufferSize)
    (hcompleted : s.completedQueue.length ≤ C.bufferSize) (h : Trans C s es s') :
    ProbeSteps (probeView s) es (probeView s') := by
  have hsrc : (fun p => (s.load p).src) = (StatePtr.owner : StatePtr n → Fin n) := by
    funext p; exact (hinv p.owner).buffer.src p.slot
  cases h with
  | @handle i job rest hpc hq =>
      obtain rfl := C.rest_eq_nil (hq ▸ hroom i)
      cases job with
      | some p =>
          have hview :
              probeView ((s.setQueue i []).setRouter i ((s.routers i).handled i (some p))) =
                probeView s := by
            rw [probeView_setRouter_of_eq (by rw [State.routers_setQueue, hpc]; rfl)]
            exact probeView_setQueue_of_iff (by simp [hq])
          rw [hview]
          exact .stutter fun c => rfl
      | none =>
          obtain ⟨job, hjob, hown⟩ := handled_none_replying (s.routers i) i
          rw [probeView_setRouter, probeView_setQueue, hjob]
          exact .one (.take (by simp [hq]) (by simp [hpc, RouterPc.replying]) hown)
  | @schedule i j m job hpc hm he hlt =>
      obtain ⟨-, rfl⟩ := (hinv i).entry_select hpc he
      have hq := C.eq_nil_of_lt hlt
      rw [probeView_setRouter_of_eq (by rw [State.routers_setQueue, hpc]; rfl),
        probeView_setQueue_of_iff (by simp [hq])]
      exact .stutter fun c => rfl
  | @meet i j m job hpc hm he hbuf hne hpcj =>
      obtain ⟨-, rfl⟩ := (hinv i).entry_select hpc he
      rw [probeView_setRouter_of_eq (by rw [State.routers_setRouter, if_neg hne, hpcj]; rfl),
        probeView_setRouter_of_eq (by rw [hpc]; rfl)]
      exact .stutter fun c => rfl
  | @router i es r h =>
      obtain ⟨hreply, hes⟩ := h.replying
      rw [probeView_setRouter_of_eq hreply]
      exact .stutter hes
  | @reply i job hpc hlt =>
      have hview : probeView { s.setRouter i ((s.routers i).goto .check) with
          completedQueue := s.completedQueue ++ [job] } = { probeView s with
            replying := Function.update (probeView s).replying i none
            answered := (probeView s).answered ++ [job] } :=
        congrArg (fun v : ProbeView n => { v with answered := s.completedQueue ++ [job] })
          (probeView_setRouter s i _)
      rw [hview]
      exact .one (.answer (by simp [hpc]))
  | @replyMeet i job round k hpc hbuf hmain hk =>
      -- the answer is stored and taken at once
      have hempty := C.eq_nil_of_rendezvous hbuf hcompleted
      have hreply : (probeView s).replying i = some job := by simp [hpc]
      refine ⟨_, _, _, .answer hreply, ?_, rfl⟩
      rw [probeView_setMain, probeView_setRouter, hsrc]
      refine ProbeStep.collect (k := k) hmain hk ?_
      simp [hempty]
  | @probe round k hmain hlt =>
      have hq := C.eq_nil_of_lt hlt
      rw [probeView_setMain, probeView_setQueue, hq]
      exact .one (.ask hmain)
  | @probeMeet round k hmain hbuf hpc =>
      -- the `NULL` is stored and taken at once
      have hq := C.eq_nil_of_rendezvous hbuf (hroom k)
      obtain ⟨job, hjob, hown⟩ := handled_none_replying (s.routers k) k
      have htake := ProbeStep.take (v := { probeView s with
        asked := Function.update (probeView s).asked k true
        main := (probeView s).main.goto (.probe round (k.val + 1)) }) (i := k)
        (by simp) (by simp [hpc, RouterPc.replying]) hown
      refine ⟨_, _, _, .ask hmain, ?_, rfl⟩
      rw [probeView_setMain, probeView_setRouter, hjob]
      rw [Function.update_idem] at htake
      have hasked : Function.update (probeView s).asked k false = (probeView s).asked := by
        rw [Function.update_eq_self_iff]; simp [hq]
      rw [hasked] at htake
      exact htake
  | @collect round k job rest hmain hk hq =>
      rw [hsrc]
      exact .one (.collect hmain hk hq)
  | main h => exact .one h.probeStep
  | abort => exact .stutter fun c => rfl

/-- What the protocol keeps, the stress run keeps. -/
theorem run_probeInvariant {P : CallLog n → ProbeView n → Prop}
    (hinit : P (callLog []) (probeView (State.init C)))
    (hstep : ∀ {c v es v'}, P c v → ProbeStep v es v' → P (es.foldl CallLog.add c) v')
    {log : List (Event n)} (h : (stress C).Run log s) : P (callLog log) (probeView s) := by
  refine run_invariant (P := fun log s => P (callLog log) (probeView s)) hinit
    (fun {log s es s'} hr hp ht => ?_) h
  obtain ⟨w, es₁, es₂, h₁, h₂, rfl⟩ :=
    ht.probeSteps (run_routerInv hr) (run_room hr) (run_completedRoom hr)
  rw [callLog_append, List.foldl_append]
  exact hstep (hstep hp h₁) h₂

end Refinement

/-! ## rounds -/

/-- The part of router `i` in the current round, and what it is doing about it. -/
inductive Stage (i : Fin n) : List (Event n) → Bool → Option (Job n) → Prop
  | idle : Stage i [] false none
  | asked : Stage i [.probe i] true none
  | taken {job : Job n} (hown : ∀ p, job = some p → p.owner = i) :
      Stage i [.probe i, .take i none] false (some job)
  | answered {job : Job n} {epoch : Nat} (hown : ∀ p, job = some p → p.owner = i) :
      Stage i [.probe i, .take i none, .reply i job epoch] false none

/-- All probes of the round have been sent and all answers collected. -/
def CallLog.Complete (c : CallLog n) : Prop :=
  (collected c.current).length = n ∧ ∀ i, probeTrace c.current i ≠ []

/-- How far a round has come when the main thread stands at `pc`. -/
def Position (c : CallLog n) : MainPc n → Prop
  | .probe round k => c.round = some round ∧ collected c.current = [] ∧
      ∀ i, probeTrace c.current i ≠ [] ↔ i.val < k
  | .collect round k => c.round = some round ∧ (collected c.current).length = k ∧
      ∀ i, probeTrace c.current i ≠ []
  | .compare k _ => c.round = some .second ∧ (collected c.current).length = k + 1 ∧
      ∀ i, probeTrace c.current i ≠ []
  | .between => (c.round = none ∧ c.current = []) ∨ c.Complete
  | .results _ _ | .close | .join _ | .joined => c.round = some .second ∧ c.Complete

/-- The invariant of the protocol. -/
structure ProbeInv (c : CallLog n) (v : ProbeView n) : Prop where
  stage : ∀ i, Stage i (probeTrace c.current i) (v.asked i) (v.replying i)
  queue : (answers c.current).map Answer.job = collected c.current ++ v.answered
  position : Position c v.main.pc
  valid : v.main.valid = true → none ∉ collected c.current
  accepted : v.main.pc.accepted = true → v.main.valid = true
  first : c.round = some .first →
    ∀ p, some p ∈ collected c.current → v.main.completed p.owner = some p
  second : c.round = some .second →
    ∀ i, ∃ p epoch, ⟨i, some p, epoch⟩ ∈ answers c.first ∧ v.main.completed i = some p
  distinct : ∀ a ∈ answers c.first, ∀ b ∈ answers c.first, a.router = b.router → a = b

section Rounds

variable {c : CallLog n} {v v' : ProbeView n} {es : List (Event n)}

/-- A router gives at most one answer in a round, after its part has come that
far. -/
theorem Stage.answers_eq {i : Fin n} {es : List (Event n)} {asked : Bool}
    {replying : Option (Job n)} (h : Stage i es asked replying) :
    answers es = [] ∨ ∃ job epoch, (∀ p, job = some p → p.owner = i) ∧
      es = [.probe i, .take i none, .reply i job epoch] ∧ answers es = [⟨i, job, epoch⟩] := by
  cases h with
  | idle | asked | taken => exact .inl rfl
  | answered hown => exact .inr ⟨_, _, hown, rfl, rfl⟩

theorem ProbeInv.filter_answers (h : ProbeInv c v) (i : Fin n) :
    (answers c.current).filter (·.router = i) = [] ∨ ∃ job epoch,
      (∀ p, job = some p → p.owner = i) ∧
      probeTrace c.current i = [.probe i, .take i none, .reply i job epoch] ∧
      (answers c.current).filter (·.router = i) = [⟨i, job, epoch⟩] := by
  rw [← answers_probeTrace]
  exact (h.stage i).answers_eq

theorem ProbeInv.filter_of_mem (h : ProbeInv c v) {a : Answer n} (ha : a ∈ answers c.current) :
    (∀ p, a.job = some p → p.owner = a.router) ∧
    probeTrace c.current a.router =
      [.probe a.router, .take a.router none, .reply a.router a.job a.epoch] ∧
    (answers c.current).filter (·.router = a.router) = [a] := by
  have hmem : a ∈ (answers c.current).filter (·.router = a.router) := by
    rw [List.mem_filter]; exact ⟨ha, decide_eq_true rfl⟩
  rcases h.filter_answers a.router with hnil | ⟨job, epoch, hown, htrace, hone⟩
  · rw [hnil] at hmem; cases hmem
  · rw [hone, List.mem_singleton] at hmem
    rw [hmem] at *
    exact ⟨hown, htrace, hone⟩

/-- No router answers twice in a round. -/
theorem ProbeInv.answer_unique (h : ProbeInv c v) {a b : Answer n} (ha : a ∈ answers c.current)
    (hb : b ∈ answers c.current) (hab : a.router = b.router) : a = b := by
  have hmem : b ∈ (answers c.current).filter (·.router = a.router) := by
    rw [List.mem_filter]; exact ⟨hb, decide_eq_true hab.symm⟩
  rw [(h.filter_of_mem ha).2.2, List.mem_singleton] at hmem
  exact hmem.symm

theorem ProbeInv.nodup (h : ProbeInv c v) : ((answers c.current).map Answer.router).Nodup := by
  rw [List.nodup_iff_count_le_one]
  intro i
  have hcount : ((answers c.current).map Answer.router).count i =
      ((answers c.current).filter (·.router = i)).length := by
    rw [List.count_eq_countP, List.countP_map, List.countP_eq_length_filter]
    congr 1
  rw [hcount]
  rcases h.filter_answers i with hnil | ⟨job, epoch, -, -, hone⟩
  · rw [hnil]; exact Nat.zero_le _
  · rw [hone]; exact Nat.le_refl _

theorem ProbeInv.length_answers_le (h : ProbeInv c v) : (answers c.current).length ≤ n := by
  have hle := h.nodup.length_le_card
  rw [List.length_map, Fintype.card_fin] at hle
  exact hle

theorem ProbeInv.length_collected_le (h : ProbeInv c v) :
    (collected c.current).length + v.answered.length = (answers c.current).length := by
  rw [← List.length_append, ← h.queue, List.length_map]

/-- When `n` answers have been collected, every router has answered and nothing
is left. -/
theorem ProbeInv.complete (h : ProbeInv c v) (hn : (collected c.current).length = n) :
    v.answered = [] ∧ collected c.current = (answers c.current).map Answer.job ∧
      ((answers c.current).map Answer.router).Perm (List.finRange n) := by
  have hle := h.length_answers_le
  have hlen := h.length_collected_le
  have hnil : v.answered = [] := List.eq_nil_of_length_eq_zero (by omega)
  refine ⟨hnil, ?_, ?_⟩
  · rw [h.queue, hnil, List.append_nil]
  · have hall : ∀ i, i ∈ (answers c.current).map Answer.router := by
      have hcard :
          ((answers c.current).map Answer.router).toFinset.card = Fintype.card (Fin n) := by
        rw [List.toFinset_card_of_nodup h.nodup, List.length_map, Fintype.card_fin]
        omega
      intro i
      rw [← List.mem_toFinset, Finset.eq_univ_of_card _ hcard]
      exact Finset.mem_univ i
    exact (List.perm_ext_iff_of_nodup h.nodup (List.nodup_finRange n)).mpr fun i =>
      iff_of_true (hall i) (List.mem_finRange i)

/-- After a complete round no router is involved any more. -/
theorem ProbeInv.settled (h : ProbeInv c v) (hn : (collected c.current).length = n) (i : Fin n) :
    (∃ job epoch, ⟨i, job, epoch⟩ ∈ answers c.current) ∧ v.asked i = false ∧
      v.replying i = none := by
  have hmem : i ∈ (answers c.current).map Answer.router :=
    (h.complete hn).2.2.mem_iff.mpr (List.mem_finRange i)
  obtain ⟨⟨i', job, epoch⟩, ha, rfl⟩ := List.mem_map.mp hmem
  have hstage := h.stage i'
  rw [(h.filter_of_mem ha).2.1] at hstage
  generalize v.asked i' = asked, v.replying i' = replying at hstage
  cases hstage
  exact ⟨⟨job, epoch, ha⟩, rfl, rfl⟩

/-! ### the invariant, step by step -/

theorem Position.of_not_probing {pc : MainPc n} (hpc : pc.probing = false) (h : Position c pc) :
    (c.round = none ∧ c.current = []) ∨ c.Complete := by
  cases pc with
  | probe | collect | compare => cases hpc
  | between => exact h
  | results | close | join | joined => exact .inr h.2

theorem position_of_accepted {pc : MainPc n} (hpc : pc.accepted = true) :
    Position c pc ↔ c.round = some .second ∧ c.Complete := by
  cases pc with
  | between | probe | collect | compare => cases hpc
  | results | close | join | joined => exact Iff.rfl

/-- Outside the loops of `check_done` nothing is asked, answered or stored. -/
theorem ProbeInv.idle (h : ProbeInv c v) (hpc : v.main.pc.probing = false) :
    v.answered = [] ∧ ∀ i, v.asked i = false ∧ v.replying i = none := by
  rcases h.position.of_not_probing hpc with ⟨-, hnil⟩ | ⟨hn, -⟩
  · have hqueue := h.queue
    rw [hnil] at hqueue
    refine ⟨hqueue.symm, fun i => ?_⟩
    have hstage := h.stage i
    rw [hnil, probeTrace_nil] at hstage
    generalize v.asked i = asked, v.replying i = replying at hstage
    cases hstage
    exact ⟨rfl, rfl⟩
  · exact ⟨(h.complete hn).1, fun i => (h.settled hn i).2⟩

/-- Events that neither start a router's part nor collect keep the position. -/
theorem Position.congr {c' : CallLog n} {pc : MainPc n} (h : Position c pc)
    (hround : c'.round = c.round) (hcol : collected c'.current = collected c.current)
    (htrace : ∀ i, probeTrace c'.current i ≠ [] ↔ probeTrace c.current i ≠ [])
    (hne : c.current ≠ []) : Position c' pc := by
  cases pc with
  | probe round k =>
      refine ⟨hround.trans h.1, hcol.trans h.2.1, fun i => (htrace i).trans (h.2.2 i)⟩
  | collect round k =>
      exact ⟨hround.trans h.1, by rw [hcol]; exact h.2.1, fun i => (htrace i).mpr (h.2.2 i)⟩
  | compare k new =>
      exact ⟨hround.trans h.1, by rw [hcol]; exact h.2.1, fun i => (htrace i).mpr (h.2.2 i)⟩
  | between =>
      have hcomplete := h.resolve_left fun hc => hne hc.2
      exact .inr ⟨by rw [hcol]; exact hcomplete.1, fun i => (htrace i).mpr (hcomplete.2 i)⟩
  | results | close | join | joined =>
      exact ⟨hround.trans h.1, by rw [hcol]; exact h.2.1, fun i => (htrace i).mpr (h.2.2 i)⟩

theorem ProbeInv.ask (h : ProbeInv c v) {round : Round} {k : Fin n}
    (hpc : v.main.pc = .probe round k.val) :
    ProbeInv { c with current := c.current ++ [.probe k] }
      { v with
        asked := Function.update v.asked k true
        main := v.main.goto (.probe round (k.val + 1)) } := by
  have hposition := h.position
  rw [hpc] at hposition
  obtain ⟨hround, hcol, hasked⟩ := hposition
  have hidle : probeTrace c.current k = [] := by
    by_contra hne
    exact Nat.lt_irrefl _ ((hasked k).mp hne)
  constructor
  case stage =>
    intro i
    show Stage i _ (Function.update v.asked k true i) (v.replying i)
    rw [probeTrace_probe]
    by_cases hik : i = k
    · subst hik
      have hstage := h.stage i
      rw [hidle] at hstage ⊢
      rw [if_pos rfl, Function.update_self]
      generalize v.asked i = asked, v.replying i = replying at hstage ⊢
      cases hstage
      exact .asked
    · rw [if_neg (Ne.symm hik), List.append_nil, Function.update_of_ne hik]
      exact h.stage i
  case queue => rw [answers_probe, collected_probe]; exact h.queue
  case position =>
    refine ⟨hround, by rw [collected_probe]; exact hcol, fun i => ?_⟩
    rw [probeTrace_probe]
    by_cases hik : i = k
    · subst hik; simp
    · have hne : i.val ≠ k.val := fun he => hik (Fin.ext he)
      rw [if_neg (Ne.symm hik), List.append_nil, hasked i]
      omega
  case valid => intro hv; rw [collected_probe]; exact h.valid hv
  case accepted => intro hpc'; cases hpc'
  case first => intro hr; rw [collected_probe]; exact h.first hr
  case second => exact h.second
  case distinct => exact h.distinct

theorem ProbeInv.take (h : ProbeInv c v) {i : Fin n} {job : Job n} (hasked : v.asked i = true)
    (hown : ∀ p, job = some p → p.owner = i) :
    ProbeInv { c with current := c.current ++ [.take i none] }
      { v with
        asked := Function.update v.asked i false
        replying := Function.update v.replying i (some job) } := by
  have htrace : probeTrace c.current i = [.probe i] := by
    have hstage := h.stage i
    rw [hasked] at hstage
    generalize probeTrace c.current i = trace, v.replying i = replying at hstage
    cases hstage
    rfl
  constructor
  case stage =>
    intro j
    show Stage j _ (Function.update v.asked i false j) (Function.update v.replying i (some job) j)
    rw [probeTrace_take]
    by_cases hji : j = i
    · subst hji
      rw [htrace, if_pos rfl, Function.update_self, Function.update_self]
      exact .taken hown
    · rw [if_neg (Ne.symm hji), List.append_nil, Function.update_of_ne hji,
        Function.update_of_ne hji]
      exact h.stage j
  case queue => rw [answers_take, collected_take]; exact h.queue
  case position =>
    refine h.position.congr rfl (collected_take _ _) (fun j => ?_) ?_
    · rw [probeTrace_take]
      by_cases hji : j = i
      · subst hji; simp [htrace]
      · rw [if_neg (Ne.symm hji), List.append_nil]
    · intro hnil; simp [hnil] at htrace
  case valid => intro hv; rw [collected_take]; exact h.valid hv
  case accepted => exact h.accepted
  case first => intro hr; rw [collected_take]; exact h.first hr
  case second => exact h.second
  case distinct => exact h.distinct

theorem ProbeInv.answer (h : ProbeInv c v) {i : Fin n} {job : Job n} (epoch : Nat)
    (hreply : v.replying i = some job) :
    ProbeInv { c with current := c.current ++ [.reply i job epoch] }
      { v with
        replying := Function.update v.replying i none
        answered := v.answered ++ [job] } := by
  have hstage := h.stage i
  rw [hreply] at hstage
  have htrace : probeTrace c.current i = [.probe i, .take i none] ∧ v.asked i = false ∧
      ∀ p, job = some p → p.owner = i := by
    generalize probeTrace c.current i = trace, v.asked i = asked at hstage
    cases hstage with
    | taken hown => exact ⟨rfl, rfl, hown⟩
  obtain ⟨htrace, hasked, hown⟩ := htrace
  constructor
  case stage =>
    intro j
    show Stage j _ (v.asked j) (Function.update v.replying i none j)
    rw [probeTrace_reply]
    by_cases hji : j = i
    · subst hji
      rw [htrace, if_pos rfl, Function.update_self, hasked]
      exact .answered hown
    · rw [if_neg (Ne.symm hji), List.append_nil, Function.update_of_ne hji]
      exact h.stage j
  case queue =>
    rw [answers_reply, collected_reply, List.map_append, h.queue, List.append_assoc]
    rfl
  case position =>
    refine h.position.congr rfl (collected_reply _ _ _ _) (fun j => ?_) ?_
    · rw [probeTrace_reply]
      by_cases hji : j = i
      · subst hji; simp [htrace]
      · rw [if_neg (Ne.symm hji), List.append_nil]
    · intro hnil; simp [hnil] at htrace
  case valid => intro hv; rw [collected_reply]; exact h.valid hv
  case accepted => exact h.accepted
  case first => intro hr; rw [collected_reply]; exact h.first hr
  case second => exact h.second
  case distinct => exact h.distinct

/-- Answers with the same owner are the same. -/
theorem ProbeInv.job_unique (h : ProbeInv c v) {p q : StatePtr n}
    (hp : some p ∈ (answers c.current).map Answer.job)
    (hq : some q ∈ (answers c.current).map Answer.job) (hpq : p.owner = q.owner) : p = q := by
  obtain ⟨a, ha, hap⟩ := List.mem_map.mp hp
  obtain ⟨b, hb, hbq⟩ := List.mem_map.mp hq
  have hrouters : a.router = b.router := by
    rw [← (h.filter_of_mem ha).1 p hap, ← (h.filter_of_mem hb).1 q hbq, hpq]
  have hab := h.answer_unique ha hb hrouters
  subst hab
  rw [hap] at hbq
  exact Option.some.inj hbq

theorem ProbeInv.collect (h : ProbeInv c v) {round : Round} {k : Nat} {job : Job n}
    {rest : List (Job n)} (hpc : v.main.pc = .collect round k) (hq : v.answered = job :: rest) :
    ProbeInv { c with current := c.current ++ [.collect job] }
      { v with
        answered := rest
        main := v.main.collected round k job StatePtr.owner } := by
  have hposition := h.position
  rw [hpc] at hposition
  obtain ⟨hround, hcol, hasked⟩ := hposition
  have hqueue := h.queue
  rw [hq] at hqueue
  have hlen : (collected (c.current ++ [.collect job])).length = k + 1 := by
    rw [collected_collect, List.length_append, hcol]; rfl
  have hasked' : ∀ i, probeTrace (c.current ++ [.collect job]) i ≠ [] := by
    intro i; rw [probeTrace_collect]; exact hasked i
  constructor
  case stage => intro i; rw [probeTrace_collect]; exact h.stage i
  case queue => rw [answers_collect, collected_collect, List.append_assoc, hqueue]; rfl
  case position =>
    cases round <;> cases job <;> exact ⟨hround, hlen, hasked'⟩
  case valid =>
    intro hv
    rw [collected_collect, List.mem_append, not_or]
    cases round <;> cases job with
    | none => cases hv
    | some q => exact ⟨h.valid hv, by simp⟩
  case accepted => intro hpc'; cases round <;> cases job <;> cases hpc'
  case first =>
    intro hr p hp
    rw [hround] at hr
    cases hr
    have hcompleted := h.first hround
    rw [collected_collect] at hp
    cases job with
    | none =>
        rw [List.mem_append] at hp
        exact hcompleted p (hp.resolve_right (by simp))
    | some q =>
        have hjobs : ∀ x, some x ∈ collected c.current ++ [some q] →
            some x ∈ (answers c.current).map Answer.job := by
          intro x hx
          rw [hqueue]
          simp only [List.mem_append, List.mem_cons, List.not_mem_nil, or_false] at hx ⊢
          exact hx.imp_right .inl
        have hqmem : some q ∈ (answers c.current).map Answer.job :=
          hjobs q (List.mem_append_right _ (List.mem_singleton.mpr rfl))
        show Function.update v.main.completed q.owner (some q) p.owner = some p
        by_cases howner : p.owner = q.owner
        · rw [h.job_unique (hjobs p hp) hqmem howner, Function.update_self]
        · rw [Function.update_of_ne howner]
          refine hcompleted p ((List.mem_append.mp hp).resolve_right fun hpq => ?_)
          rw [List.mem_singleton, Option.some.injEq] at hpq
          exact howner (by rw [hpq])
  case second =>
    intro hr
    rw [hround] at hr
    cases hr
    have hcompleted : (v.main.collected .second k job StatePtr.owner).completed =
        v.main.completed := by cases job <;> rfl
    rw [hcompleted]
    exact h.second hround
  case distinct => exact h.distinct

/-- A new round finds the protocol at rest. -/
theorem probeInv_restart {c' : CallLog n} {m : Main n} {round : Round}
    (hround : c'.round = some round) (hnil : c'.current = []) (hm : m.pc = .probe round 0)
    (hrest : v.answered = [] ∧ ∀ i, v.asked i = false ∧ v.replying i = none)
    (hsecond : round = .second → ∀ i, ∃ p epoch, ⟨i, some p, epoch⟩ ∈ answers c'.first ∧
      m.completed i = some p)
    (hdistinct : ∀ a ∈ answers c'.first, ∀ b ∈ answers c'.first, a.router = b.router → a = b) :
    ProbeInv c' { v with main := m } := by
  constructor
  case stage =>
    intro i
    rw [hnil, (hrest.2 i).1, (hrest.2 i).2]
    exact .idle
  case queue => rw [hnil, hrest.1]; rfl
  case position =>
    rw [hm]
    refine ⟨hround, by rw [hnil]; rfl, fun i => ?_⟩
    rw [hnil]; simp
  case valid => intro _; rw [hnil]; simp
  case accepted => intro hpc; rw [hm] at hpc; cases hpc
  case first => intro _; rw [hnil]; simp
  case second =>
    intro hr
    rw [hround, Option.some.injEq] at hr
    exact hsecond hr
  case distinct => exact hdistinct

/-- Only control of the main thread moves. -/
theorem ProbeInv.setMain (h : ProbeInv c v) {m : Main n} (hpos : Position c m.pc)
    (hcompleted : m.completed = v.main.completed)
    (hvalid : m.valid = true → v.main.valid = true)
    (haccepted : m.pc.accepted = true → m.valid = true) :
    ProbeInv c { v with main := m } := by
  constructor
  case stage => exact h.stage
  case queue => exact h.queue
  case position => exact hpos
  case valid => exact fun hv => h.valid (hvalid hv)
  case accepted => exact haccepted
  case first => intro hr; rw [hcompleted]; exact h.first hr
  case second => intro hr; rw [hcompleted]; exact h.second hr
  case distinct => exact h.distinct

/-- A round that is left is complete. -/
theorem ProbeInv.collected_length (h : ProbeInv c v) {round : Round} {k : Nat}
    (hpc : v.main.pc = .collect round k) (hk : n ≤ k) : (collected c.current).length = n := by
  have hposition := h.position
  rw [hpc] at hposition
  have hle := h.length_answers_le
  have hlen := h.length_collected_le
  have hcol := hposition.2.1
  omega

/-- **The protocol keeps its invariant.** -/
theorem ProbeInv.step (h : ProbeInv c v) (hs : ProbeStep v es v') :
    ProbeInv (es.foldl CallLog.add c) v' := by
  cases hs with
  | quiet hes => rw [hes]; exact h
  | ask hpc => exact h.ask hpc
  | take hasked hreply hown => exact h.take hasked hown
  | answer hreply => exact h.answer _ hreply
  | collect hpc hk hq => exact h.collect hpc hq
  | call hpc =>
      exact probeInv_restart rfl rfl rfl (h.idle (by rw [hpc]; rfl)) (by simp) fun a ha => by
        cases ha
  | @probed round k hpc hk =>
      have hposition := h.position
      rw [hpc] at hposition
      obtain ⟨hround, hcol, hasked⟩ := hposition
      refine h.setMain ⟨hround, by rw [hcol]; rfl, fun i => ?_⟩ rfl id (fun hacc => by cases hacc)
      exact (hasked i).mpr (Nat.lt_of_lt_of_le i.isLt hk)
  | second hpc hk hvalid =>
      have hn := h.collected_length hpc hk
      have hround : c.round = some .first := by
        have hposition := h.position
        rw [hpc] at hposition
        exact hposition.1
      refine probeInv_restart rfl rfl rfl ⟨(h.complete hn).1, fun i => (h.settled hn i).2⟩ ?_
        fun a ha b hb => h.answer_unique ha hb
      intro _ i
      obtain ⟨⟨job, epoch, hmem⟩, -⟩ := h.settled hn i
      have hjob : job ∈ collected c.current := by
        rw [(h.complete hn).2.1]
        exact List.mem_map_of_mem (f := Answer.job) hmem
      cases job with
      | none => exact absurd hjob (h.valid hvalid)
      | some p =>
          refine ⟨p, epoch, hmem, ?_⟩
          have howner : p.owner = i := (h.filter_of_mem hmem).1 p rfl
          rw [← howner]
          exact h.first hround p hjob
  | @compared k new equal hpc =>
      have hposition := h.position
      rw [hpc] at hposition
      refine h.setMain hposition rfl (fun hv => ?_) fun hacc => by cases hacc
      exact (Bool.and_eq_true _ _ ▸ hv).1
  | reject hpc hk =>
      have hposition := h.position
      rw [hpc] at hposition
      exact h.setMain (.inr ⟨h.collected_length hpc hk, hposition.2.2⟩) rfl id
        fun hacc => by cases hacc
  | accept hpc hk hvalid =>
      have hposition := h.position
      rw [hpc] at hposition
      exact h.setMain ⟨hposition.1, h.collected_length hpc hk, hposition.2.2⟩ rfl id
        fun _ => hvalid
  | after hpc hpc' =>
      have hposition := (position_of_accepted hpc).mp h.position
      exact h.setMain ((position_of_accepted hpc').mpr hposition) rfl id fun _ => h.accepted hpc

end Rounds

section Runs

variable {C : Config n} {log : List (Event n)} {s : State n}

theorem probeInv_init (C : Config n) : ProbeInv (callLog []) (probeView (State.init C)) where
  stage i := .idle
  queue := rfl
  position := .inl ⟨rfl, rfl⟩
  valid _ := by simp [callLog]
  accepted h := by cases h
  first h := by cases h
  second h := by cases h
  distinct a ha := by cases ha

theorem run_probeInv (h : (stress C).Run log s) : ProbeInv (callLog log) (probeView s) :=
  run_probeInvariant (P := ProbeInv) (probeInv_init C) (fun hp hs => hp.step hs) h

theorem Stage.part {i : Fin n} {es : List (Event n)} {asked : Bool} {replying : Option (Job n)}
    (h : Stage i es asked replying) : es <+: [.probe i, .take i none] ∨
      ∃ job epoch, es = [.probe i, .take i none, .reply i job epoch] := by
  cases h with
  | idle => exact .inl List.nil_prefix
  | asked => exact .inl ⟨[.take i none], rfl⟩
  | taken => exact .inl (List.prefix_refl _)
  | answered => exact .inr ⟨_, _, rfl⟩

/-- What the second round and the check of the results read in `completed` was
answered in the first round of the call. -/
theorem ProbeInv.completed {c : CallLog n} {v : ProbeView n} (h : ProbeInv c v)
    (hround : c.round = some .second) (i : Fin n) :
    ∃ p epoch, v.main.completed i = some p ∧ ⟨i, some p, epoch⟩ ∈ answers c.first := by
  obtain ⟨p, epoch, hmem, hcompleted⟩ := h.second hround i
  exact ⟨p, epoch, hcompleted, hmem⟩

end Runs

/-- **Each round of probes is matched one-to-one with answers.**  In the current
round of the current call each router has got no further than being probed,
taking that `NULL` and answering it, in this order and once; what has been
answered is what has been collected and what is stored; `n` collected answers
are one of each router, with nothing left over; and every entry of `completed`
that is read is an answer of the first round of this call. -/
theorem round_answers_match {C : Config n} {log : List (Event n)} {s : State n}
    (h : (stress C).Run log s) :
    (∀ i, probeTrace (callLog log).current i <+: [.probe i, .take i none] ∨ ∃ job epoch,
      probeTrace (callLog log).current i = [.probe i, .take i none, .reply i job epoch]) ∧
    (answers (callLog log).current).map Answer.job =
      collected (callLog log).current ++ s.completedQueue ∧
    (∀ round k, s.main.pc = .collect round k →
      (callLog log).round = some round ∧ (collected (callLog log).current).length = k) ∧
    ((collected (callLog log).current).length = n →
      ((answers (callLog log).current).map Answer.router).Perm (List.finRange n) ∧
      s.completedQueue = [] ∧
      ∀ i, none ∉ s.queues i ∧ ∀ job, (s.routers i).pc ≠ .reply job) ∧
    (∀ k new, s.main.pc = .compare k new →
      ∃ old epoch, s.main.completed (s.load new).src = some old ∧
        ⟨(s.load new).src, some old, epoch⟩ ∈ answers (callLog log).first) ∧
    ∀ (src : Fin n) dst, s.main.pc = .results src.val dst →
      ∃ p epoch, s.main.completed src = some p ∧
        ⟨src, some p, epoch⟩ ∈ answers (callLog log).first := by
  have hprobe := run_probeInv h
  have hposition : Position (callLog log) s.main.pc := hprobe.position
  constructor
  · exact fun i => (hprobe.stage i).part
  constructor
  · exact hprobe.queue
  constructor
  · intro round k hpc
    rw [hpc] at hposition
    exact ⟨hposition.1, hposition.2.1⟩
  constructor
  · intro hn
    obtain ⟨hnil, -, hperm⟩ := hprobe.complete hn
    refine ⟨hperm, hnil, fun i => ?_⟩
    obtain ⟨-, hasked, hreply⟩ := hprobe.settled hn i
    refine ⟨of_decide_eq_false hasked, fun job hpc => ?_⟩
    rw [probeView_replying, hpc] at hreply
    cases hreply
  constructor
  · intro k new hpc
    rw [hpc] at hposition
    exact hprobe.completed hposition.1 (s.load new).src
  · intro src dst hpc
    rw [hpc] at hposition
    exact hprobe.completed hposition.1 src

theorem round_answers_match_twoRouters : ∃ log s, (stress twoRouters).Run log s ∧
    s.main.pc = .results 0 0 ∧
    (collected (callLog log).current).length = 2 ∧
    ((answers (callLog log).current).map Answer.router).Perm (List.finRange 2) := by
  obtain ⟨log, s, hr, hp⟩ := Lts.Run.exists_of_exec (stress twoRouters)
    (unroll (twoRoutersSettle ++ twoRoutersCall))
    (fun q => decide (q.2.main.pc = .results 0 0 ∧ (collected (callLog q.1).current).length = 2))
    (by decide +kernel)
  obtain ⟨hpc, hlen⟩ := of_decide_eq_true hp
  exact ⟨log, s, hr, hpc, hlen, ((round_answers_match hr).2.2.2.1 hlen).1⟩

end ConcurrencyLab
