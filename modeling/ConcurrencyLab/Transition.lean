import ConcurrencyLab.System

/-!
# ConcurrencyLab.Transition

Inversion of `step`: the relation `Trans` has one constructor for each way the
stress run can move, with the guards the code checked on the way, and
`step_eq_some_iff` says that `step` does exactly that.  Every invariant of the
development is proved by cases on `Trans`; none unfolds `step` again.

The thread-local moves are grouped (`LocalStep` for a router, `MainStep` for
the main thread), so that an invariant about the queues meets them as one case.
-/

namespace ConcurrencyLab

variable {n : Nat}

/-! ## the pieces of a step -/

/-- Router `i` runs on between two driver calls, or leaves its loop. -/
inductive LocalStep (C : Config n) (s : State n) (i : Fin n) : List (Event n) → Router n → Prop
  | received {p : StatePtr n} (hpc : (s.routers i).pc = .received p)
      (hlink : C.topology.link i (s.load p).src ≠ infDistance) :
      LocalStep C s i [] ((s.routers i).goto (.relax p (C.topology.link i (s.load p).src) 0))
  | relaxed {p : StatePtr n} {neighborDist : Nat} {k : Fin n}
      (hpc : (s.routers i).pc = .relax p neighborDist k.val) :
      LocalStep C s i [] ((s.routers i).relaxed p neighborDist k ((s.load p).dist k))
  | relaxDone {p : StatePtr n} {neighborDist k : Nat}
      (hpc : (s.routers i).pc = .relax p neighborDist k) (hk : n ≤ k) :
      LocalStep C s i [] ((s.routers i).goto .check)
  | rotated (hpc : (s.routers i).pc = .check) (hreset : (s.routers i).MustReset) :
      LocalStep C s i [.begin i (s.routers i).buffer.next] (s.routers i).rotated
  | skipped (hpc : (s.routers i).pc = .check) (hreset : ¬ (s.routers i).MustReset) :
      LocalStep C s i [] ((s.routers i).goto .select)
  | copied {k : Fin n} (hpc : (s.routers i).pc = .copy k.val) :
      LocalStep C s i [] ((s.routers i).copied k)
  | reset {k : Nat} (hpc : (s.routers i).pc = .copy k) (hk : n ≤ k) :
      LocalStep C s i [] ((s.routers i).reset i)
  | left (hpc : (s.routers i).pc = .select) (hclosed : s.doneClosed = true)
      (hdiv : (s.routers i).driverged = false) :
      LocalStep C s i [] ((s.routers i).goto .exited)

/-- The main thread runs on between two driver calls on `drivers` and
`completed_driver`; the last argument is whether `done_driver` is closed then. -/
inductive MainStep (C : Config n) (s : State n) : List (Event n) → Main n → Bool → Prop
  | call (hpc : s.main.pc = .between) :
      MainStep C s [.round .first] s.main.call s.doneClosed
  | probeDone {round : Round} {k : Nat} (hpc : s.main.pc = .probe round k) (hk : n ≤ k) :
      MainStep C s [] (s.main.goto (.collect round 0)) s.doneClosed
  | firstValid {k : Nat} (hpc : s.main.pc = .collect .first k) (hk : n ≤ k)
      (hvalid : s.main.valid = true) :
      MainStep C s [.round .second] (s.main.goto (.probe .second 0)) s.doneClosed
  | secondValid {k : Nat} (hpc : s.main.pc = .collect .second k) (hk : n ≤ k)
      (hvalid : s.main.valid = true) :
      MainStep C s [] (s.main.goto (.results 0 0)) s.doneClosed
  | invalid {round : Round} {k : Nat} (hpc : s.main.pc = .collect round k) (hk : n ≤ k)
      (hvalid : s.main.valid = false) :
      MainStep C s [] (s.main.goto .between) s.doneClosed
  | compared {k : Nat} {new old : StatePtr n} (hpc : s.main.pc = .compare k new)
      (hold : s.main.completed (s.load new).src = some old) :
      MainStep C s [] (s.main.compared k ((s.load old).epoch == (s.load new).epoch)) s.doneClosed
  | resultOk {src dst : Fin n} {p : StatePtr n} (hpc : s.main.pc = .results src.val dst.val)
      (hcompleted : s.main.completed src = some p)
      (hdist : (s.load p).dist dst = C.topology.floydWarshall src dst) :
      MainStep C s [] (s.main.goto (.results src.val (dst.val + 1))) s.doneClosed
  | resultRow {src : Fin n} {dst : Nat} (hpc : s.main.pc = .results src.val dst) (hdst : n ≤ dst) :
      MainStep C s [] (s.main.goto (.results (src.val + 1) 0)) s.doneClosed
  | resultsDone {src dst : Nat} (hpc : s.main.pc = .results src dst) (hsrc : n ≤ src) :
      MainStep C s [] (s.main.goto .close) s.doneClosed
  | close (hpc : s.main.pc = .close) : MainStep C s [] (s.main.goto (.join 0)) true
  | joinOne {i : Fin n} (hpc : s.main.pc = .join i.val) (hexit : (s.routers i).pc = .exited) :
      MainStep C s [] (s.main.goto (.join (i.val + 1))) s.doneClosed
  | joinDone {i : Nat} (hpc : s.main.pc = .join i) (hi : n ≤ i) :
      MainStep C s [] (s.main.goto .joined) s.doneClosed

/-- An assertion fails in the next step of some thread. -/
inductive Faulty (C : Config n) (s : State n) : Fault → Prop
  | neighborDist {i : Fin n} {p : StatePtr n} (hpc : (s.routers i).pc = .received p)
      (hlink : C.topology.link i (s.load p).src = infDistance) : Faulty C s .neighborDist
  | driverged {i : Fin n} (hpc : (s.routers i).pc = .select) (hclosed : s.doneClosed = true)
      (hdiv : (s.routers i).driverged = true) : Faulty C s .driverged
  | result {src dst : Fin n} {p : StatePtr n} (hpc : s.main.pc = .results src.val dst.val)
      (hcompleted : s.main.completed src = some p)
      (hdist : (s.load p).dist dst ≠ C.topology.floydWarshall src dst) : Faulty C s .result
  | unwrittenCompare {k : Nat} {new : StatePtr n} (hpc : s.main.pc = .compare k new)
      (hold : s.main.completed (s.load new).src = none) : Faulty C s .unwritten
  | unwrittenResult {src dst : Fin n} (hpc : s.main.pc = .results src.val dst.val)
      (hcompleted : s.main.completed src = none) : Faulty C s .unwritten

/-! ## transitions -/

/-- The ways the stress run moves from a state that is not aborted. -/
inductive Trans (C : Config n) (s : State n) : List (Event n) → State n → Prop
  | handle {i : Fin n} {job : Job n} {rest : List (Job n)}
      (hpc : (s.routers i).pc = .select) (hq : s.queues i = job :: rest) :
      Trans C s [.take i (job.map s.load)]
        ((s.setQueue i rest).setRouter i ((s.routers i).handled i job))
  | schedule {i j : Fin n} {m : Nat} {job : Job n} (hpc : (s.routers i).pc = .select)
      (hm : m < (s.routers i).selects.selectCount)
      (he : (s.routers i).selects.entries[m]? = some ⟨.drivers j, .schdle, job⟩)
      (hroom : (s.queues j).length < C.bufferSize) :
      Trans C s [.accept i j (job.map s.load)]
        ((s.setQueue j (s.queues j ++ [job])).setRouter i ((s.routers i).sent m))
  | meet {i j : Fin n} {m : Nat} {job : Job n} (hpc : (s.routers i).pc = .select)
      (hm : m < (s.routers i).selects.selectCount)
      (he : (s.routers i).selects.entries[m]? = some ⟨.drivers j, .schdle, job⟩)
      (hbuf : C.bufferSize = 0) (hne : j ≠ i) (hpcj : (s.routers j).pc = .select) :
      Trans C s [.accept i j (job.map s.load), .take j (job.map s.load)]
        ((s.setRouter i ((s.routers i).sent m)).setRouter j ((s.routers j).handled j job))
  | router {i : Fin n} {es : List (Event n)} {r : Router n} (h : LocalStep C s i es r) :
      Trans C s es (s.setRouter i r)
  | reply {i : Fin n} {job : Job n} (hpc : (s.routers i).pc = .reply job)
      (hroom : s.completedQueue.length < C.bufferSize) :
      Trans C s [.reply i job (s.routers i).buffer.curr.epoch]
        { s.setRouter i ((s.routers i).goto .check) with
          completedQueue := s.completedQueue ++ [job] }
  | replyMeet {i : Fin n} {job : Job n} {round : Round} {k : Nat}
      (hpc : (s.routers i).pc = .reply job) (hbuf : C.bufferSize = 0)
      (hmain : s.main.pc = .collect round k) (hk : k < n) :
      Trans C s [.reply i job (s.routers i).buffer.curr.epoch, .collect job]
        ((s.setRouter i ((s.routers i).goto .check)).setMain
          (s.main.collected round k job fun p => (s.load p).src))
  | probe {round : Round} {k : Fin n} (hmain : s.main.pc = .probe round k.val)
      (hroom : (s.queues k).length < C.bufferSize) :
      Trans C s [.probe k]
        ((s.setQueue k (s.queues k ++ [none])).setMain (s.main.goto (.probe round (k.val + 1))))
  | probeMeet {round : Round} {k : Fin n} (hmain : s.main.pc = .probe round k.val)
      (hbuf : C.bufferSize = 0) (hpc : (s.routers k).pc = .select) :
      Trans C s [.probe k, .take k none]
        ((s.setRouter k ((s.routers k).handled k none)).setMain
          (s.main.goto (.probe round (k.val + 1))))
  | collect {round : Round} {k : Nat} {job : Job n} {rest : List (Job n)}
      (hmain : s.main.pc = .collect round k) (hk : k < n) (hq : s.completedQueue = job :: rest) :
      Trans C s [.collect job]
        { s.setMain (s.main.collected round k job fun p => (s.load p).src) with
          completedQueue := rest }
  | main {es : List (Event n)} {m : Main n} {closed : Bool} (h : MainStep C s es m closed) :
      Trans C s es { s.setMain m with doneClosed := closed }
  | abort {f : Fault} (h : Faulty C s f) : Trans C s [] (s.abort f)

/-! ## each part of step is a transition -/

section Inversion

variable {C : Config n} {s s' : State n} {es : List (Event n)}

theorem trans_of_stepHandle {i : Fin n} (h : stepHandle s i = some (es, s')) :
    Trans C s es s' := by
  unfold stepHandle at h
  split at h
  · next job rest hpc hq =>
    cases h
    exact .handle hpc hq
  · contradiction

theorem trans_of_stepSchedule {i : Fin n} {m : Nat} (h : stepSchedule C s i m = some (es, s')) :
    Trans C s es s' := by
  simp only [stepSchedule] at h
  split at h
  case isFalse => contradiction
  case isTrue hsel =>
    split at h
    · next j job he =>
      split at h
      · next hroom =>
        cases h
        exact .schedule hsel.1 hsel.2 he hroom
      · split at h
        · next hmeet =>
          cases h
          exact .meet hsel.1 hsel.2 he hmeet.1 hmeet.2.1 hmeet.2.2
        · contradiction
    · contradiction

theorem trans_of_stepClosed {i : Fin n} (h : stepClosed s i = some (es, s')) :
    Trans C s es s' := by
  unfold stepClosed at h
  split at h
  case isFalse => contradiction
  case isTrue hcl =>
    split at h
    · next hdiv => cases h; exact .router (.left hcl.1 hcl.2 hdiv)
    · next hdiv => cases h; exact .abort (.driverged hcl.1 hcl.2 (by simpa using hdiv))

theorem trans_of_stepContinue {i : Fin n} (h : stepContinue C s i = some (es, s')) :
    Trans C s es s' := by
  simp only [stepContinue] at h
  split at h
  · next p hpc =>
    split at h
    · next hlink => cases h; exact .abort (.neighborDist hpc hlink)
    · next hlink => cases h; exact .router (.received hpc hlink)
  · next p neighborDist k hpc =>
    split at h
    · next hk => cases h; exact .router (.relaxed (k := ⟨k, hk⟩) hpc)
    · next hk => cases h; exact .router (.relaxDone hpc (by omega))
  · next hpc =>
    split at h
    · next hreset => cases h; exact .router (.rotated hpc hreset)
    · next hreset => cases h; exact .router (.skipped hpc hreset)
  · next k hpc =>
    split at h
    · next hk => cases h; exact .router (.copied (k := ⟨k, hk⟩) hpc)
    · next hk => cases h; exact .router (.reset hpc (by omega))
  · contradiction

theorem trans_of_stepReply {i : Fin n} (h : stepReply C s i = some (es, s')) :
    Trans C s es s' := by
  simp only [stepReply] at h
  split at h
  · next job hpc =>
    split at h
    · next hroom => cases h; exact .reply hpc hroom
    · split at h
      · next round k hmain =>
        split at h
        · next hmeet => cases h; exact .replyMeet hpc hmeet.1 hmain hmeet.2
        · contradiction
      · contradiction
  · contradiction

theorem trans_of_stepProbe {round : Round} {k : Fin n} (hmain : s.main.pc = .probe round k.val)
    (h : stepProbe C s round k = some (es, s')) : Trans C s es s' := by
  simp only [stepProbe] at h
  split at h
  · next hroom => cases h; exact .probe hmain hroom
  · split at h
    · next hmeet => cases h; exact .probeMeet hmain hmeet.1 hmeet.2
    · contradiction

theorem trans_of_stepMain (h : stepMain C s = some (es, s')) : Trans C s es s' := by
  unfold stepMain at h
  split at h
  · next hpc => cases h; exact .main (.call hpc)
  · next round k hpc =>
    split at h
    · next hk => exact trans_of_stepProbe (k := ⟨k, hk⟩) hpc h
    · next hk => cases h; exact .main (.probeDone hpc (by omega))
  · next round k hpc =>
    split at h
    · next hk =>
      split at h
      · next job rest hq => cases h; exact .collect hpc hk hq
      · contradiction
    · next hk =>
      split at h
      · next hvalid =>
        cases round with
        | first => cases h; exact .main (.firstValid hpc (by omega) hvalid)
        | second => cases h; exact .main (.secondValid hpc (by omega) hvalid)
      · next hvalid =>
        cases h; exact .main (.invalid hpc (by omega) (by simpa using hvalid))
  · next k new hpc =>
    split at h
    · next old hold => cases h; exact .main (.compared hpc hold)
    · next hold => cases h; exact .abort (.unwrittenCompare hpc hold)
  · next src dst hpc =>
    split at h
    · next hs =>
      split at h
      · next hd =>
        have hpc' : s.main.pc = .results (⟨src, hs⟩ : Fin n).val (⟨dst, hd⟩ : Fin n).val := hpc
        split at h
        · next p hcompleted =>
          split at h
          · next hdist => cases h; exact .main (.resultOk hpc' hcompleted hdist)
          · next hdist => cases h; exact .abort (.result hpc' hcompleted hdist)
        · next hcompleted => cases h; exact .abort (.unwrittenResult hpc' hcompleted)
      · next hd =>
        have hpc' : s.main.pc = .results (⟨src, hs⟩ : Fin n).val dst := hpc
        cases h
        exact .main (.resultRow hpc' (by omega))
    · next hs => cases h; exact .main (.resultsDone hpc (by omega))
  · next hpc => cases h; exact .main (.close hpc)
  · next i hpc =>
    split at h
    · next hi =>
      split at h
      · next hexit => cases h; exact .main (.joinOne (i := ⟨i, hi⟩) hpc hexit)
      · contradiction
    · next hi => cases h; exact .main (.joinDone hpc (by omega))
  · contradiction

/-- Every step is one of the transitions. -/
theorem trans_of_step {a : Action n} (h : step C s a = some (es, s')) :
    s.fault = none ∧ Trans C s es s' := by
  unfold step at h
  split at h
  case isTrue => contradiction
  case isFalse hf =>
    refine ⟨by simpa using hf, ?_⟩
    cases a with
    | handle i => exact trans_of_stepHandle h
    | schedule i m => exact trans_of_stepSchedule h
    | closed i => exact trans_of_stepClosed h
    | «continue» i => exact trans_of_stepContinue h
    | reply i => exact trans_of_stepReply h
    | main => exact trans_of_stepMain h

end Inversion

/-- The induction rule for runs of the stress test, in terms of transitions. -/
theorem run_invariant {C : Config n} {P : List (Event n) → State n → Prop}
    (hinit : P [] (State.init C))
    (hstep : ∀ {log s es s'}, (stress C).Run log s → P log s → Trans C s es s' →
      P (log ++ es) s')
    {log : List (Event n)} {s : State n} (h : (stress C).Run log s) : P log s :=
  h.invariant hinit fun hr hp hs => hstep hr hp (trans_of_step hs).2

end ConcurrencyLab
