import ConcurrencyLab.Pipeline
import ConcurrencyLab.Sound

/-!
# ConcurrencyLab.Quiescence

What the routers compute when they have nothing left to say.

The table of a router is the vector it is improving.  For each neighbour `i` of
`j` the current vector of `i` is either still on its way to `j`, or `j` is
reading it, or the table of `j` already respects it (`Fresh`).  Nothing but the
order of the pipeline is needed for that: vectors are read entry by entry, but
once nothing newer is on its way the vector being read is the current one.

When everything has been delivered and nobody diverges (`State.Quiescent`), all
tables respect all neighbours, which bounds them from below by the totals of all
walks; with `ConcurrencyLab.Sound` they are exact (`quiescent_dist_eq`).
-/

namespace ConcurrencyLab

variable {n : Nat}

/-! ## tables -/

/-- The distances a router has worked out: `next_state`, or `curr_state` while
lines 210-212 copy it. -/
def Router.table (r : Router n) : Fin n → Nat :=
  if r.pc.isCopy then r.buffer.curr.dist else r.buffer.next.dist

namespace Router

variable {T : Topology n} {load : StatePtr n → DistanceVector n} {i : Fin n} {r r' : Router n}

theorem table_of_copy (h : r.pc.isCopy = true) : r.table = r.buffer.curr.dist := if_pos h

theorem table_of_not_copy (h : r.pc.isCopy = false) : r.table = r.buffer.next.dist := by
  simp [table, h]

/-- An iteration of lines 180-186 brings its entry down to the sum. -/
theorem relaxed_next_le (r : Router n) (p : StatePtr n) (nd : Nat) (k : Fin n) (d : Nat) :
    (r.relaxed p nd k d).buffer.next.dist k ≤ add32 nd d ∧
      ∀ a, (r.relaxed p nd k d).buffer.next.dist a ≤ r.buffer.next.dist a := by
  unfold relaxed
  split
  · next hlt =>
    simp only [TripleBuffer.next_writeNext, Function.update_self]
    refine ⟨Nat.le_refl _, fun a => ?_⟩
    by_cases ha : a = k
    · subst ha; rw [Function.update_self]; exact Nat.le_of_lt hlt
    · rw [Function.update_of_ne ha]
  · next hle => exact ⟨Nat.le_of_not_lt hle, fun a => Nat.le_refl _⟩

/-- A table is never raised. -/
theorem Inv.table_le (h : r.Inv T i) (hs : Step T load i r r') (k : Fin n) :
    r'.table k ≤ r.table k := by
  cases hs with
  | handled job hpc =>
      have hcopy : (r.handled i job).pc.isCopy = false := by cases job <;> rfl
      rw [table_of_not_copy hcopy, table_of_not_copy (by rw [hpc]; rfl)]
      exact Nat.le_refl _
  | @relaxed p nd a hpc =>
      have hcopy : (r.relaxed p nd a ((load p).dist a)).pc.isCopy = false := by
        unfold Router.relaxed; split <;> rfl
      rw [table_of_not_copy hcopy, table_of_not_copy (by rw [hpc]; rfl)]
      exact (r.relaxed_next_le p nd a _).2 k
  | rotated hpc hreset =>
      rw [table_of_copy (r := r.rotated) rfl, table_of_not_copy (by rw [hpc]; rfl)]
      simp only [Router.rotated, h.buffer.curr_cycle]
      exact Nat.le_refl _
  | @copied a hpc =>
      rw [table_of_copy (r := r.copied a) rfl, table_of_copy (by rw [hpc]; rfl)]
      simp only [Router.copied, h.buffer.curr_writeNext]
      exact Nat.le_refl _
  | reset hpc hk =>
      rw [table_of_not_copy (r := r.reset i) rfl, table_of_copy (by rw [hpc]; rfl)]
      exact Nat.le_of_eq (h.next_eq_of_copy hpc hk k)
  | sent hpc | received hpc | skipped hpc | left hpc | replied hpc | relaxDone hpc =>
      rw [table_of_not_copy (r := r) (by rw [hpc]; rfl)]
      exact Nat.le_refl _

/-- A router that is not diverging has nothing to announce. -/
theorem Inv.table_eq_curr (h : r.Inv T i) (hd : r.driverged = false) (k : Fin n) :
    r.table k = r.buffer.curr.dist k := by
  have hcopy : r.pc.isCopy = false := by
    cases hpc : r.pc with
    | copy m =>
        have hdiv := (h.copy m hpc).1
        rw [hd] at hdiv
        contradiction
    | _ => rfl
  have hiff := h.driverged_iff hcopy
  rw [hd] at hiff
  rw [table_of_not_copy hcopy]
  simpa using fun hne => hiff.mpr ⟨k, hne⟩

/-- After line 177 comes the loop of lines 180-186. -/
theorem Step.of_received (h : Step T load i r r') {p : StatePtr n} (hpc : r.pc = .received p) :
    r' = r.goto (.relax p (T.link i (load p).src) 0) := by
  cases h with
  | received hpc' =>
      rw [hpc] at hpc'
      cases hpc'
      rfl
  | handled _ hpc' | sent hpc' | replied hpc' | relaxed hpc' | relaxDone hpc' | rotated hpc'
  | skipped hpc' | copied hpc' | reset hpc' | left hpc' =>
      rw [hpc] at hpc'; cases hpc'

/-- The loop of lines 180-186 makes one more iteration, or is over. -/
theorem Step.of_relax (h : Step T load i r r') {p : StatePtr n} {nd m : Nat}
    (hpc : r.pc = .relax p nd m) :
    (∃ k : Fin n, m = k.val ∧ r' = r.relaxed p nd k ((load p).dist k)) ∨
      (n ≤ m ∧ r' = r.goto .check) := by
  cases h with
  | @relaxed p' nd' k hpc' =>
      rw [hpc] at hpc'
      cases hpc'
      exact .inl ⟨k, rfl, rfl⟩
  | relaxDone hpc' hk =>
      rw [hpc] at hpc'
      cases hpc'
      exact .inr ⟨hk, rfl⟩
  | handled _ hpc' | sent hpc' | replied hpc' | received hpc' | rotated hpc'
  | skipped hpc' | copied hpc' | reset hpc' | left hpc' =>
      rw [hpc] at hpc'; cases hpc'

end Router

/-! ## the newest vector of a neighbour -/

section Steps

variable {C : Config n} {s s' : State n} {es : List (Event n)}

/-- The table of `j` respects the current vector of `i` as far as `m`. -/
def RespectsBelow (C : Config n) (s : State n) (i j : Fin n) (m : Nat) : Prop :=
  ∀ k : Fin n, k.val < m →
    (s.routers j).table k ≤ C.topology.link j i + (s.routers i).buffer.curr.dist k

/-- The current vector of `i` is before `j`, or `j` is done with it. -/
inductive Delivered (C : Config n) (s : State n) (i j : Fin n) : Prop
  | received {slot : Fin 3} (hpc : (s.routers j).pc = .received ⟨i, slot⟩)
  | reading {slot : Fin 3} {nd m : Nat} (hpc : (s.routers j).pc = .relax ⟨i, slot⟩ nd m)
      (hdone : RespectsBelow C s i j m)
  | done (hdone : RespectsBelow C s i j n)

/-- The current vector of `i` is on its way to `j`. -/
def InTransit (s : State n) (i j : Fin n) : Prop := (s.routers i).Unsent j ∨ s.Queued i j

/-- The table of `j` respects the current vector of its neighbour `i`, or will
when `j` has read it. -/
def Fresh (C : Config n) (s : State n) (i j : Fin n) : Prop :=
  InTransit s i j ∨ Delivered C s i j

/-- A vector on its way stays there until `j` takes it. -/
theorem inTransit_step (hinv : ∀ i, (s.routers i).Inv C.topology i) (hs : VectorStep C s es s')
    {i j : Fin n} (hij : C.topology.IsNeighbor i j) (h : InTransit s i j) :
    InTransit s' i j ∨ ∃ slot, (s'.routers j).pc = .received ⟨i, slot⟩ := by
  cases hs with
  | quiet hr hq hes =>
      refine .inl (h.imp ((hr i).unsent hij).mpr ?_)
      exact fun ⟨slot, hmem⟩ => ⟨slot, (hq j _).mpr hmem⟩
  | @take a p s' hpc hq hr' hq' =>
      by_cases hqueued : s.Queued i j ∧ j = a
      · obtain ⟨⟨slot, hmem⟩, rfl⟩ := hqueued
        rw [hq, List.mem_singleton] at hmem
        cases hmem
        exact .inr ⟨slot, by simp [hr', Router.handled]⟩
      · refine .inl (h.imp (fun hu => ?_) fun hmem => ?_)
        · have hlag := unsentLag_take hr' (hinv a) hpc i j
          rw [Router.unsentLag_eq_one hu] at hlag
          by_contra hn
          rw [Router.unsentLag_eq_zero hn] at hlag
          contradiction
        · have hja : j ≠ a := fun hja => hqueued ⟨hmem, hja⟩
          simpa [State.Queued, hq', hja] using hmem
  | @accept a b m s' hpc hab hm he hq hr' hq' =>
      by_cases hc : i = a ∧ j = b
      · obtain ⟨rfl, rfl⟩ := hc
        exact .inl (.inr ⟨(s.routers i).buffer.currState, by simp [hq']⟩)
      · refine .inl (h.imp (fun hu => ?_) fun hmem => ?_)
        · rw [hr']
          split
          · next hia =>
            subst hia
            exact ((hinv i).unsent_sent hpc hm he j).mpr ⟨hu, fun hjb => hc ⟨rfl, hjb⟩⟩
          · exact hu
        · have hjb : j ≠ b := by
            rintro rfl
            exact State.not_queued_of_nil hq hmem
          simpa [State.Queued, hq', hjb] using hmem
  | @meet a b m s' hpc hab hm he hq hpcb hr' hq' =>
      by_cases hc : i = a ∧ j = b
      · obtain ⟨rfl, rfl⟩ := hc
        exact .inr ⟨(s.routers i).buffer.currState, by simp [hr', Router.handled]⟩
      · refine .inl (h.imp (fun hu => ?_) fun hmem => ?_)
        · have hlag := unsentLag_meet hr' hinv hpc hm he hpcb (i := i) (j := j)
            fun hia hjb => hc ⟨hia, hjb⟩
          rw [Router.unsentLag_eq_one hu] at hlag
          by_contra hn
          rw [Router.unsentLag_eq_zero hn] at hlag
          contradiction
        · simpa [State.Queued, hq'] using hmem
  | @rotate a s' hpc hreset hr' hq' =>
      refine .inl (h.imp (fun hu => ?_) fun hmem => ?_)
      · rw [hr']
        split
        · exact .inl rfl
        · exact hu
      · simpa [State.Queued, hq'] using hmem

/-- What `j` has taken and nothing newer follows is read to the end. -/
theorem Delivered.step {i j : Fin n} (h : Delivered C s i j)
    (hinv : ∀ i, (s.routers i).Inv C.topology i) (hpipe : PipeInv C s) (hsound : SoundInv C s)
    (ht : Trans C s es s') (htransit : ¬ InTransit s i j)
    (hcurr : (s'.routers i).buffer.curr = (s.routers i).buffer.curr) : Delivered C s' i j := by
  have hkeep : ∀ {m}, (∀ k, (s'.routers j).table k ≤ (s.routers j).table k) →
      RespectsBelow C s i j m → RespectsBelow C s' i j m := by
    intro m hle hdone k hk
    rw [hcurr]
    exact Nat.le_trans (hle k) (hdone k hk)
  rcases ht.router_cases j with heq | hstep
  · have hle : ∀ k, (s'.routers j).table k ≤ (s.routers j).table k := by
      rw [heq]; exact fun k => Nat.le_refl _
    cases h with
    | received hpc => exact .received (by rw [heq]; exact hpc)
    | reading hpc hdone => exact .reading (by rw [heq]; exact hpc) (hkeep hle hdone)
    | done hdone => exact .done (hkeep hle hdone)
  · have hle := (hinv j).table_le hstep
    cases h with
    | received hpc =>
        exact .reading (by rw [hstep.of_received hpc]; rfl)
          fun k hk => absurd hk (Nat.not_lt_zero _)
    | @reading slot nd m hpc hdone =>
        rcases hstep.of_relax hpc with ⟨k, rfl, hr'⟩ | ⟨hm, hr'⟩
        · -- the vector being read is the current one, so one more entry is respected
          have hheld : (s.routers j).pc.held = some ⟨i, slot⟩ := by rw [hpc]; rfl
          have hslot := (hpipe.held hheld).2
          have hsent : ¬ (s.routers i).Unsent j := fun hu => htransit (.inl hu)
          have hqueue : ¬ s.Queued i j := fun hq => htransit (.inr hq)
          rw [Router.unsentLag_eq_zero hsent, State.queuedLag_eq_zero hqueue] at hslot
          have hload : s.load ⟨i, slot⟩ = (s.routers i).buffer.curr := by rw [hslot]; rfl
          obtain ⟨rfl, -⟩ := hsound.neighborDist hpc
          have hnew := (s.routers j).relaxed_next_le ⟨i, slot⟩ (C.topology.link j i) k
            ((s.load ⟨i, slot⟩).dist k)
          have hnext : (s'.routers j).table = (s'.routers j).buffer.next.dist := by
            refine Router.table_of_not_copy ?_
            rw [hr']; unfold Router.relaxed; split <;> rfl
          have hrespects : RespectsBelow C s' i j (k.val + 1) := by
            intro a ha
            by_cases hak : a = k
            · subst hak
              rw [hcurr, hnext, hr', ← hload]
              refine Nat.le_trans hnew.1 (Nat.le_of_eq ?_)
              exact (hsound.vectors ⟨i, slot⟩ a).add32_eq j
            · have hlt : a.val < k.val := by
                have hne : a.val ≠ k.val := fun h => hak (Fin.ext h)
                omega
              exact hkeep hle hdone a hlt
          have hpc' : (s'.routers j).pc = .relax ⟨i, slot⟩ (C.topology.link j i) (k.val + 1) := by
            rw [hr']; unfold Router.relaxed; split <;> rfl
          exact .reading hpc' hrespects
        · exact .done fun k _ => hkeep hle hdone k (by omega)
    | done hdone => exact .done (hkeep hle hdone)

theorem fresh_init (C : Config n) {i j : Fin n} (hij : C.topology.IsNeighbor i j) :
    Fresh C (State.init C) i j :=
  .inl (.inl (.inr ((SelectList.valid_init C.topology i).pending_of_total rfl hij)))

/-- **The newest vector of every neighbour is respected or will be.** -/
theorem run_fresh {log : List (Event n)} (h : (stress C).Run log s) {i j : Fin n}
    (hij : C.topology.IsNeighbor i j) : Fresh C s i j := by
  refine run_invariant (P := fun _ s => Fresh C s i j) (fresh_init C hij) ?_ h
  intro log s es s' hr hfresh ht
  have hinv := run_routerInv hr
  have hs := ht.vectorStep hinv (run_room hr)
  by_cases htransit : InTransit s i j
  · rcases inTransit_step hinv hs hij htransit with hstay | ⟨slot, htaken⟩
    · exact .inl hstay
    · exact .inr (.received htaken)
  · rcases hs.curr_cases i with hcurr | ⟨-, -, hrotated⟩
    · have hdel := hfresh.resolve_left htransit
      exact .inr (hdel.step hinv (run_pipeInv hr) (run_soundInv hr) ht htransit hcurr)
    · -- the copy loop comes before the broadcast
      exact .inl (.inl (.inl (by rw [hrotated]; rfl)))

/-! ## quiescence -/

/-- No vector is stored or being processed, every broadcast is complete and no
router diverges. -/
structure State.Quiescent (s : State n) : Prop where
  queues : ∀ i p, some p ∉ s.queues i
  held : ∀ i, (s.routers i).pc.held = none
  selectCount : ∀ i, (s.routers i).selects.selectCount = 2
  driverged : ∀ i, (s.routers i).driverged = false

/-- Settled routers in their select, with nothing stored for them, are quiescent. -/
theorem State.quiescent_of_select (h : ∀ i, s.queues i = [] ∧ (s.routers i).pc = .select ∧
    (s.routers i).selects.selectCount = 2 ∧ (s.routers i).driverged = false) : s.Quiescent where
  queues i p := by rw [(h i).1]; exact List.not_mem_nil
  held i := by rw [(h i).2.1]; rfl
  selectCount i := (h i).2.2.1
  driverged i := (h i).2.2.2

/-- A router that keeps what quiescence says of it. -/
structure Router.Idles (r r' : Router n) : Prop where
  buffer : r'.buffer = r.buffer
  selectCount : r'.selects.selectCount = r.selects.selectCount
  driverged : r'.driverged = r.driverged
  held : r'.pc.held = none

/-- One router moves and idles, the others do not move. -/
theorem State.Quiescent.idles_setRouter (hq : s.Quiescent) {i : Fin n} {r : Router n}
    (h : Router.Idles (s.routers i) r) (a : Fin n) :
    Router.Idles (s.routers a) ((s.setRouter i r).routers a) := by
  by_cases hai : a = i
  · subst hai; simpa using h
  · simpa [hai] using ⟨rfl, rfl, rfl, hq.held a⟩

theorem State.Quiescent.not_copy (hq : s.Quiescent) {i : Fin n}
    (hinv : (s.routers i).Inv C.topology i) (m : Nat) : (s.routers i).pc ≠ .copy m := by
  intro hpc
  have hdiv := (hinv.copy m hpc).1
  rw [hq.driverged i] at hdiv
  contradiction

/-- Nothing is offered to a neighbour. -/
theorem State.Quiescent.not_offered (hq : s.Quiescent) {i : Fin n}
    (hinv : (s.routers i).Inv C.topology i) {m : Nat} {j : Fin n} {job : Job n}
    (hm : m < (s.routers i).selects.selectCount) :
    (s.routers i).selects.entries[m]? ≠ some ⟨.drivers j, .schdle, job⟩ :=
  hinv.selects.not_offered_of_two (hq.selectCount i) hm

/-- Between two driver calls a router can only go back to its select, or leave. -/
theorem State.Quiescent.localStep (hq : s.Quiescent) {i : Fin n}
    (hinv : (s.routers i).Inv C.topology i) {r : Router n} (h : LocalStep C s i es r) :
    Router.Idles (s.routers i) r ∧ es = [] := by
  have hheld := hq.held i
  cases h with
  | received hpc => rw [hpc] at hheld; cases hheld
  | relaxed hpc => rw [hpc] at hheld; cases hheld
  | relaxDone hpc => rw [hpc] at hheld; cases hheld
  | rotated hpc hreset =>
      have hdiv := hreset.2
      rw [hq.driverged i] at hdiv
      contradiction
  | skipped hpc => exact ⟨⟨rfl, rfl, rfl, rfl⟩, rfl⟩
  | copied hpc => exact absurd hpc (hq.not_copy hinv _)
  | reset hpc => exact absurd hpc (hq.not_copy hinv _)
  | left hpc => exact ⟨⟨rfl, rfl, rfl, rfl⟩, rfl⟩

/-- **Quiescence is final**: no step changes a vector, starts an epoch or puts
anything in transit. -/
theorem State.Quiescent.step (hq : s.Quiescent) (hinv : ∀ i, (s.routers i).Inv C.topology i)
    (ht : Trans C s es s') : s'.Quiescent ∧
      (∀ i, (s'.routers i).buffer = (s.routers i).buffer) ∧ ∀ i v, Event.begin i v ∉ es := by
  have hparts : (∀ i, Router.Idles (s.routers i) (s'.routers i)) ∧
      (∀ i p, some p ∉ s'.queues i) ∧ ∀ i v, Event.begin i v ∉ es := by
    have hsame : ∀ i, Router.Idles (s.routers i) (s.routers i) := fun i =>
      ⟨rfl, rfl, rfl, hq.held i⟩
    cases ht with
    | @handle i job rest hpc hqueue =>
        have hjob : job = none := by
          cases job with
          | none => rfl
          | some p => exact absurd (hqueue ▸ List.mem_cons_self) (hq.queues i p)
        subst hjob
        refine ⟨hq.idles_setRouter ⟨rfl, rfl, rfl, rfl⟩, fun j p => ?_, by simp⟩
        by_cases hji : j = i
        · subst hji
          have hrest := hq.queues j p
          rw [hqueue, List.mem_cons, not_or] at hrest
          simpa using hrest.2
        · simpa [hji] using hq.queues j p
    | schedule hpc hm he => exact absurd he (hq.not_offered (hinv _) hm)
    | meet hpc hm he => exact absurd he (hq.not_offered (hinv _) hm)
    | router h =>
        obtain ⟨hidles, rfl⟩ := hq.localStep (hinv _) h
        exact ⟨hq.idles_setRouter hidles, hq.queues, by simp⟩
    | reply hpc => exact ⟨hq.idles_setRouter ⟨rfl, rfl, rfl, rfl⟩, hq.queues, by simp⟩
    | replyMeet hpc => exact ⟨hq.idles_setRouter ⟨rfl, rfl, rfl, rfl⟩, hq.queues, by simp⟩
    | @probe round k hmain hroom =>
        refine ⟨hsame, fun j p => ?_, by simp⟩
        by_cases hjk : j = k
        · subst hjk; simpa using hq.queues j p
        · simpa [hjk] using hq.queues j p
    | probeMeet hmain hbuf hpc =>
        exact ⟨hq.idles_setRouter ⟨rfl, rfl, rfl, rfl⟩, hq.queues, by simp⟩
    | collect => exact ⟨hsame, hq.queues, by simp⟩
    | main h => exact ⟨hsame, hq.queues, by cases h <;> simp⟩
    | abort => exact ⟨hsame, hq.queues, by simp⟩
  obtain ⟨hidles, hqueues, hbegin⟩ := hparts
  refine ⟨⟨hqueues, fun i => (hidles i).held, fun i => ?_, fun i => ?_⟩,
    fun i => (hidles i).buffer, hbegin⟩
  · rw [(hidles i).selectCount]; exact hq.selectCount i
  · rw [(hidles i).driverged]; exact hq.driverged i

/-- Nor does any continuation of the run. -/
theorem State.Quiescent.exec (hq : s.Quiescent) {log : List (Event n)}
    (hr : (stress C).Run log s) {as : List (Action n)}
    (he : (stress C).exec s as = some (es, s')) : s'.Quiescent ∧
      (∀ i, (s'.routers i).buffer = (s.routers i).buffer) ∧ ∀ i v, Event.begin i v ∉ es := by
  induction as generalizing log s es with
  | nil =>
      simp only [Lts.exec_nil, Option.some.injEq, Prod.mk.injEq] at he
      obtain ⟨rfl, rfl⟩ := he
      exact ⟨hq, fun _ => rfl, by simp⟩
  | cons a as ih =>
      obtain ⟨es₁, s₁, es₂, hstep, hexec, rfl⟩ := (stress C).exec_cons_eq_some.mp he
      obtain ⟨hq₁, hbuf₁, hnone₁⟩ := hq.step (run_routerInv hr) (trans_of_step hstep).2
      obtain ⟨hq₂, hbuf₂, hnone₂⟩ := ih hq₁ (hr.step hstep) hexec
      refine ⟨hq₂, fun i => (hbuf₂ i).trans (hbuf₁ i), fun i v hmem => ?_⟩
      exact (List.mem_append.mp hmem).elim (hnone₁ i v) (hnone₂ i v)

/-- At quiescence every table respects every neighbour. -/
theorem State.Quiescent.triangle (hq : s.Quiescent) {log : List (Event n)}
    (hr : (stress C).Run log s) {i j : Fin n} (hij : C.topology.IsNeighbor i j) (k : Fin n) :
    (s.routers j).buffer.curr.dist k ≤
      C.topology.link j i + (s.routers i).buffer.curr.dist k := by
  have hinv := run_routerInv hr
  have hheld : ∀ p, (s.routers j).pc.held ≠ some p := by
    intro p; rw [hq.held j]; simp
  rcases run_fresh hr hij with (hunsent | hqueued) | hdel
  · rcases hunsent with hc | hpend
    · cases hpc : (s.routers i).pc <;> simp [hpc, RouterPc.isCopy] at hc
      exact absurd hpc (hq.not_copy (hinv i) _)
    · exact absurd hpend ((hinv i).selects.not_pending_of_two (hq.selectCount i) j)
  · obtain ⟨slot, hmem⟩ := hqueued
    exact absurd hmem (hq.queues j _)
  · cases hdel with
    | received hpc => exact absurd (by rw [hpc]; rfl) (hheld _)
    | reading hpc => exact absurd (by rw [hpc]; rfl) (hheld _)
    | done hdone =>
        rw [← (hinv j).table_eq_curr (hq.driverged j) k]
        exact hdone k k.isLt

/-- At quiescence every table holds the least totals of the walks. -/
theorem State.Quiescent.dist_eq_least (hq : s.Quiescent) {log : List (Event n)}
    (hT : C.topology.TwoWay) (h : (stress C).Run log s) (i k : Fin n) :
    (s.routers i).buffer.curr.dist k = C.topology.graph.least infDistance i k := by
  have hsound : ∀ i k, C.topology.Sound i k ((s.routers i).buffer.curr.dist k) := fun i k =>
    (run_soundInv h).vectors ⟨i, (s.routers i).buffer.currState⟩ k
  have htri : ∀ a m b, C.topology.graph.edge a m → (s.routers a).buffer.curr.dist b ≤
      C.topology.graph.cost a m + (s.routers m).buffer.curr.dist b := by
    intro a m b hedge
    by_cases ham : a = m
    · subst ham; exact Nat.le_add_left _ _
    · exact hq.triangle h ⟨ham, (hT a m).mp hedge⟩ b
  refine C.topology.graph.eq_least (hsound i k).attained (hsound i k).le_inf fun ms hw => ?_
  exact C.topology.graph.le_total_of_triangle (fun a b _ => (hsound a b).le_link) htri hw

end Steps

/-- **Distance-vector routing agrees with `floyd_warshall` at quiescence.**  The
run is any interleaving of the routers with each other and with the main
thread. -/
theorem quiescent_dist_eq {C : Config n} {log : List (Event n)} {s : State n}
    (hT : C.topology.TwoWay) (h : (stress C).Run log s) (hq : s.Quiescent) (i k : Fin n) :
    (s.routers i).buffer.curr.dist k = C.topology.floydWarshall i k := by
  rw [C.topology.floydWarshall_eq_least]
  exact hq.dist_eq_least hT h i k

/-- Two routers run to quiescence, the first one through two epochs. -/
theorem quiescent_dist_eq_twoRouters : ∃ log s, (stress twoRouters).Run log s ∧ s.Quiescent ∧
    ∀ i k, (s.routers i).buffer.curr.dist k = twoRouters.topology.floydWarshall i k := by
  obtain ⟨log, s, hr, hp⟩ := Lts.Run.exists_of_exec (stress twoRouters) (unroll twoRoutersSettle)
    (fun q => decide (∀ i, q.2.queues i = [] ∧ (q.2.routers i).pc = .select ∧
      (q.2.routers i).selects.selectCount = 2 ∧ (q.2.routers i).driverged = false))
    (by decide +kernel)
  have hq := State.quiescent_of_select (of_decide_eq_true hp)
  exact ⟨log, s, hr, hq, quiescent_dist_eq (by decide) hr hq⟩

end ConcurrencyLab
