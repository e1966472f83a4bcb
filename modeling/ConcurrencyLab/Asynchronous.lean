import ConcurrencyLab.Quiescence
import ConcurrencyLab.Relaxation

/-!
# ConcurrencyLab.Asynchronous

What the routers do together, seen from their tables: asynchronous relaxation.

The abstract system of `ConcurrencyLab.Relaxation` has no drivers, no epochs and no
buffers.  A router's entry there is `Router.table`, which is the smaller one of
`curr_state` and `next_state` at any time (`table_eq_best`).  A step of the program is
one improvement when line 183 writes, and none otherwise (`Refines.step`).  The vectors
that a neighbour reads may be old, or about to be overwritten: whatever it finds has
been an entry of the owner (`Refines.past`).
-/

namespace ConcurrencyLab

variable {n : Nat}

/-! ## the best distances of a router -/

namespace TripleBuffer

variable {b : TripleBuffer n} {index : Fin n}

/-- The better of the two distances that a router has at hand. -/
def best (b : TripleBuffer n) (k : Fin n) : Nat := min (b.curr.dist k) (b.next.dist k)

theorem best_eq_next (hle : ∀ k, b.next.dist k ≤ b.curr.dist k) (k : Fin n) :
    b.best k = b.next.dist k := Nat.min_eq_right (hle k)

/-- Cycling the buffer changes the roles, not the table. -/
theorem best_cycle (h : b.Valid index) (hle : ∀ k, b.next.dist k ≤ b.curr.dist k) (k : Fin n) :
    b.cycle.best k = b.best k := by
  have hprev := h.curr_le_prev k
  have hnext := hle k
  rw [best_eq_next hle, best, h.curr_cycle, next_cycle]
  exact Nat.min_eq_left (Nat.le_trans hnext hprev)

theorem best_writeNext (h : b.Valid index) (k : Fin n) (d : Nat) (a : Fin n) :
    (b.writeNext k d).best a = min (b.curr.dist a) (if a = k then d else b.next.dist a) := by
  simp only [best, h.curr_writeNext, next_writeNext, Function.update_apply]

/-- Nor does the copy. -/
theorem best_copied (h : b.Valid index) {k : Fin n} (hle : b.curr.dist k ≤ b.next.dist k)
    (a : Fin n) : (b.writeNext k (b.curr.dist k)).best a = b.best a := by
  rw [best_writeNext h, best]
  split
  · next hak =>
      subst hak
      rw [Nat.min_self, Nat.min_eq_left hle]
  · rfl

/-- An improved entry is the new one, the others stay. -/
theorem best_improved (h : b.Valid index) (hle : ∀ k, b.next.dist k ≤ b.curr.dist k) {k : Fin n}
    {d : Nat} (hlt : d < b.next.dist k) (a : Fin n) :
    (b.writeNext k d).best a = if a = k then d else b.best a := by
  rw [best_writeNext h]
  split
  · next hak =>
      subst hak
      exact Nat.min_eq_right (Nat.le_trans (Nat.le_of_lt hlt) (hle a))
  · rfl

end TripleBuffer

theorem Router.Inv.table_eq_best {T : Topology n} {i : Fin n} {r : Router n} (h : r.Inv T i)
    (k : Fin n) : r.table k = r.buffer.best k := by
  cases hpc : r.pc with
  | copy m =>
      rw [Router.table_of_copy (by rw [hpc]; rfl), TripleBuffer.best,
        Nat.min_eq_left ((h.copy m hpc).2.2.2 k)]
  | select | received | relax | reply | check | exited =>
      have hcopy : r.pc.isCopy = false := by rw [hpc]; rfl
      rw [Router.table_of_not_copy hcopy, TripleBuffer.best_eq_next (h.next_le hcopy)]

/-! ## the refinement -/

/-- The abstract state `t` shows the tables of `s`, and knows every entry of every
vector, whichever of the three it is in. -/
structure Refines (s : State n) (t : Tables (Fin n)) : Prop where
  now : ∀ i k, t.now i k = (s.routers i).buffer.best k
  past : ∀ p k, (s.load p).dist k ∈ t.past p.owner k

section Steps

variable {C : Config n} {log : List (Event n)} {s s' : State n} {es : List (Event n)}
  {t : Tables (Fin n)}

theorem refines_init (C : Config n) : Refines (State.init C) (.start C.topology.link) where
  now _ _ := (Nat.min_self _).symm
  past _ _ := rfl

theorem Refines.of_buffer_eq (h : Refines s t)
    (hbuffer : ∀ i, (s'.routers i).buffer = (s.routers i).buffer) : Refines s' t where
  now i k := by rw [h.now, hbuffer]
  past p k := by
    have hpast := h.past p k
    rwa [State.load, ← hbuffer] at hpast

theorem State.load_setRouter (s : State n) (i : Fin n) (r : Router n) (p : StatePtr n) :
    (s.setRouter i r).load p = if p.owner = i then r.buffer.states p.slot else s.load p := by
  rw [State.load, State.routers_setRouter]
  split <;> rfl

/-- A move of one router that leaves its table alone, and only moves entries of its
vectors about. -/
theorem Refines.of_quiet (h : Refines s t) {i : Fin n} {r : Router n}
    (htable : ∀ k, r.buffer.best k = (s.routers i).buffer.best k)
    (hentry : ∀ slot k, ∃ slot', (r.buffer.states slot).dist k =
      ((s.routers i).buffer.states slot').dist k) : Refines (s.setRouter i r) t where
  now j k := by
    rw [h.now, State.routers_setRouter]
    split
    · next hji => rw [htable, hji]
    · rfl
  past p k := by
    rw [State.load_setRouter]
    split
    · next hpi =>
        subst hpi
        obtain ⟨slot, heq⟩ := hentry p.slot k
        rw [heq]
        exact h.past ⟨p.owner, slot⟩ k
    · exact h.past p k

/-- The write of line 183. -/
theorem Refines.improved (h : Refines s t) {i : Fin n} (hinv : (s.routers i).Inv C.topology i)
    (hle : ∀ k, (s.routers i).buffer.next.dist k ≤ (s.routers i).buffer.curr.dist k) {k : Fin n}
    {d : Nat} (hlt : d < (s.routers i).buffer.next.dist k) {r : Router n}
    (hbuffer : r.buffer = (s.routers i).buffer.writeNext k d) :
    Refines (s.setRouter i r) (t.store i k d) where
  now j a := by
    rw [State.routers_setRouter]
    by_cases hcell : j = i ∧ a = k
    · obtain ⟨rfl, rfl⟩ := hcell
      rw [Tables.store_now_self, if_pos rfl, hbuffer,
        TripleBuffer.best_improved hinv.buffer hle hlt, if_pos rfl]
    · rw [Tables.store_now_of_ne hcell, h.now]
      split
      · next hji =>
          rw [hbuffer, TripleBuffer.best_improved hinv.buffer hle hlt,
            if_neg fun hak => hcell ⟨hji, hak⟩, hji]
      · rfl
  past q a := by
    rw [Tables.mem_past_store, State.load_setRouter, hbuffer]
    split
    · next hqi =>
        subst hqi
        rw [TripleBuffer.dist_writeNext]
        split
        · next hcell => exact .inl ⟨rfl, hcell.2, rfl⟩
        · exact .inr (h.past q a)
    · exact .inr (h.past q a)

/-- Only the code between two driver calls touches vectors. -/
theorem Trans.buffer_cases (ht : Trans C s es s') :
    (∀ i, (s'.routers i).buffer = (s.routers i).buffer) ∨
      ∃ i r, LocalStep C s i es r ∧ s' = s.setRouter i r := by
  have hupdate : ∀ (s : State n) (i : Fin n) (r : Router n), r.buffer = (s.routers i).buffer →
      ∀ j, ((s.setRouter i r).routers j).buffer = (s.routers j).buffer := by
    intro s i r hr j
    rw [State.routers_setRouter]
    split
    · next hji => rw [hji, hr]
    · rfl
  cases ht with
  | router h => exact .inr ⟨_, _, h, rfl⟩
  | handle | schedule | reply | replyMeet | probeMeet => exact .inl (hupdate _ _ _ rfl)
  | @meet a j m job hpc hm he hbuf hne hpcj =>
      exact .inl fun i =>
        (hupdate _ j _ (by simp [hne, Router.handled]) i).trans
          (hupdate s a ((s.routers a).sent m) rfl i)
  | probe | collect | main | abort => exact .inl fun _ => rfl

/-- **One step of the program is one improvement or none.** -/
theorem Refines.step (h : Refines s t) (hr : (stress C).Run log s) (ht : Trans C s es s') :
    Refines s' t ∨ ∃ a, C.topology.graph.Improves t a ∧
      Refines s' (t.store a.vertex a.dest (C.topology.graph.cost a.vertex a.via + a.value)) := by
  rcases ht.buffer_cases with hbuffer | ⟨i, r, hl, rfl⟩
  · exact .inl (h.of_buffer_eq hbuffer)
  have hinv := run_routerInv hr i
  have hsame : r.buffer = (s.routers i).buffer → Refines (s.setRouter i r) t := fun hbuffer =>
    h.of_quiet (fun k => by rw [hbuffer]) fun slot k => ⟨slot, by rw [hbuffer]⟩
  cases hl with
  | received | relaxDone | skipped | reset | left => exact .inl (hsame rfl)
  | rotated hpc hreset =>
      refine .inl (h.of_quiet (TripleBuffer.best_cycle hinv.buffer (hinv.next_le ?_))
        fun slot k => ⟨slot, congrFun (TripleBuffer.dist_cycle _ _) k⟩)
      rw [hpc]
      rfl
  | @copied k hpc =>
      refine .inl (h.of_quiet
        (TripleBuffer.best_copied hinv.buffer ((hinv.copy _ hpc).2.2.2 k)) fun slot a => ?_)
      rw [Router.copied, TripleBuffer.dist_writeNext]
      split
      · next hcell => exact ⟨(s.routers i).buffer.currState, by rw [hcell.2]; rfl⟩
      · exact ⟨slot, rfl⟩
  | @relaxed p nd k hpc =>
      obtain ⟨rfl, hlink⟩ := (run_soundInv hr).neighborDist hpc
      have hsum := ((run_soundInv hr).vectors p k).add32_eq i
      have hle := hinv.next_le (by rw [hpc]; rfl)
      by_cases hlt : C.topology.link i p.owner + (s.load p).dist k <
          (s.routers i).buffer.next.dist k
      · refine .inr ⟨⟨i, p.owner, k, (s.load p).dist k⟩, ⟨hlink, h.past p k, ?_⟩,
          h.improved hinv hle hlt ?_⟩
        · show _ < t.now i k
          rw [h.now, TripleBuffer.best_eq_next hle]
          exact hlt
        · rw [Router.relaxed, hsum, if_pos hlt]
      · refine .inl (hsame ?_)
        rw [Router.relaxed, hsum, if_neg hlt]
        rfl

/-- Every run shows the tables of a run of the abstract system. -/
theorem run_refines (h : (stress C).Run log s) : ∃ improvements t,
    (C.topology.graph.relaxation C.topology.link).Run improvements t ∧ Refines s t := by
  refine h.simulate_exec (refines_init C) fun {log s a es s' t} hr hs href => ?_
  rcases href.step hr (trans_of_step hs).2 with hquiet | ⟨a, ha, himproved⟩
  · exact ⟨[], [], t, rfl, hquiet⟩
  · exact ⟨_, _, _, Weighted.relaxation_exec ha, himproved⟩

end Steps

/-- **The program refines asynchronous relaxation.**  In every run, under any schedule, the
best distances that the routers have found are those of a run of the abstract system
on the graph of the links, and every entry of every vector, whoever reads it when, is
or has been such a distance.  So in the whole run no more than
`∑ i, ∑ k, (link i k - floydWarshall i k)` distances are ever improved; and when the
routers are quiescent nothing is left to improve. -/
theorem routing_refines_relaxation {C : Config n} {log : List (Event n)} {s : State n}
    (h : (stress C).Run log s) : ∃ improvements t,
      (C.topology.graph.relaxation C.topology.link).Run improvements t ∧
      (∀ i k, t.now i k = (s.routers i).table k) ∧
      (∀ p k, (s.load p).dist k ∈ t.past p.owner k) ∧
      improvements.length ≤ ∑ i, ∑ k, (C.topology.link i k - C.topology.floydWarshall i k) ∧
      (C.topology.TwoWay → s.Quiescent →
        ¬ (C.topology.graph.relaxation C.topology.link).Enabled t) := by
  obtain ⟨improvements, t, ht, href⟩ := run_refines h
  have hsound := Weighted.relaxation_sound C.topology.attained_link C.topology.link_le ht
  have htable : ∀ i k, t.now i k = (s.routers i).table k := fun i k => by
    rw [href.now, (run_routerInv h i).table_eq_best]
  refine ⟨improvements, t, ht, htable, href.past, ?_, fun hT hq => ?_⟩
  · have hroom := Weighted.length_add_sum_le ht
    have hsolution : ∑ i, ∑ k, C.topology.floydWarshall i k ≤ ∑ i, ∑ k, t.now i k :=
      Finset.sum_le_sum fun i _ => Finset.sum_le_sum fun k _ => by
        rw [C.topology.floydWarshall_eq_least]
        exact C.topology.graph.least_le_of_attained (hsound.attained i k _ (hsound.now_mem i k))
    have hlink : ∑ i, ∑ k, C.topology.link i k =
        ∑ i, ∑ k, (C.topology.link i k - C.topology.floydWarshall i k) +
          ∑ i, ∑ k, C.topology.floydWarshall i k := by
      simp only [← Finset.sum_add_distrib]
      refine Finset.sum_congr rfl fun i _ => Finset.sum_congr rfl fun k _ => ?_
      have := (C.topology.sound_link i k).floydWarshall_le
      omega
    omega
  · refine (Weighted.not_enabled_iff C.topology.attained_link C.topology.link_le
      (fun i k _ => Nat.le_refl _) ht).mpr fun i k => ?_
    rw [htable, (run_routerInv h i).table_eq_curr (hq.driverged i)]
    exact hq.dist_eq_least hT h i k

/-- The two routers improve one distance, that from the first one to itself. -/
theorem routing_refines_relaxation_twoRouters : ∃ log s, (stress twoRouters).Run log s ∧
    (s.routers 0).table 0 = 8 ∧ ∃ improvements t,
      (twoRouters.topology.graph.relaxation twoRouters.topology.link).Run improvements t ∧
      t.now 0 0 = 8 ∧
      ¬ (twoRouters.topology.graph.relaxation twoRouters.topology.link).Enabled t := by
  obtain ⟨log, s, hr, hp⟩ := Lts.Run.exists_of_exec (stress twoRouters) (unroll twoRoutersSettle)
    (fun q => decide ((∀ i, q.2.queues i = [] ∧ (q.2.routers i).pc = .select ∧
      (q.2.routers i).selects.selectCount = 2 ∧ (q.2.routers i).driverged = false) ∧
      (q.2.routers 0).table 0 = 8)) (by decide +kernel)
  obtain ⟨hidle, htable⟩ := of_decide_eq_true hp
  have hq := State.quiescent_of_select hidle
  obtain ⟨improvements, t, ht, hnow, -, -, hstuck⟩ := routing_refines_relaxation hr
  exact ⟨log, s, hr, htable, improvements, t, ht, by rw [hnow, htable],
    hstuck (by decide) hq⟩

end ConcurrencyLab
