import ConcurrencyLab.Loop

/-!
# ConcurrencyLab.Sound

Every distance that a router ever stores is the total of a walk.  The argument
does not care which vector a receiver is reading, nor whether the owner is
writing it at the same time: each single entry of each vector is sound at any
time, and an entry is all that an iteration of lines 180-186 reads.

* `Topology.Sound` — what an entry may be, and `Sound.relaxed`, one link in
  front of it;
* `SoundInv` — every entry of every vector is sound, and the link in front of a
  vector being read is the one to its owner;
* `distances_sound` — the consequences for whole runs: entries only go down,
  and the addition of line 181 never wraps.
-/

namespace ConcurrencyLab

variable {n : Nat}

/-! ## sound entries -/

/-- What a vector of router `i` may hold for destination `k`. -/
structure Topology.Sound (T : Topology n) (i k : Fin n) (d : Nat) : Prop where
  attained : T.graph.Attained infDistance i k d
  le_link : d ≤ T.link i k

namespace Topology

variable {T : Topology n} {i j k : Fin n} {d e : Nat}

theorem sound_link (T : Topology n) (i k : Fin n) : T.Sound i k (T.link i k) :=
  ⟨T.attained_link i k, Nat.le_refl _⟩

theorem Sound.le_inf (h : T.Sound i k d) : d ≤ infDistance :=
  Nat.le_trans h.le_link (T.link_le i k)

/-- No entry is below the table of `floyd_warshall`. -/
theorem Sound.floydWarshall_le (h : T.Sound i k d) : T.floydWarshall i k ≤ d := by
  rw [T.floydWarshall_eq_least]
  exact T.graph.least_le_of_attained h.attained

/-- The sum of line 181 does not wrap. -/
theorem Sound.add32_eq (h : T.Sound j k d) (i : Fin n) :
    add32 (T.link i j) d = T.link i j + d :=
  ConcurrencyLab.add32_eq (T.link_le i j) h.le_inf

/-- An improvement over a link is sound. -/
theorem Sound.relaxed (he : T.link i j ≠ infDistance) (hd : T.Sound j k d) (hold : T.Sound i k e)
    (hlt : T.link i j + d < e) : T.Sound i k (T.link i j + d) where
  attained := by
    have hcap := hold.le_inf
    exact hd.attained.cons he (by rw [graph_cost]; omega)
  le_link := Nat.le_trans (Nat.le_of_lt hlt) hold.le_link

end Topology

/-! ## entries after a write -/

theorem TripleBuffer.dist_writeNext (b : TripleBuffer n) (k : Fin n) (d : Nat) (slot : Fin 3)
    (a : Fin n) : ((b.writeNext k d).states slot).dist a =
      if slot = b.nextState ∧ a = k then d else (b.states slot).dist a := by
  by_cases hs : slot = b.nextState
  · subst hs
    by_cases ha : a = k
    · subst ha; simp [writeNext]
    · simp [writeNext, ha, next]
  · simp [writeNext, hs]

theorem TripleBuffer.dist_cycle (b : TripleBuffer n) (slot : Fin 3) :
    (b.cycle.states slot).dist = (b.states slot).dist := by
  by_cases hs : slot = b.prevState
  · subst hs; simp [cycle, prev]
  · simp [cycle, hs]

/-! ## the invariant -/

section Steps

variable {C : Config n} {s s' : State n} {es : List (Event n)}

/-- Every entry of every vector is sound, and what is added to the entries of a
vector being read is the finite link to its owner. -/
structure SoundInv (C : Config n) (s : State n) : Prop where
  vectors : ∀ p k, C.topology.Sound p.owner k ((s.load p).dist k)
  neighborDist : ∀ {i p nd k}, (s.routers i).pc = .relax p nd k →
    nd = C.topology.link i p.owner ∧ C.topology.link i p.owner ≠ infDistance

theorem soundInv_init (C : Config n) : SoundInv C (State.init C) where
  vectors p k := C.topology.sound_link p.owner k
  neighborDist h := by simp [State.init, Router.init] at h

/-- One move of a router keeps its entries sound and raises none of them. -/
theorem SoundInv.entry_step (h : SoundInv C s) {i : Fin n} (hinv : (s.routers i).Inv C.topology i)
    {r : Router n} (hs : Router.Step C.topology s.load i (s.routers i) r) (slot : Fin 3)
    (a : Fin n) : C.topology.Sound i a ((r.buffer.states slot).dist a) ∧
      (r.buffer.states slot).dist a ≤ ((s.routers i).buffer.states slot).dist a := by
  have hold : C.topology.Sound i a (((s.routers i).buffer.states slot).dist a) :=
    h.vectors ⟨i, slot⟩ a
  cases hs with
  | @relaxed p nd k hpc =>
      obtain ⟨rfl, hlink⟩ := h.neighborDist hpc
      have hd := h.vectors p k
      unfold Router.relaxed
      rw [hd.add32_eq i]
      split
      · next hlt =>
        simp only [TripleBuffer.dist_writeNext]
        split
        · next hcell =>
          obtain ⟨rfl, rfl⟩ := hcell
          exact ⟨.relaxed hlink hd hold hlt, Nat.le_of_lt hlt⟩
        · exact ⟨hold, Nat.le_refl _⟩
      · exact ⟨hold, Nat.le_refl _⟩
  | rotated hpc hreset =>
      simp only [Router.rotated, TripleBuffer.dist_cycle]
      exact ⟨hold, Nat.le_refl _⟩
  | @copied k hpc =>
      simp only [Router.copied, TripleBuffer.dist_writeNext]
      split
      · next hcell =>
        obtain ⟨rfl, rfl⟩ := hcell
        exact ⟨h.vectors ⟨i, (s.routers i).buffer.currState⟩ a, (hinv.copy _ hpc).2.2.2 a⟩
      · exact ⟨hold, Nat.le_refl _⟩
  | handled | sent | replied | received | relaxDone | skipped | reset | left =>
      exact ⟨hold, Nat.le_refl _⟩

/-- The link to the owner is looked up when the reading starts. -/
theorem SoundInv.neighborDist_step (h : SoundInv C s)
    (hinv : ∀ i, (s.routers i).Inv C.topology i) {i : Fin n} {r : Router n}
    (hs : Router.Step C.topology s.load i (s.routers i) r) {p : StatePtr n} {nd k : Nat}
    (hpc' : r.pc = .relax p nd k) :
    nd = C.topology.link i p.owner ∧ C.topology.link i p.owner ≠ infDistance := by
  cases hs with
  | handled job hpc => cases job <;> simp [Router.handled] at hpc'
  | @received q hpc hlink =>
      have hsrc : (s.load q).src = q.owner := (hinv q.owner).buffer.src q.slot
      rw [hsrc] at hlink hpc'
      simp only [Router.goto, RouterPc.relax.injEq] at hpc'
      obtain ⟨rfl, rfl, -⟩ := hpc'
      exact ⟨rfl, hlink⟩
  | @relaxed q nd' k' hpc =>
      have hsame : p = q ∧ nd = nd' := by
        unfold Router.relaxed at hpc'
        split at hpc' <;> simp only [Router.goto, RouterPc.relax.injEq] at hpc' <;>
          exact ⟨hpc'.1.symm, hpc'.2.1.symm⟩
      obtain ⟨rfl, rfl⟩ := hsame
      exact h.neighborDist hpc
  | sent | replied | relaxDone | rotated | skipped | copied | reset | left =>
      simp [Router.sent, Router.goto, Router.rotated, Router.copied, Router.reset] at hpc'

theorem SoundInv.step (h : SoundInv C s) (hinv : ∀ i, (s.routers i).Inv C.topology i)
    (ht : Trans C s es s') : SoundInv C s' where
  vectors p k := by
    rcases ht.router_cases p.owner with heq | hstep
    · simpa only [State.load, heq] using h.vectors p k
    · exact (h.entry_step (hinv p.owner) hstep p.slot k).1
  neighborDist {i p nd k} hpc := by
    rcases ht.router_cases i with heq | hstep
    · rw [heq] at hpc; exact h.neighborDist hpc
    · exact h.neighborDist_step hinv hstep hpc

theorem run_soundInv {log : List (Event n)} (h : (stress C).Run log s) : SoundInv C s :=
  run_invariant (P := fun _ s => SoundInv C s) (soundInv_init C)
    (fun hr hp ht => hp.step (run_routerInv hr) ht) h

/-- One step raises no entry. -/
theorem SoundInv.dist_le (h : SoundInv C s) (hinv : ∀ i, (s.routers i).Inv C.topology i)
    (ht : Trans C s es s') (p : StatePtr n) (k : Fin n) :
    (s'.load p).dist k ≤ (s.load p).dist k := by
  rcases ht.router_cases p.owner with heq | hstep
  · simp only [State.load, heq]; exact Nat.le_refl _
  · exact (h.entry_step (hinv p.owner) hstep p.slot k).2

/-- No entry is ever raised from a state of a run on. -/
theorem dist_le_of_exec {log : List (Event n)} (hr : (stress C).Run log s) {as : List (Action n)}
    (he : (stress C).exec s as = some (es, s')) (p : StatePtr n) (k : Fin n) :
    (s'.load p).dist k ≤ (s.load p).dist k := by
  induction as generalizing s es log with
  | nil =>
      simp only [Lts.exec_nil, Option.some.injEq, Prod.mk.injEq] at he
      rw [he.2]
  | cons a as ih =>
      obtain ⟨es₁, s₁, es₂, hstep, hexec, rfl⟩ := (stress C).exec_cons_eq_some.mp he
      have hfirst := (run_soundInv hr).dist_le (run_routerInv hr) (trans_of_step hstep).2 p k
      exact Nat.le_trans (ih (hr.step hstep) hexec) hfirst

end Steps

/-- **Every stored distance is always sound.**  In every state of every run each
entry of each of the three vectors of a router is `inf_distance` or the total of
a nonempty walk, between the table of `floyd_warshall` and the direct link; no
entry is ever raised later; and the sum of line 181 stays below `2 ^ 32`. -/
theorem distances_sound {C : Config n} {log : List (Event n)} {s : State n}
    (h : (stress C).Run log s) :
    (∀ i slot k,
      C.topology.graph.Attained infDistance i k ((s.load ⟨i, slot⟩).dist k) ∧
      C.topology.floydWarshall i k ≤ (s.load ⟨i, slot⟩).dist k ∧
      (s.load ⟨i, slot⟩).dist k ≤ C.topology.link i k) ∧
    (∀ as es s', (stress C).exec s as = some (es, s') →
      ∀ p k, (s'.load p).dist k ≤ (s.load p).dist k) ∧
    ∀ i p neighborDist (k : Fin n), (s.routers i).pc = .relax p neighborDist k.val →
      neighborDist + (s.load p).dist k < 2 ^ 32 := by
  have hsound := run_soundInv h
  constructor
  · intro i slot k
    have hentry : C.topology.Sound i k ((s.load ⟨i, slot⟩).dist k) := hsound.vectors ⟨i, slot⟩ k
    exact ⟨hentry.attained, hentry.floydWarshall_le, hentry.le_link⟩
  constructor
  · intro as es s' he
    exact dist_le_of_exec h he
  · intro i p nd k hpc
    have hlink := C.topology.link_le i p.owner
    have hdist := (hsound.vectors p k).le_inf
    rw [(hsound.neighborDist hpc).1]
    unfold infDistance at hlink hdist
    omega

theorem distances_sound_twoRouters : ∃ log s, (stress twoRouters).Run log s ∧
    (s.load ⟨0, 2⟩).dist 0 = 8 ∧ twoRouters.topology.link 0 0 = 9 ∧
    (∀ i slot k,
      twoRouters.topology.graph.Attained infDistance i k ((s.load ⟨i, slot⟩).dist k) ∧
      twoRouters.topology.floydWarshall i k ≤ (s.load ⟨i, slot⟩).dist k ∧
      (s.load ⟨i, slot⟩).dist k ≤ twoRouters.topology.link i k) := by
  obtain ⟨log, s, hr, hp⟩ := Lts.Run.exists_of_exec (stress twoRouters)
    (unroll [(1, .schedule 1 2), (1, .continue 1), (1, .handle 0), (5, .continue 0)])
    (fun q => decide ((q.2.load ⟨0, 2⟩).dist 0 = 8)) (by decide +kernel)
  exact ⟨log, s, hr, of_decide_eq_true hp, by decide, (distances_sound hr).1⟩

end ConcurrencyLab
