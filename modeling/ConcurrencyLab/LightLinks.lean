import ConcurrencyLab.Asynchronous
import ConcurrencyLab.Termination

/-!
# ConcurrencyLab.LightLinks

How long the exchange takes when the links are light.

The bounds of `ConcurrencyLab.Termination` let an entry go down from `inf_distance` by
one at a time.  It does not: the first finite distance
of a router is one link more than that of a neighbour, so it is no heavier than a link
for each router (`relaxation_past_le`, read through `run_refines`).  Where no link
weighs more than `w`, epochs and vectors are therefore polynomial in the number of
routers and in `w` (`light_links`).
-/

namespace ConcurrencyLab

variable {n : Nat}

/-- No link weighs more than `w`. -/
def Topology.Light (T : Topology n) (w : Nat) : Prop :=
  ∀ i j, T.link i j ≠ infDistance → T.link i j ≤ w

instance (T : Topology n) (w : Nat) : Decidable (T.Light w) := by
  unfold Topology.Light; infer_instance

/-- A distance, where one above all finite ones stands for none. -/
def capped (w : Nat) (n : Nat) (d : Nat) : Nat := min d (w * n + 1)

section Steps

variable {C : Config n} {w : Nat} {log : List (Event n)} {s : State n}

/-- A finite distance weighs no more than a link for each router. -/
theorem run_dist_le (hw : C.topology.Light w) (h : (stress C).Run log s) (p : StatePtr n)
    (k : Fin n) : (s.load p).dist k = infDistance ∨ (s.load p).dist k ≤ w * n := by
  obtain ⟨improvements, t, ht, href⟩ := run_refines h
  by_cases hfinite : (s.load p).dist k < infDistance
  · right
    have hle := Weighted.relaxation_past_le C.topology.attained_link C.topology.link_le
      (fun i k hlt => hw i k (Nat.ne_of_lt hlt)) hw ht p.owner k _ (href.past p k) hfinite
    have hcard := Finset.card_le_univ (Weighted.found infDistance t k)
    rw [Fintype.card_fin] at hcard
    exact Nat.le_trans hle (Nat.mul_le_mul_left w hcard)
  · left
    have hcap := ((run_soundInv h).vectors p k).le_link
    have := C.topology.link_le p.owner k
    omega

/-- An epoch begins with an entry that has gone down below the heaviest finite distance. -/
theorem capped_sum_lt (hw : C.topology.Light w) (h : (stress C).Run log s) {i : Fin n}
    (hpc : (s.routers i).pc = .check) (hreset : (s.routers i).MustReset) :
    ∑ k, (capped w n (C.topology.link i k) - capped w n ((s.routers i).buffer.curr.dist k)) <
      ∑ k, (capped w n (C.topology.link i k) - capped w n ((s.routers i).buffer.next.dist k)) := by
  have hinv := run_routerInv h i
  obtain ⟨k, hlt⟩ := hinv.exists_lt hpc hreset
  refine Finset.sum_lt_sum (fun a _ => ?_) ⟨k, Finset.mem_univ k, ?_⟩
  · exact Nat.sub_le_sub_left (min_le_min_right _ (hinv.next_le (by rw [hpc]; rfl) a)) _
  · -- what has gone down is finite, so it is below the cap
    have hlight := run_dist_le hw h ⟨i, (s.routers i).buffer.nextState⟩ k
    have hnext : (s.load ⟨i, (s.routers i).buffer.nextState⟩).dist k =
        (s.routers i).buffer.next.dist k := rfl
    have hcurr : (s.routers i).buffer.curr.dist k ≤ C.topology.link i k :=
      ((run_soundInv h).vectors ⟨i, (s.routers i).buffer.currState⟩ k).le_link
    have hlink := C.topology.link_le i k
    rw [hnext] at hlight
    unfold capped
    omega

/-- The epoch of a router is paid for by what its vector has gone down below the
heaviest finite distance. -/
theorem run_epoch_le_capped (hw : C.topology.Light w) (h : (stress C).Run log s) (i : Fin n) :
    (s.routers i).buffer.curr.epoch ≤
      1 + ∑ k, (capped w n (C.topology.link i k) -
        capped w n ((s.routers i).buffer.curr.dist k)) := by
  refine run_vectorInvariant (P := fun _ s => (s.routers i).buffer.curr.epoch ≤
    1 + ∑ k, (capped w n (C.topology.link i k) -
      capped w n ((s.routers i).buffer.curr.dist k))) ?_ ?_ h
  · simp [State.init, Router.init, TripleBuffer.init, TripleBuffer.curr]
  · intro log s es s' hr hp hs
    have hbuffer := (run_routerInv hr i).buffer
    cases hs with
    | quiet hr' hq hes => rw [(hr' i).curr]; exact hp
    | take hpc hq hr' hq' => rw [buffer_take hr']; exact hp
    | accept hpc hij hm he hq hr' hq' => rw [buffer_accept hr']; exact hp
    | meet hpc hij hm he hq hpcj hr' hq' => rw [buffer_meet hr']; exact hp
    | @rotate a s' hpc hreset hr' hq' =>
        rw [hr']
        split
        · next hia =>
          subst hia
          have hsum := capped_sum_lt hw hr hpc hreset
          have hnext := hbuffer.epoch_next
          simp only [Router.rotated, hbuffer.curr_cycle]
          omega
        · exact hp

/-- So there are no more epochs than the entries have room for. -/
theorem run_epoch_le_of_light (hw : C.topology.Light w) (h : (stress C).Run log s) (i : Fin n) :
    (s.routers i).buffer.curr.epoch ≤ n * (w * n + 1) + 1 := by
  have hsum : ∑ k, (capped w n (C.topology.link i k) -
      capped w n ((s.routers i).buffer.curr.dist k)) ≤ n * (w * n + 1) := by
    refine le_trans (Finset.sum_le_card_nsmul _ _ (w * n + 1) fun k _ => ?_) (by simp)
    exact Nat.le_trans (Nat.sub_le _ _) (Nat.min_le_right _ _)
  have hle := run_epoch_le_capped hw h i
  omega

end Steps

/-- **Light links are routed in few epochs.**  Where no link weighs more than `w`, in
every run the finite distances in every vector are at most `w * n`, every epoch is at
most `n * (w * n + 1) + 1`, and so many vectors at most have gone over each link. -/
theorem light_links {C : Config n} {w : Nat} {log : List (Event n)} {s : State n}
    (hw : C.topology.Light w) (h : (stress C).Run log s) :
    (∀ p k, (s.load p).dist k = infDistance ∨ (s.load p).dist k ≤ w * n) ∧
    (∀ i, (s.routers i).buffer.curr.epoch ≤ n * (w * n + 1) + 1) ∧
    (∀ i j, C.topology.IsNeighbor i j → (accepted log i j).length ≤ n * (w * n + 1) + 1) := by
  refine ⟨run_dist_le hw h, run_epoch_le_of_light hw h, fun i j hij => ?_⟩
  exact Nat.le_trans (run_length_accepted_le h hij) (run_epoch_le_of_light hw h i)

/-- The heaviest link of the two routers is the first one's to itself; the first router
has sent its neighbour two vectors. -/
theorem light_links_twoRouters : ∃ log s, (stress twoRouters).Run log s ∧
    (accepted log 0 1).length = 2 ∧ (s.routers 0).buffer.curr.epoch = 2 ∧
    (∀ p k, (s.load p).dist k = infDistance ∨ (s.load p).dist k ≤ 18) ∧
    (∀ i, (s.routers i).buffer.curr.epoch ≤ 39) ∧
    (accepted log 0 1).length ≤ 39 ∧ (accepted log 1 0).length ≤ 39 := by
  obtain ⟨log, s, hr, hp⟩ := Lts.Run.exists_of_exec (stress twoRouters) (unroll twoRoutersSettle)
    (fun q => decide ((accepted q.1 0 1).length = 2 ∧ (q.2.routers 0).buffer.curr.epoch = 2))
    (by decide +kernel)
  obtain ⟨haccepted, hepoch⟩ := of_decide_eq_true hp
  have hlight : twoRouters.topology.Light 9 := by decide
  obtain ⟨hdist, hbound, hlink⟩ := light_links hlight hr
  exact ⟨log, s, hr, haccepted, hepoch, hdist, hbound, hlink 0 1 (by decide),
    hlink 1 0 (by decide)⟩

end ConcurrencyLab
