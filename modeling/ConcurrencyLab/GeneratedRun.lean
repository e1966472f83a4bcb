import ConcurrencyLab.Fairness
import ConcurrencyLab.Generator
import ConcurrencyLab.LightLinks

/-!
# ConcurrencyLab.GeneratedRun

From `generate_graph.py` to the joined threads: what a run of `stress.c` computes on a
generated file.
-/

namespace ConcurrencyLab

open TopologyFile

variable {n : Nat}

/-- The links of an undirected graph are two-way. -/
theorem Topology.twoWay_ofGraph (G : SimpleGraph (Fin n)) : (ofGraph G).TwoWay := by
  classical
  intro a b
  have hsymm : (ofGraph G).link a b = (ofGraph G).link b a := by
    by_cases hab : a = b
    · rw [hab]
    · rw [ofGraph_link, ofGraph_link, if_neg hab, if_neg (Ne.symm hab)]
      exact if_congr (G.adj_comm a b) rfl rfl
  rw [hsymm]

/-- They weigh one at most. -/
theorem Topology.light_ofGraph (G : SimpleGraph (Fin n)) : (ofGraph G).Light 1 := by
  classical
  intro a b hfinite
  rw [ofGraph_link] at hfinite ⊢
  split_ifs with hab hadj
  · exact Nat.zero_le 1
  · exact Nat.le_refl 1
  · exact absurd (by rw [if_neg hab, if_neg hadj]) hfinite

/-- **A generated file is routed**: whatever `generate_graph.py` has drawn, `create_topology`
reads it, and with `buffer_size = 0` no assertion fails under any schedule, no router
needs more than `n * (n + 1) + 1` epochs, every state can still be led to the end of
`run_stress`, and a run stops only when all threads are joined and every router holds
the number of hops to every other one. -/
theorem generated_run {count : Int} {draws : List (Fin n × Fin n)} {text : List Char}
    (hn : 0 < n) (h : generateGraph n count draws = some text) :
    ∃ T : Topology n, createTopology text = .ok ⟨n, T, T.floydWarshall, ['\n']⟩ ∧
      ∀ log s, (stress (.rendezvous T)).Run log s →
        s.fault = none ∧
        (∀ i, (s.routers i).buffer.curr.epoch ≤ n * (n + 1) + 1) ∧
        (∃ as es s', (stress (.rendezvous T)).exec s as = some (es, s') ∧
          s'.Finished (.rendezvous T)) ∧
        (¬ (stress (.rendezvous T)).Enabled s →
          (∀ i, (s.routers i).pc = .exited) ∧
          ∀ i k, (s.routers i).buffer.curr.dist k = hops (drawnGraph draws) i k) := by
  simp only [generateGraph, Option.ite_none_left_eq_some, Option.map_eq_some_iff] at h
  obtain ⟨hsize, data, hdata, rfl⟩ := h
  rw [data_eq_graphData hdata]
  have hT := Topology.twoWay_ofGraph (drawnGraph draws)
  refine ⟨.ofGraph (drawnGraph draws), createTopology_graphData hn (by omega), fun log s hr => ?_⟩
  have hbuf : (Config.rendezvous (.ofGraph (drawnGraph draws))).bufferSize = 0 := rfl
  have hwhere : (stress (.rendezvous (.ofGraph (drawnGraph draws)))).RunWhere
      (AddressTellsEpoch _) log s := .of_run (fun _ _ => .inl hbuf) hr
  refine ⟨run_fault_eq_none hT hwhere, fun i => ?_, can_finish_of_rendezvous hT hr hbuf,
    fun hstuck => ?_⟩
  · have hle := run_epoch_le_of_light (Topology.light_ofGraph _) hr i
    rwa [Nat.one_mul] at hle
  have hfinished := finished_of_stuck hT hwhere hstuck
  refine ⟨hfinished.exited, fun i k => ?_⟩
  rw [hfinished.dist]
  exact Topology.floydWarshall_ofGraph _ i k

/-- Three nodes and one edge, drawn from both ends. -/
theorem generated_run_three :
    generateGraph 3 2 [(0, 1), (2, 2), (1, 0)] =
      some "3\n 0  1 -1\n 1  0 -1\n-1 -1  0\n".toList ∧
    ∃ T : Topology 3,
      createTopology "3\n 0  1 -1\n 1  0 -1\n-1 -1  0\n".toList =
        .ok ⟨3, T, T.floydWarshall, ['\n']⟩ ∧
      ∀ log s, (stress (.rendezvous T)).Run log s → s.fault = none ∧
        ∃ as es s', (stress (.rendezvous T)).exec s as = some (es, s') ∧
          s'.Finished (.rendezvous T) := by
  have htext : generateGraph 3 2 [(0, 1), (2, 2), (1, 0)] =
      some "3\n 0  1 -1\n 1  0 -1\n-1 -1  0\n".toList := by decide +kernel
  obtain ⟨T, hread, hrun⟩ := generated_run (by decide) htext
  refine ⟨htext, T, hread, fun log s hr => ?_⟩
  obtain ⟨hf, -, hfinish, -⟩ := hrun log s hr
  exact ⟨hf, hfinish⟩

end ConcurrencyLab
