import ConcurrencyLab.TopologyFile
import ConcurrencyLab.HopCount
import Mathlib.Data.Set.Card

/-!
# ConcurrencyLab.Generator

Which graphs `generate_graph.py` can print, and what becomes of them.

The loop counts every drawn pair of two vertices, also one that was drawn before, so
a request for `count` edges is met by any graph with `count` edges or fewer, but for
the empty one (`exists_generateGraph_iff`).
-/

namespace ConcurrencyLab

namespace TopologyFile

variable {n : Nat}

/-- The edges that the loop has set. -/
def drawnGraph (draws : List (Fin n × Fin n)) : SimpleGraph (Fin n) :=
  .fromRel fun a b => (a, b) ∈ draws

open Classical in
/-- The entries for a graph: `0` on the diagonal, `1` for an edge, `-1` for none. -/
noncomputable def graphData (G : SimpleGraph (Fin n)) : Fin n → Fin n → Int := fun a b =>
  if a = b then 0 else if G.Adj a b then 1 else -1

theorem drawnGraph_adj {draws : List (Fin n × Fin n)} {a b : Fin n} :
    (drawnGraph draws).Adj a b ↔ a ≠ b ∧ ((a, b) ∈ draws ∨ (b, a) ∈ draws) := Iff.rfl

/-- The loop leaves the entries of the drawn graph. -/
theorem data_eq_graphData {count : Int} {draws : List (Fin n × Fin n)}
    {data : Fin n → Fin n → Int} (h : drawEdges count draws (initialData n) = some data) :
    data = graphData (drawnGraph draws) := by
  funext a b
  rw [drawEdges_apply h, initialData_apply, graphData, drawnGraph_adj]
  split_ifs <;> simp_all

/-! ## how many pairs are drawn -/

/-- The draws that count. -/
def properDraws (draws : List (Fin n × Fin n)) : List (Fin n × Fin n) :=
  draws.filter fun p => p.1 ≠ p.2

theorem length_properDraws {count : Int} {draws : List (Fin n × Fin n)}
    {data data' : Fin n → Fin n → Int} (h : drawEdges count draws data = some data') :
    (properDraws draws).length = count.toNat := by
  induction draws generalizing count data with
  | nil =>
      simp only [drawEdges, Option.ite_none_left_eq_some] at h
      simp only [properDraws, List.filter_nil, List.length_nil]
      omega
  | cons draw draws ih =>
      obtain ⟨a, b⟩ := draw
      simp only [drawEdges, Option.ite_none_right_eq_some] at h
      obtain ⟨hcount, h⟩ := h
      by_cases hab : a = b
      · rw [if_pos hab] at h
        simpa [properDraws, hab] using ih h
      · rw [if_neg hab] at h
        have hlen := ih h
        simp only [properDraws, ne_eq, hab, not_false_eq_true, decide_true,
          List.filter_cons_of_pos, List.length_cons] at hlen ⊢
        omega

/-- As many proper draws as edges are wanted end the loop. -/
theorem exists_drawEdges {count : Int} {draws : List (Fin n × Fin n)}
    (hproper : ∀ p ∈ draws, p.1 ≠ p.2) (hlen : draws.length = count.toNat)
    (data : Fin n → Fin n → Int) : ∃ data', drawEdges count draws data = some data' := by
  induction draws generalizing count data with
  | nil =>
      rw [List.length_nil] at hlen
      exact ⟨data, by rw [drawEdges, if_neg (by omega)]⟩
  | cons draw draws ih =>
      obtain ⟨a, b⟩ := draw
      have hab : a ≠ b := hproper (a, b) List.mem_cons_self
      rw [List.length_cons] at hlen
      rw [drawEdges, if_pos (by omega), if_neg hab]
      exact ih (fun p hp => hproper p (List.mem_cons_of_mem _ hp)) (by omega) _

/-- A draw sets one edge at most. -/
theorem ncard_drawnGraph_le (draws : List (Fin n × Fin n)) :
    (drawnGraph draws).edgeSet.ncard ≤ (properDraws draws).length := by
  classical
  have hsub : (drawnGraph draws).edgeSet ⊆
      ((properDraws draws).map fun p => s(p.1, p.2)).toFinset := by
    intro e
    induction e with
    | h a b =>
        rw [SimpleGraph.mem_edgeSet, drawnGraph_adj]
        rintro ⟨hne, hdraw⟩
        simp only [properDraws, List.coe_toFinset, List.mem_map, List.mem_filter]
        rcases hdraw with hdraw | hdraw
        · exact ⟨(a, b), ⟨hdraw, by simpa using hne⟩, rfl⟩
        · exact ⟨(b, a), ⟨hdraw, by simpa using hne.symm⟩, Sym2.eq_swap⟩
  calc (drawnGraph draws).edgeSet.ncard
      ≤ ((((properDraws draws).map fun p => s(p.1, p.2)).toFinset : Finset _) : Set _).ncard :=
        Set.ncard_le_ncard hsub (Finset.finite_toSet _)
    _ ≤ ((properDraws draws).map fun p => s(p.1, p.2)).length := by
        rw [Set.ncard_coe_finset]
        exact List.toFinset_card_le _
    _ = (properDraws draws).length := List.length_map _

/-! ## every graph can be drawn -/

/-- The edges of a graph, one draw for each. -/
theorem exists_edge_draws (G : SimpleGraph (Fin n)) : ∃ draws : List (Fin n × Fin n),
    draws.length = G.edgeSet.ncard ∧ (∀ p ∈ draws, G.Adj p.1 p.2) ∧
    ∀ a b, G.Adj a b → (a, b) ∈ draws ∨ (b, a) ∈ draws := by
  classical
  have hout : ∀ e : Sym2 (Fin n), s((Quot.out e).1, (Quot.out e).2) = e := fun e => Quot.out_eq e
  refine ⟨G.edgeFinset.toList.map Quot.out, ?_, ?_, ?_⟩
  · rw [List.length_map, Finset.length_toList, ← SimpleGraph.coe_edgeFinset, Set.ncard_coe_finset]
  · intro p hp
    obtain ⟨e, he, rfl⟩ := List.mem_map.mp hp
    rw [Finset.mem_toList, SimpleGraph.mem_edgeFinset, ← hout e] at he
    exact he
  · intro a b hadj
    have hmem : Quot.out s(a, b) ∈ G.edgeFinset.toList.map Quot.out := by
      refine List.mem_map_of_mem ?_
      rw [Finset.mem_toList, SimpleGraph.mem_edgeFinset]
      exact hadj
    rcases Sym2.eq_iff.mp (hout s(a, b)) with ⟨ha, hb⟩ | ⟨ha, hb⟩
    · exact .inl (by rwa [← Prod.mk.eta (p := Quot.out s(a, b)), ha, hb] at hmem)
    · exact .inr (by rwa [← Prod.mk.eta (p := Quot.out s(a, b)), ha, hb] at hmem)

/-- Enough draws for any request that is not too small: the first edge is drawn again
and again. -/
theorem exists_draws {count : Int} {G : SimpleGraph (Fin n)} (hcard : G.edgeSet.ncard ≤ count.toNat)
    (hne : 0 < count → G ≠ ⊥) : ∃ draws, draws.length = count.toNat ∧
      (∀ p ∈ draws, p.1 ≠ p.2) ∧ drawnGraph draws = G := by
  obtain ⟨edges, hlen, hadj, hall⟩ := exists_edge_draws G
  have hgraph : ∀ draws : List (Fin n × Fin n), (∀ p, p ∈ draws ↔ p ∈ edges) →
      (∀ p ∈ draws, p.1 ≠ p.2) ∧ drawnGraph draws = G := by
    intro draws hmem
    refine ⟨fun p hp => (hadj p ((hmem p).mp hp)).ne, ?_⟩
    ext a b
    rw [drawnGraph_adj, hmem, hmem]
    constructor
    · rintro ⟨-, hdraw | hdraw⟩
      · exact hadj _ hdraw
      · exact (hadj _ hdraw).symm
    · exact fun h => ⟨h.ne, hall a b h⟩
  cases edges with
  | nil =>
      have hbot : G = ⊥ := by
        ext a b
        simpa using fun h => hall a b h
      have hcount : count.toNat = 0 := by
        by_contra hpos
        exact hne (by omega) hbot
      exact ⟨[], hcount.symm, hgraph [] fun _ => Iff.rfl⟩
  | cons edge edges =>
      refine ⟨List.replicate (count.toNat - (edge :: edges).length) edge ++ edge :: edges, ?_,
        hgraph _ fun p => ?_⟩
      · rw [List.length_append, List.length_replicate]
        omega
      · rw [List.mem_append, List.mem_replicate]
        constructor
        · rintro (⟨-, rfl⟩ | hp)
          · exact List.mem_cons_self
          · exact hp
        · exact .inr

/-- **The files that `generate_graph.py` can print** for a number of nodes and a number of
edges: those of the graphs with no more edges than asked for, but not of the empty
graph if any edge is asked for. -/
theorem exists_generateGraph_iff {count : Int} {text : List Char} :
    (∃ draws, generateGraph n count draws = some text) ↔
      n < 2 ^ 63 ∧ ∃ G : SimpleGraph (Fin n), G.edgeSet.ncard ≤ count.toNat ∧
        (0 < count → G ≠ ⊥) ∧ text = printData (graphData G) := by
  constructor
  · rintro ⟨draws, h⟩
    simp only [generateGraph, Option.ite_none_left_eq_some, Option.map_eq_some_iff] at h
    obtain ⟨hsize, data, hdata, rfl⟩ := h
    have hlen := length_properDraws hdata
    refine ⟨by omega, drawnGraph draws, ?_, fun hcount hbot => ?_, ?_⟩
    · exact hlen ▸ ncard_drawnGraph_le draws
    · -- the last draw that counts is an edge
      obtain ⟨p, hp⟩ := List.exists_mem_of_length_pos (l := properDraws draws) (by omega)
      obtain ⟨hdraw, hne⟩ := List.mem_filter.mp hp
      have hadj : (drawnGraph draws).Adj p.1 p.2 :=
        drawnGraph_adj.mpr ⟨by simpa using hne, .inl hdraw⟩
      rw [hbot] at hadj
      exact hadj
    · rw [data_eq_graphData hdata]
  · rintro ⟨hsize, G, hcard, hne, rfl⟩
    obtain ⟨draws, hlen, hproper, hgraph⟩ := exists_draws hcard hne
    obtain ⟨data, hdata⟩ := exists_drawEdges hproper hlen (initialData n)
    refine ⟨draws, ?_⟩
    rw [generateGraph, if_neg (by omega), hdata, data_eq_graphData hdata, hgraph]
    rfl

/-! ## the topology of a printed file -/

/-- `create_topology` makes of a printed graph the topology with links of weight one. -/
theorem createTopology_graphData {G : SimpleGraph (Fin n)} (hn : 0 < n) (hsize : n < 2 ^ 64) :
    createTopology (printData (graphData G)) =
      .ok ⟨n, .ofGraph G, (Topology.ofGraph G).floydWarshall, ['\n']⟩ := by
  obtain ⟨body, hfirst, hrows⟩ := scan_printData (graphData G) hn
  have hdata : ofData (graphData G) = Topology.ofGraph G := by
    refine Topology.eq_of_link fun a b => ?_
    have hzero : min (toDistance 0) infDistance = 0 := by decide
    have hone : min (toDistance 1) infDistance = 1 := by decide
    have hmissing : min (toDistance (-1)) infDistance = infDistance := by decide
    rw [ofData_link, graphData, Topology.ofGraph_link]
    split_ifs
    · exact hzero
    · exact hone
    · exact hmissing
  have hread := createTopology_eq_ok hn hsize hfirst hrows
  unfold ofData at hdata
  rwa [hdata] at hread

end TopologyFile

end ConcurrencyLab
