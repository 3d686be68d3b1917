/-
# `celery/utils/graph.py`: `topsort`

`topsort` (lines 63-83) makes a graph of the strongly connected components, sorts that, and
returns the first node of each component.

A cycle in the graph of the components would be in one component (`acyclic_condense`), so the
sort is one: of each component there is a node in the result, after those of the components
that it depends on, and a graph without cycles has all of its nodes there (`topsort_sorts`).
-/

import Celery.Utils.Khan
import Celery.Utils.Tarjan
import Mathlib.Data.List.Pairwise

namespace Celery
namespace DependencyGraph

variable {V : Type} [DecidableEq V]

/-- `NC[node]`: of the components that have the node, the last. -/
def componentOf (components : List (List V)) (node : V) : Except GraphError (List V) :=
  match components.reverse.find? fun c => node ∈ c with
  | none => .error .keyError
  | some c => .ok c

/-- The edges of a node, in the graph of the components. -/
def linkNode (components : List (List V)) (graph : DependencyGraph (List V)) (e : V × List V) :
    Except GraphError (DependencyGraph (List V)) := do
  let nodeC ← componentOf components e.1
  e.2.foldlM (fun graph successor => do
    let successorC ← componentOf components successor
    if nodeC ≠ successorC then graph.addEdge nodeC successorC else .ok graph) graph

/-- The graph of the components. -/
def condense (g : DependencyGraph V) (components : List (List V)) :
    Except GraphError (DependencyGraph (List V)) :=
  g.adjacent.items.foldlM (linkNode components) (components.foldl addArc .empty)

/-- `t[0]`. -/
def firstOf : List V → Except GraphError V
  | [] => .error .indexError
  | v :: _ => .ok v

/-- `topsort`. -/
def topsort (g : DependencyGraph V) : Except GraphError (List V) := do
  let components ← g.tarjan72
  let graph ← g.condense components
  let sorted ← graph.khan62
  sorted.mapM firstOf

/-! ## The components of the nodes -/

variable {g : DependencyGraph V} {components : List (List V)} {c c' : List V} {u v w : V}

namespace Components

variable (h : g.Components components)
include h

theorem mem_nodes (hc : c ∈ components) (hv : v ∈ c) : v ∈ g.nodes :=
  h.perm.mem_iff.mp (List.mem_flatten_of_mem hc hv)

/-- A node is in one component only. -/
theorem eq_of_mem (hc : c ∈ components) (hc' : c' ∈ components) (hv : v ∈ c) (hv' : v ∈ c') :
    c = c' := by
  by_contra hne
  have hdisjoint := (List.nodup_flatten.mp (h.perm.nodup_iff.mpr g.adjacent.nodup)).2
  have hsymm : Std.Symm (@List.Disjoint V) := ⟨fun _ _ => List.Disjoint.symm⟩
  exact hdisjoint.forall hc hc' hne hv hv'

theorem eq_of_strong (hc : c ∈ components) (hc' : c' ∈ components) (hv : v ∈ c) (hw : w ∈ c')
    (hstrong : g.Strong v w) : c = c' :=
  h.eq_of_mem hc hc' ((h.strong c hc v hv w).mpr hstrong) hw

theorem nodup : components.Nodup := by
  obtain ⟨-, hdisjoint⟩ := List.nodup_flatten.mp (h.perm.nodup_iff.mpr g.adjacent.nodup)
  refine hdisjoint.imp_of_mem fun {c c'} hc _ hcc' heq => ?_
  obtain ⟨v, hv⟩ := List.exists_mem_of_ne_nil c (h.ne_nil c hc)
  exact hcc' hv (heq ▸ hv)

/-- **`NC` has the component of every node.** -/
theorem exists_componentOf (hv : v ∈ g.nodes) :
    ∃ c ∈ components, v ∈ c ∧ componentOf components v = .ok c := by
  obtain ⟨c, hc, hvc⟩ := List.mem_flatten.mp (h.perm.mem_iff.mpr hv)
  have hsome : (components.reverse.find? fun c => v ∈ c).isSome :=
    List.find?_isSome.mpr ⟨c, List.mem_reverse.mpr hc, by simpa using hvc⟩
  obtain ⟨c', hfind⟩ := Option.isSome_iff_exists.mp hsome
  have hmem := List.mem_reverse.mp (List.mem_of_find?_eq_some hfind)
  have hvc' : v ∈ c' := by simpa using List.find?_some hfind
  refine ⟨c', hmem, hvc', ?_⟩
  rw [componentOf, hfind]

end Components

/-! ## The graph of the components -/

/-- The edge that `successor` adds to a node of `nodeC`. -/
def Adds (components : List (List V)) (nodeC : List V) (successor : V) (A B : List V) : Prop :=
  A = nodeC ∧ A ≠ B ∧ B ∈ components ∧ successor ∈ B

theorem exists_linkSuccessor (h : g.Components components) {nodeC : List V}
    (hnodeC : nodeC ∈ components) {successor : V} (hsuccessor : successor ∈ g.nodes)
    (graph : DependencyGraph (List V)) (hgraph : graph.nodes = components) :
    ∃ graph', (do
        let successorC ← componentOf components successor
        if nodeC ≠ successorC then graph.addEdge nodeC successorC else .ok graph) = .ok graph' ∧
      graph'.nodes = components ∧
      ∀ A B, graph'.Edge A B ↔ graph.Edge A B ∨ Adds components nodeC successor A B := by
  obtain ⟨successorC, hmem, hin, hcomponent⟩ := h.exists_componentOf hsuccessor
  have hadds : ∀ A B, Adds components nodeC successor A B ↔
      nodeC ≠ successorC ∧ A = nodeC ∧ B = successorC := by
    intro A B
    constructor
    · rintro ⟨rfl, hne, hB, hinB⟩
      obtain rfl := h.eq_of_mem hB hmem hinB hin
      exact ⟨hne, rfl, rfl⟩
    · rintro ⟨hne, rfl, rfl⟩
      exact ⟨rfl, hne, hmem, hin⟩
  rw [hcomponent]
  by_cases hne : nodeC = successorC
  · refine ⟨graph, if_neg (not_not.mpr hne), hgraph, fun A B => ?_⟩
    rw [hadds]
    simp [hne]
  · obtain ⟨graph', heq, hnodes, hedges⟩ := exists_addEdge (hgraph.symm ▸ hnodeC) successorC
    refine ⟨graph', (if_pos hne).trans heq, hnodes.trans hgraph, fun A B => ?_⟩
    rw [hedges, hadds]
    simp [hne]

/-- The edges of a node, between the components. -/
def Links (components : List (List V)) (e : V × List V) (A B : List V) : Prop :=
  A ∈ components ∧ B ∈ components ∧ A ≠ B ∧ e.1 ∈ A ∧ ∃ w ∈ e.2, w ∈ B

theorem exists_linkNode (h : g.Components components) {e : V × List V} (he : e.1 ∈ g.nodes)
    (hadj : ∀ w ∈ e.2, w ∈ g.nodes) (graph : DependencyGraph (List V))
    (hgraph : graph.nodes = components) :
    ∃ graph', linkNode components graph e = .ok graph' ∧ graph'.nodes = components ∧
      ∀ A B, graph'.Edge A B ↔ graph.Edge A B ∨ Links components e A B := by
  obtain ⟨nodeC, hmem, hin, hcomponent⟩ := h.exists_componentOf he
  obtain ⟨graph', heq, hnodes, hedges⟩ := exists_foldlM e.2
    (fun w hw graph hgraph => exists_linkSuccessor h hmem (hadj w hw) graph hgraph) graph hgraph
  refine ⟨graph', ?_, hnodes, fun A B => ?_⟩
  · rw [linkNode, hcomponent]
    exact heq
  · rw [hedges]
    refine or_congr_right ⟨?_, ?_⟩
    · rintro ⟨w, hw, rfl, hne, hB, hwB⟩
      exact ⟨hmem, hB, hne, hin, w, hw, hwB⟩
    · rintro ⟨hA, hB, hne, heA, w, hw, hwB⟩
      exact ⟨w, hw, h.eq_of_mem hA hmem heA hin, hne, hB, hwB⟩

/-- **The graph of the components** has an edge where nodes of two of them have one. -/
theorem exists_condense (hg : g.Closed) (h : g.Components components) :
    ∃ graph, g.condense components = .ok graph ∧ graph.nodes = components ∧
      ∀ A B, graph.Edge A B ↔ A ∈ components ∧ B ∈ components ∧ A ≠ B ∧
        ∃ u ∈ A, ∃ v ∈ B, g.Edge u v := by
  obtain ⟨hnodes, hedges⟩ := foldl_addArc components h.nodup
  obtain ⟨graph, hgraph, hgraphnodes, hgraphedges⟩ := exists_foldlM g.adjacent.items
    (fun e he => exists_linkNode h (List.mem_map_of_mem he) (closed_iff.mp hg e he)) _ hnodes
  refine ⟨graph, hgraph, hgraphnodes, fun A B => ?_⟩
  rw [hgraphedges, or_iff_right (hedges A B)]
  constructor
  · rintro ⟨⟨u, adj⟩, he, hA, hB, hne, hu, v, hv, hvB⟩
    exact ⟨hA, hB, hne, u, hu, v, hvB, adj, OrderedDict.get?_of_mem he, hv⟩
  · rintro ⟨hA, hB, hne, u, hu, v, hvB, adj, hget, hv⟩
    exact ⟨(u, adj), OrderedDict.mem_of_get? hget, hA, hB, hne, hu, v, hv, hvB⟩

section Condensed

variable {graph : DependencyGraph (List V)} {A B : List V}
  (hedges : ∀ A B, graph.Edge A B ↔ A ∈ components ∧ B ∈ components ∧ A ≠ B ∧
    ∃ u ∈ A, ∃ v ∈ B, g.Edge u v)
include hedges

/-- What a component depends on, all of its nodes do. -/
theorem depends_of_transGen (h : g.Components components)
    (hpath : Relation.TransGen graph.Edge A B) (hu : u ∈ A) (hv : v ∈ B) : g.Depends u v := by
  have hedge : ∀ {A B : List V} {u v : V}, graph.Edge A B → u ∈ A → v ∈ B → g.Depends u v := by
    intro A B u v hAB hu hv
    obtain ⟨hA, hB, -, u', hu', v', hv', hedge⟩ := (hedges A B).mp hAB
    exact ((h.strong A hA u hu u').mp hu').1.trans
      (hedge.depends.trans ((h.strong B hB v' hv' v).mp hv).1)
  induction hpath generalizing v with
  | single hAB => exact hedge hAB hu hv
  | tail _ hBC ih =>
    obtain ⟨hB, -⟩ := (hedges _ _).mp hBC
    obtain ⟨w, hw⟩ := List.exists_mem_of_ne_nil _ (h.ne_nil _ hB)
    exact (ih hw).trans (hedge hBC hw hv)

/-- **The graph of the components has no cycle.** -/
theorem acyclic_condense (h : g.Components components) : graph.Acyclic := by
  intro A hcycle
  -- after the first edge, the path comes back from another component
  obtain ⟨B, hAB, hback⟩ := Relation.TransGen.head'_iff.mp hcycle
  obtain ⟨hA, hB, hne, u, hu, v, hv, hedge⟩ := (hedges A B).mp hAB
  rcases Relation.reflTransGen_iff_eq_or_transGen.mp hback with heq | hback
  · exact hne heq
  · have hvu := depends_of_transGen hedges h hback hv hu
    exact hne (h.eq_of_strong hA hB hu hv ⟨hedge.depends, hvu⟩)

/-- A component depends on that of every node which one of its nodes depends on. -/
theorem transGen_of_depends (h : g.Components components)
    (hpath : g.Depends u v) (hA : A ∈ components) (hu : u ∈ A) (hB : B ∈ components)
    (hv : v ∈ B) : A = B ∨ Relation.TransGen graph.Edge A B := by
  induction hpath generalizing B with
  | refl => exact .inl (h.eq_of_mem hA hB hu hv)
  | @tail w v _ hedge ih =>
    obtain ⟨C, hC, hw, -⟩ := h.exists_componentOf hedge.mem_nodes
    have hCB : C = B ∨ graph.Edge C B := by
      by_cases hne : C = B
      · exact .inl hne
      · exact .inr ((hedges C B).mpr ⟨hC, hB, hne, w, hw, v, hv, hedge⟩)
    rcases hCB with rfl | hCB
    · exact ih hC hw
    · rcases ih hC hw with rfl | hAC
      · exact .inr (.single hCB)
      · exact .inr (hAC.tail hCB)

end Condensed

/-! ## What comes before what -/

omit [DecidableEq V] in
/-- Coming before is transitive in a list without duplicates. -/
theorem pair_sublist_trans {l : List V} (hnodup : l.Nodup) (huv : [u, v].Sublist l)
    (hvw : [v, w].Sublist l) : [u, w].Sublist l := by
  obtain ⟨l₁, l₂, rfl, hu, hv⟩ := List.cons_sublist_iff.mp huv
  have hv₂ := List.singleton_sublist.mp hv
  have hv₁ : v ∉ l₁ := fun hv₁ => List.disjoint_of_nodup_append hnodup hv₁ hv₂
  obtain ⟨s₁, s₂, heq, hs₁, hs₂⟩ := List.sublist_append_iff.mp hvw
  have hw : w ∈ l₂ := by
    cases s₁ with
    | nil =>
      rw [List.nil_append] at heq
      exact hs₂.subset (heq ▸ List.mem_cons_of_mem v (List.mem_singleton_self w))
    | cons x s₁ =>
      obtain ⟨rfl, -⟩ := List.cons.inj heq
      exact absurd (hs₁.subset List.mem_cons_self) hv₁
  exact (List.singleton_sublist.mpr hu).append (List.singleton_sublist.mpr hw)

theorem pair_sublist_of_transGen {sorted : List V} (hnodup : sorted.Nodup)
    (hsorted : ∀ u v, g.Edge u v → [v, u].Sublist sorted)
    (h : Relation.TransGen g.Edge u v) : [v, u].Sublist sorted := by
  induction h with
  | single hedge => exact hsorted _ _ hedge
  | tail _ hedge ih => exact pair_sublist_trans hnodup (hsorted _ _ hedge) ih

omit [DecidableEq V] in
/-- The first node of each component. -/
theorem exists_mapM_firstOf (sorted : List (List V)) (h : ∀ t ∈ sorted, t ≠ []) :
    ∃ result, sorted.mapM firstOf = .ok result ∧ result.map some = sorted.map List.head? := by
  induction sorted with
  | nil => exact ⟨[], rfl, rfl⟩
  | cons t sorted ih =>
    obtain ⟨ht, hsorted⟩ := List.forall_mem_cons.mp h
    obtain ⟨result, hresult, hmap⟩ := ih hsorted
    obtain ⟨v, t, rfl⟩ := List.exists_cons_of_ne_nil ht
    refine ⟨v :: result, ?_, ?_⟩
    · rw [List.mapM_cons, hresult]
      rfl
    · rw [List.map_cons, hmap, List.map_cons, List.head?_cons]

/-! ## The sort -/

/-- What `topsort` is to return: one node of each strongly connected component, and each after
those of the components that its own depends on. -/
structure Topsorted (g : DependencyGraph V) (result : List V) : Prop where
  nodup : result.Nodup
  mem_nodes : ∀ r ∈ result, r ∈ g.nodes
  existsUnique : ∀ v ∈ g.nodes, ∃! r, r ∈ result ∧ g.Strong v r
  before : ∀ u v, u ∈ g.nodes → g.Depends u v → ¬ g.Strong u v →
    ∀ q ∈ result, ∀ r ∈ result, g.Strong u q → g.Strong v r → [r, q].Sublist result

/-- The first nodes of the components, if these are sorted. -/
theorem Components.topsorted (h : g.Components components) {sorted : List (List V)}
    (hperm : sorted.Perm components)
    (hsorted : ∀ A ∈ components, ∀ B ∈ components, ∀ u ∈ A, ∀ v ∈ B, g.Depends u v →
      A = B ∨ [B, A].Sublist sorted)
    {result : List V} (hresult : result.map some = sorted.map List.head?) :
    g.Topsorted result := by
  have hmem : ∀ r, r ∈ result ↔ ∃ c ∈ components, c.head? = some r := by
    intro r
    have hmap : r ∈ result ↔ some r ∈ result.map some := by simp
    rw [hmap, hresult, List.mem_map]
    simp only [hperm.mem_iff]
  have hhead : ∀ {c : List V} {r : V}, c.head? = some r → r ∈ c := List.mem_of_head?
  refine ⟨?_, fun r hr => ?_, fun v hv => ?_, fun u v hu huv hstrong q hq r hr huq hvr => ?_⟩
  · refine List.Nodup.of_map some ?_
    rw [hresult]
    refine (hperm.nodup_iff.mpr h.nodup).map_on fun A hA B hB heq => ?_
    obtain ⟨a, ha⟩ := List.exists_mem_of_ne_nil A (h.ne_nil A (hperm.mem_iff.mp hA))
    obtain ⟨b, hb⟩ := Option.ne_none_iff_exists'.mp fun hnone =>
      h.ne_nil A (hperm.mem_iff.mp hA) (List.head?_eq_none_iff.mp hnone)
    exact h.eq_of_mem (hperm.mem_iff.mp hA) (hperm.mem_iff.mp hB) (hhead hb) (hhead (heq ▸ hb))
  · obtain ⟨c, hc, hr⟩ := (hmem r).mp hr
    exact h.mem_nodes hc (hhead hr)
  · obtain ⟨c, hc, hvc, -⟩ := h.exists_componentOf hv
    obtain ⟨r, hr⟩ := Option.ne_none_iff_exists'.mp fun hnone =>
      h.ne_nil c hc (List.head?_eq_none_iff.mp hnone)
    refine ⟨r, ⟨(hmem r).mpr ⟨c, hc, hr⟩, (h.strong c hc v hvc r).mp (hhead hr)⟩, ?_⟩
    rintro r' ⟨hr', hstrong⟩
    obtain ⟨c', hc', hr'⟩ := (hmem r').mp hr'
    obtain rfl := h.eq_of_strong hc hc' hvc (hhead hr') hstrong
    exact Option.some.inj (hr'.symm.trans hr)
  · obtain ⟨A, hA, hqA⟩ := (hmem q).mp hq
    obtain ⟨B, hB, hrB⟩ := (hmem r).mp hr
    have huA := (h.strong A hA q (hhead hqA) u).mpr huq.symm
    have hvB := (h.strong B hB r (hhead hrB) v).mpr hvr.symm
    rcases hsorted A hA B hB u huA v hvB huv with rfl | hsub
    · exact absurd ((h.strong A hA u huA v).mp hvB) hstrong
    · have hmap := hsub.map List.head?
      rw [← hresult, List.map_cons, List.map_singleton, hqA, hrB] at hmap
      obtain ⟨l, hl, heq⟩ := List.sublist_map_iff.mp hmap
      have hl' : [r, q].map some = l.map some := heq
      rwa [List.map_injective_iff.mpr (Option.some_injective V) hl']

/-- Without cycles, every node is a component of its own. -/
theorem Acyclic.eq_of_strong (h : g.Acyclic) (hstrong : g.Strong u v) : u = v := by
  rcases Relation.reflTransGen_iff_eq_or_transGen.mp hstrong.1 with heq | hpath
  · exact heq.symm
  · exact absurd (hpath.trans_left hstrong.2) (h u)

/-- **A sort of a graph without cycles** has all nodes. -/
theorem Topsorted.perm {result : List V} (h : g.Topsorted result) (hacyclic : g.Acyclic) :
    result.Perm g.nodes := by
  refine (List.perm_ext_iff_of_nodup h.nodup g.adjacent.nodup).mpr fun v =>
    ⟨h.mem_nodes v, fun hv => ?_⟩
  obtain ⟨r, ⟨hr, hstrong⟩, -⟩ := h.existsUnique v hv
  rwa [hacyclic.eq_of_strong hstrong]

/-- **`topsort` is correct on every closed graph.** -/
theorem topsort_sorts (hg : g.Closed) :
    ∃ result, g.topsort = .ok result ∧ g.Topsorted result ∧
      (g.Acyclic → result.Perm g.nodes ∧ ∀ u v, g.Edge u v → [v, u].Sublist result) := by
  obtain ⟨components, htarjan, h⟩ := exists_tarjan72 hg
  obtain ⟨graph, hgraph, hnodes, hedges⟩ := exists_condense hg h
  have hacyclic := acyclic_condense hedges h
  have hclosed : graph.Closed := fun A B hAB => hnodes ▸ ((hedges A B).mp hAB).2.1
  obtain ⟨sorted, hsorted, hperm, hbefore⟩ := exists_khan62 hclosed hacyclic
  rw [hnodes] at hperm
  obtain ⟨result, hresult, hmap⟩ :=
    exists_mapM_firstOf sorted fun t ht => h.ne_nil t (hperm.mem_iff.mp ht)
  have htopsorted : g.Topsorted result :=
    h.topsorted hperm (fun A hA B hB u hu v hv hpath =>
      (transGen_of_depends hedges h hpath hA hu hB hv).imp_right
        (pair_sublist_of_transGen (hperm.nodup_iff.mpr h.nodup) hbefore)) hmap
  refine ⟨result, ?_, htopsorted, fun hg' => ⟨htopsorted.perm hg', fun u v hedge => ?_⟩⟩
  · rw [topsort, htarjan]
    show (g.condense components >>= fun graph => graph.khan62 >>= (·.mapM firstOf)) = _
    rw [hgraph]
    show (graph.khan62 >>= (·.mapM firstOf)) = _
    rw [hsorted]
    exact hresult
  · have hperm' := htopsorted.perm hg'
    have hnot : ¬ g.Strong u v := fun hstrong =>
      hg' u (.single (hg'.eq_of_strong hstrong ▸ hedge))
    exact htopsorted.before u v hedge.mem_nodes hedge.depends hnot u
      (hperm'.mem_iff.mpr hedge.mem_nodes) v (hperm'.mem_iff.mpr (hg u v hedge)) (.refl u) (.refl v)

/-- **`topsort` returns on closed graphs only.** -/
theorem closed_of_topsort {result : List V} (h : g.topsort = .ok result) : g.Closed := by
  cases htarjan : g.tarjan72 with
  | error e =>
    rw [topsort, htarjan] at h
    cases h
  | ok components => exact closed_of_tarjan72 htarjan

/-- Two nodes that depend on each other, and one that they depend on. -/
def pairAndBase : DependencyGraph ℕ := ⟨⟨[(0, [1, 2]), (1, [0, 0]), (2, [2])], by decide⟩⟩

example : pairAndBase.topsort = .ok [2, 0] := by decide

theorem pairAndBase_sorts : pairAndBase.Topsorted [2, 0] := by
  obtain ⟨result, hresult, htopsorted, -⟩ := topsort_sorts (g := pairAndBase) (by decide)
  obtain rfl : [2, 0] = result := Except.ok.inj hresult
  exact htopsorted

end DependencyGraph
end Celery
