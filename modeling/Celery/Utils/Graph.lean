/-
# `celery/utils/graph.py`: `DependencyGraph`

The graph itself, `add_arc`, `add_edge` and `update` (lines 40-102), and what is said of a
graph: an edge from `A` to `B` means that `A` depends on `B`.  That nodes are strongly
connected is Mathlib's `AntisymmRel` of the paths.
-/

import Celery.Library.OrderedDict
import Mathlib.Data.Fintype.Card
import Mathlib.Data.Fintype.EquivFin
import Mathlib.Data.Fintype.Sets
import Mathlib.Data.List.Induction
import Mathlib.Logic.Relation
import Mathlib.Order.Antisymmetrization
import Mathlib.Order.WellFounded

namespace Celery

/-- What sorting a graph may raise.  `fuel` is no error of the source: the recursions and loops
here are given as many rounds as the source can take, and it is for when these are used up. -/
inductive GraphError where
  | keyError
  | indexError
  | fuel
  deriving DecidableEq

/-- `DependencyGraph`. -/
structure DependencyGraph (V : Type) where
  adjacent : OrderedDict V (List V)

namespace DependencyGraph

variable {V : Type}

/-- `DependencyGraph()`. -/
def empty : DependencyGraph V := ⟨.empty⟩

/-- The nodes, in order: `iter(self)`. -/
def nodes (g : DependencyGraph V) : List V := g.adjacent.keys

variable [DecidableEq V]

/-- `self[node]`. -/
def getItem (g : DependencyGraph V) (node : V) : Except GraphError (List V) :=
  match g.adjacent.get? node with
  | none => .error .keyError
  | some adj => .ok adj

/-- `add_arc`. -/
def addArc (g : DependencyGraph V) (obj : V) : DependencyGraph V :=
  if (g.adjacent.get? obj).isSome then g else ⟨g.adjacent.set obj []⟩

/-- `add_edge`. -/
def addEdge (g : DependencyGraph V) (A B : V) : Except GraphError (DependencyGraph V) := do
  let adj ← g.getItem A
  .ok ⟨g.adjacent.set A (adj ++ [B])⟩

/-- `update`. -/
def update (g : DependencyGraph V) (tups : List (V × List V)) :
    Except GraphError (DependencyGraph V) :=
  tups.foldlM (fun g t => t.2.foldlM (fun g dep => g.addEdge t.1 dep) g)
    (tups.foldl (fun g t => g.addArc t.1) g)

/-! ## Edges and paths -/

/-- `u` depends on `v` directly. -/
def Edge (g : DependencyGraph V) (u v : V) : Prop :=
  ∃ adj, g.adjacent.get? u = some adj ∧ v ∈ adj

/-- `u` is `v` or depends on it. -/
def Depends (g : DependencyGraph V) : V → V → Prop := Relation.ReflTransGen g.Edge

/-- `u` and `v` are strongly connected. -/
def Strong (g : DependencyGraph V) : V → V → Prop := AntisymmRel g.Depends

/-- Every edge leads to a node. -/
def Closed (g : DependencyGraph V) : Prop := ∀ u v, g.Edge u v → v ∈ g.nodes

/-- No node depends on itself. -/
def Acyclic (g : DependencyGraph V) : Prop := ∀ v, ¬ Relation.TransGen g.Edge v v

variable {g : DependencyGraph V} {u v w : V}

theorem mem_nodes_iff : v ∈ g.nodes ↔ ∃ adj, g.adjacent.get? v = some adj :=
  OrderedDict.mem_keys_iff

theorem Edge.mem_nodes (h : g.Edge u v) : u ∈ g.nodes := by
  obtain ⟨adj, hget, -⟩ := h
  exact mem_nodes_iff.mpr ⟨adj, hget⟩

theorem closed_iff : g.Closed ↔ ∀ e ∈ g.adjacent.items, ∀ w ∈ e.2, w ∈ g.nodes := by
  constructor
  · exact fun h e he w hw => h e.1 w ⟨e.2, OrderedDict.get?_of_mem he, hw⟩
  · rintro h u v ⟨adj, hget, hv⟩
    exact h (u, adj) (OrderedDict.mem_of_get? hget) v hv

instance : Decidable g.Closed := decidable_of_iff _ closed_iff.symm

theorem Edge.depends (h : g.Edge u v) : g.Depends u v := Relation.ReflTransGen.single h

theorem Depends.refl (v : V) : g.Depends v v := Relation.ReflTransGen.refl

theorem Depends.trans (h : g.Depends u v) (h' : g.Depends v w) : g.Depends u w :=
  Relation.ReflTransGen.trans h h'

theorem Strong.refl (v : V) : g.Strong v v := ⟨.refl v, .refl v⟩

theorem Strong.symm (h : g.Strong u v) : g.Strong v u := AntisymmRel.symm h

theorem Strong.trans (h : g.Strong u v) (h' : g.Strong v w) : g.Strong u w :=
  ⟨h.1.trans h'.1, h'.2.trans h.2⟩

/-- **What `add_edge` adds.** -/
theorem exists_addEdge (h : u ∈ g.nodes) (v : V) :
    ∃ g', g.addEdge u v = .ok g' ∧ g'.nodes = g.nodes ∧
      ∀ x y, g'.Edge x y ↔ g.Edge x y ∨ x = u ∧ y = v := by
  obtain ⟨adj, hget⟩ := mem_nodes_iff.mp h
  refine ⟨⟨g.adjacent.set u (adj ++ [v])⟩, ?_, ?_, fun x y => ?_⟩
  · rw [addEdge, getItem, hget]
    rfl
  · exact (OrderedDict.keys_set g.adjacent u _).trans (if_pos h)
  · simp only [Edge, OrderedDict.get?_set]
    by_cases hx : x = u
    · subst hx
      simp [hget]
    · simp [hx]

/-- **A loop that adds edges**, of which each round adds those of `P`. -/
theorem exists_foldlM {ι : Type} {f : DependencyGraph V → ι → Except GraphError (DependencyGraph V)}
    {nodes : List V} {P : ι → V → V → Prop} (items : List ι)
    (hf : ∀ i ∈ items, ∀ g : DependencyGraph V, g.nodes = nodes → ∃ g', f g i = .ok g' ∧
      g'.nodes = nodes ∧ ∀ x y, g'.Edge x y ↔ g.Edge x y ∨ P i x y)
    (g : DependencyGraph V) (hg : g.nodes = nodes) :
    ∃ g', items.foldlM f g = .ok g' ∧ g'.nodes = nodes ∧
      ∀ x y, g'.Edge x y ↔ g.Edge x y ∨ ∃ i ∈ items, P i x y := by
  induction items generalizing g with
  | nil => exact ⟨g, rfl, hg, by simp⟩
  | cons i items ih =>
    obtain ⟨hi, hitems⟩ := List.forall_mem_cons.mp hf
    obtain ⟨g₁, heq₁, hnodes₁, hedges₁⟩ := hi g hg
    obtain ⟨g₂, heq₂, hnodes₂, hedges₂⟩ := ih hitems g₁ hnodes₁
    refine ⟨g₂, ?_, hnodes₂, fun x y => ?_⟩
    · rw [List.foldlM_cons, heq₁]
      exact heq₂
    · rw [hedges₂, hedges₁, or_assoc]
      simp only [List.mem_cons, exists_eq_or_imp]

theorem nodes_addArc (g : DependencyGraph V) (v : V) :
    (g.addArc v).nodes = if v ∈ g.nodes then g.nodes else g.nodes ++ [v] := by
  have hiff : (g.adjacent.get? v).isSome ↔ v ∈ g.nodes := by
    rw [Option.isSome_iff_exists, mem_nodes_iff]
  rw [addArc]
  split
  next h => rw [if_pos (hiff.mp h)]
  next h => exact OrderedDict.keys_set g.adjacent v []

/-- A new node has no edges. -/
theorem edge_addArc_iff (g : DependencyGraph V) (v x y : V) :
    (g.addArc v).Edge x y ↔ g.Edge x y := by
  rw [addArc]
  split
  · exact Iff.rfl
  next h =>
    have hnone : g.adjacent.get? v = none := by simpa using h
    simp only [Edge, OrderedDict.get?_set]
    by_cases hx : x = v
    · subst hx
      simp [hnone]
    · simp [hx]

/-- New nodes, and no edges. -/
theorem foldl_addArc (nodes : List V) (hnodup : nodes.Nodup) :
    (nodes.foldl addArc empty).nodes = nodes ∧
      ∀ x y, ¬ (nodes.foldl addArc empty).Edge x y := by
  induction nodes using List.reverseRecOn with
  | nil => exact ⟨rfl, fun x y ⟨adj, hget, _⟩ => Option.some_ne_none adj hget.symm⟩
  | append_singleton nodes v ih =>
    obtain ⟨hleft, -, hnot⟩ := List.nodup_append.mp hnodup
    obtain ⟨hnodes, hedges⟩ := ih hleft
    have hv : v ∉ nodes := fun hv => hnot v hv v (List.mem_singleton_self v) rfl
    rw [List.foldl_append, List.foldl_cons, List.foldl_nil]
    refine ⟨?_, fun x y hedge => hedges x y ((edge_addArc_iff _ v x y).mp hedge)⟩
    rw [nodes_addArc, hnodes, if_neg hv]

/-- The inner loop of `update`. -/
theorem exists_addEdges {nodes : List V} (hu : u ∈ nodes) (deps : List V)
    (g : DependencyGraph V) (hg : g.nodes = nodes) :
    ∃ g', deps.foldlM (fun g dep => g.addEdge u dep) g = .ok g' ∧ g'.nodes = nodes ∧
      ∀ x y, g'.Edge x y ↔ g.Edge x y ∨ x = u ∧ y ∈ deps := by
  have hround : ∀ dep ∈ deps, ∀ g : DependencyGraph V, g.nodes = nodes → ∃ g',
      g.addEdge u dep = .ok g' ∧ g'.nodes = nodes ∧
        ∀ x y, g'.Edge x y ↔ g.Edge x y ∨ x = u ∧ y = dep := by
    intro dep _ g hg
    obtain ⟨g', heq, hnodes, hedges⟩ := exists_addEdge (hg.symm ▸ hu) dep
    exact ⟨g', heq, hnodes.trans hg, hedges⟩
  obtain ⟨g', heq, hnodes, hedges⟩ := exists_foldlM deps hround g hg
  refine ⟨g', heq, hnodes, fun x y => ?_⟩
  rw [hedges]
  simp [and_comm]

/-- **What `update` makes of an empty graph.** -/
theorem exists_update (tups : List (V × List V)) (hnodup : (tups.map Prod.fst).Nodup) :
    ∃ g, empty.update tups = .ok g ∧ g.nodes = tups.map Prod.fst ∧
      ∀ x y, g.Edge x y ↔ ∃ t ∈ tups, x = t.1 ∧ y ∈ t.2 := by
  obtain ⟨hnodes, hempty⟩ := foldl_addArc (tups.map Prod.fst) hnodup
  obtain ⟨g, heq, hnodes', hedges⟩ := exists_foldlM tups
    (fun t ht g hg => exists_addEdges (List.mem_map_of_mem ht) t.2 g hg) _ hnodes
  refine ⟨g, ?_, hnodes', fun x y => ?_⟩
  · rw [update, ← List.foldl_map]
    exact heq
  · rw [hedges, or_iff_right (hempty x y)]

/-- What is closed under the edges has all that its members depend on. -/
theorem Depends.mem_of_closed {s : List V} (hs : ∀ v ∈ s, ∀ w, g.Edge v w → w ∈ s)
    (h : g.Depends u v) (hu : u ∈ s) : v ∈ s := by
  induction h with
  | refl => exact hu
  | tail _ hedge ih => exact hs _ ih _ hedge

/-- A path out of a list leaves it by an edge. -/
theorem Depends.exists_edge_out {s : List V} (h : g.Depends u v) (hu : u ∈ s) (hv : v ∉ s) :
    ∃ x ∈ s, ∃ y, y ∉ s ∧ g.Edge x y ∧ g.Depends y v := by
  induction h using Relation.ReflTransGen.head_induction_on with
  | refl => exact absurd hu hv
  | @head a b hedge hpath ih =>
    by_cases hb : b ∈ s
    · exact ih hb
    · exact ⟨a, hu, b, hb, hedge, hpath⟩

/-- Of the nodes of a graph without cycles, there is one that no other depends on. -/
theorem Acyclic.exists_source (h : g.Acyclic) {s : List V} (hs : s ≠ []) :
    ∃ v ∈ s, ∀ u ∈ s, ¬ g.Edge u v := by
  let r : {v // v ∈ s} → {v // v ∈ s} → Prop := fun u v => Relation.TransGen g.Edge u v
  have hirrefl : Std.Irrefl r := ⟨fun v => h v⟩
  have htrans : IsTrans _ r := ⟨fun _ _ _ => Relation.TransGen.trans⟩
  have hwf : WellFounded r := Finite.wellFounded_of_trans_of_irrefl r
  obtain ⟨v, hv⟩ := List.exists_mem_of_ne_nil s hs
  obtain ⟨⟨w, hw⟩, -, hmin⟩ := hwf.has_min Set.univ ⟨⟨v, hv⟩, trivial⟩
  exact ⟨w, hw, fun u hu hedge => hmin ⟨u, hu⟩ trivial (.single hedge)⟩

end DependencyGraph
end Celery
