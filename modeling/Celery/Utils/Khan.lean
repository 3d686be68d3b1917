/-
# `celery/utils/graph.py`: `_khan62`

The topological sort of a `DependencyGraph` (lines 108-131): nodes that no other depends on are
taken out one after another, and the list of them is reversed.

The count of a node is the number of the edges to it from the nodes that have not been taken
(`Khan.Sound`), so that a node is ready once all that depend on it have been taken.  On a graph
without cycles one is ready as long as any is left, and the result has every node once, behind
all that it depends on (`exists_khan62`).
-/

import Celery.Utils.Graph
import Mathlib.Tactic.Ring

namespace Celery
namespace DependencyGraph

variable {V : Type}

/-- The lists of `_khan62`, and its `Counter`. -/
structure Khan (V : Type) where
  result : List V
  ready : List V
  count : V → ℤ

variable [DecidableEq V]

/-- `count[v] += n`. -/
def Khan.add (count : V → ℤ) (v : V) (n : ℤ) : V → ℤ := Function.update count v (count v + n)

/-- `count[successor] -= 1`, after which the successor may be ready. -/
def Khan.release (s : Khan V) (successor : V) : Khan V :=
  let count := add s.count successor (-1)
  { s with
    count := count
    ready := if count successor = 0 then s.ready ++ [successor] else s.ready }

/-- The first loop, which counts the edges to each node. -/
def inDegrees (g : DependencyGraph V) : V → ℤ :=
  g.adjacent.items.foldl
    (fun count e => e.2.foldl (fun count successor => Khan.add count successor 1) count)
    fun _ => 0

/-- The second loop.  The fuel is for its rounds. -/
def khanFrom (g : DependencyGraph V) : ℕ → Khan V → Except GraphError (List V)
  | 0, s => if s.ready = [] then .ok s.result.reverse else .error .fuel
  | fuel + 1, s =>
    match s.ready.getLast? with
    | none => .ok s.result.reverse
    | some node => do
      let adj ← g.getItem node
      g.khanFrom fuel (adj.foldl Khan.release
        { s with result := s.result ++ [node], ready := s.ready.dropLast })

/-- `_khan62`.  No node is taken twice. -/
def khan62 (g : DependencyGraph V) : Except GraphError (List V) :=
  g.khanFrom g.nodes.length
    ⟨[], g.nodes.filter fun node => g.inDegrees node = 0, g.inDegrees⟩

/-! ## What the loops count -/

namespace Khan

theorem add_apply (count : V → ℤ) (v w : V) (n : ℤ) :
    add count w n v = count v + [w].count v * n := by
  rw [add, Function.update_apply]
  by_cases hv : v = w
  · subst hv
    simp
  · have hne : w ≠ v := fun heq => hv heq.symm
    simp [hv, hne]

theorem count_cons_eq (v w : V) (adj : List V) :
    (w :: adj).count v = [w].count v + adj.count v := by
  rw [← List.count_append, List.singleton_append]

theorem foldl_add (adj : List V) (n : ℤ) (count : V → ℤ) (v : V) :
    adj.foldl (fun count successor => add count successor n) count v =
      count v + adj.count v * n := by
  induction adj generalizing count with
  | nil => simp
  | cons w adj ih =>
    rw [List.foldl_cons, ih, add_apply, count_cons_eq v w adj]
    push_cast
    ring

theorem count_release (s : Khan V) (successor v : V) :
    (s.release successor).count v = s.count v - [successor].count v := by
  have happly : (s.release successor).count v = _ := add_apply s.count v successor (-1)
  omega

theorem ready_release (s : Khan V) (successor : V) :
    (s.release successor).ready =
      if s.count successor = 1 then s.ready ++ [successor] else s.ready := by
  have hiff : (s.release successor).count successor = 0 ↔ s.count successor = 1 := by
    rw [count_release, List.count_singleton_self]
    omega
  exact if_congr hiff rfl rfl

theorem result_foldl_release (adj : List V) (s : Khan V) :
    (adj.foldl release s).result = s.result := by
  induction adj generalizing s with
  | nil => rfl
  | cons w adj ih => rw [List.foldl_cons, ih, release]

/-- **Releasing the successors** of a node makes those ready to which it had all edges. -/
theorem foldl_release (adj : List V) (s : Khan V) (h : ∀ v, (adj.count v : ℤ) ≤ s.count v) :
    ∃ new, (adj.foldl release s).ready = s.ready ++ new ∧ new.Nodup ∧
      (∀ v, v ∈ new ↔ v ∈ adj ∧ s.count v = adj.count v) ∧
      ∀ v, (adj.foldl release s).count v = s.count v - adj.count v := by
  induction adj generalizing s with
  | nil => exact ⟨[], (List.append_nil _).symm, List.nodup_nil, by simp, by simp⟩
  | cons w adj ih =>
    obtain ⟨new, hready, hnodup, hmem, hleft⟩ := ih (s.release w) fun v => by
      have hle := h v
      rw [count_cons_eq v w adj] at hle
      rw [count_release]
      omega
    have hcount : ∀ v, (s.release w).count v = adj.count v ↔ s.count v = (w :: adj).count v := by
      intro v
      rw [count_release, count_cons_eq v w adj]
      omega
    have hw := count_cons_eq w w adj
    rw [List.count_singleton_self] at hw
    refine ⟨(if s.count w = 1 then [w] else []) ++ new, ?_, ?_, fun v => ?_, fun v => ?_⟩
    · rw [List.foldl_cons, hready, ready_release]
      split <;> simp
    · split
      next hone =>
        refine List.nodup_cons.mpr ⟨fun hnew => ?_, hnodup⟩
        -- the last edge to `w` has been released already
        obtain ⟨hadj, heq⟩ := (hmem w).mp hnew
        have hpos := List.count_pos_iff.mpr hadj
        have hsame := (hcount w).mp heq
        omega
      · exact hnodup
    · rw [List.mem_append, hmem, hcount, List.mem_cons]
      by_cases hv : v = w
      · subst hv
        have hle := h v
        have hpos : v ∈ adj ↔ 0 < adj.count v := List.count_pos_iff.symm
        rw [hpos]
        split
        next hone => exact ⟨fun _ => ⟨.inl rfl, by omega⟩, fun _ => .inl (List.mem_singleton_self v)⟩
        next hone =>
          simp only [List.not_mem_nil, false_or, true_or, true_and]
          omega
      · have hnot : v ∉ (if s.count w = 1 then [w] else []) := by
          split <;> simp [hv]
        simp only [hnot, hv, false_or]
    · rw [List.foldl_cons, hleft, count_release, count_cons_eq v w adj]
      omega

/-! ## The invariant -/

/-- What holds before each round of the second loop; `rest` is the graph without the nodes that
have been taken. -/
structure Sound (g : DependencyGraph V) (s : Khan V) (rest : OrderedDict V (List V)) : Prop where
  get? : ∀ v, rest.get? v = if v ∈ s.result then none else g.adjacent.get? v
  count : ∀ v, s.count v = rest.weight (List.count v)
  nodup : (s.result ++ s.ready).Nodup
  mem_nodes : ∀ v ∈ s.result, v ∈ g.nodes
  mem_ready : ∀ v, v ∈ s.ready ↔ v ∈ g.nodes ∧ v ∉ s.result ∧ s.count v = 0
  before : ∀ u v, g.Edge u v → v ∈ s.result → [u, v].Sublist s.result

variable {g : DependencyGraph V} {s : Khan V} {rest : OrderedDict V (List V)} {u v node : V}

/-- An edge is counted as long as its node has not been taken. -/
theorem Sound.count_pos (h : s.Sound g rest) (hedge : g.Edge u v) (hu : u ∉ s.result) :
    0 < s.count v := by
  obtain ⟨adj, hget, hv⟩ := hedge
  have hrest : rest.get? u = some adj := by rw [h.get?, if_neg hu, hget]
  have hweight := OrderedDict.weight_pop (List.count v) rest u
  rw [hrest, Option.map_some, Option.getD_some] at hweight
  have hpos := List.count_pos_iff.mpr hv
  have hcount := h.count v
  omega

/-- A node that all edges come to from nodes that have been taken is counted no more. -/
theorem Sound.count_eq_zero (h : s.Sound g rest) (hv : ∀ u, g.Edge u v → u ∈ s.result) :
    s.count v = 0 := by
  rw [h.count, OrderedDict.weight, Nat.cast_eq_zero]
  refine List.sum_eq_zero fun n hn => ?_
  obtain ⟨⟨u, adj⟩, he, rfl⟩ := List.mem_map.mp hn
  have hget := h.get? u
  rw [OrderedDict.get?_of_mem he] at hget
  refine List.count_eq_zero.mpr fun hmem => ?_
  split at hget
  · cases hget
  next hu => exact hu (hv u ⟨adj, hget.symm, hmem⟩)

/-- **One round** takes a node that is ready. -/
theorem Sound.step (h : s.Sound g rest) (hg : g.Closed) {ready : List V} {adj : List V}
    (hready : s.ready = ready ++ [node]) (hget : g.adjacent.get? node = some adj) :
    Sound g (adj.foldl release { s with result := s.result ++ [node], ready := ready })
      (rest.pop node) := by
  have hnode : node ∈ s.ready := hready ▸ List.mem_append_right _ (List.mem_singleton_self node)
  obtain ⟨hnodes, hnot, hzero⟩ := (h.mem_ready node).mp hnode
  have hweight : ∀ v, s.count v = adj.count v + (rest.pop node).weight (List.count v) := by
    intro v
    rw [h.count, OrderedDict.weight_pop (List.count v) rest node, h.get?, if_neg hnot, hget]
    rfl
  have hresult := result_foldl_release adj
    { s with result := s.result ++ [node], ready := ready }
  obtain ⟨new, hready', hnodup, hmem, hcount⟩ :=
    foldl_release adj { s with result := s.result ++ [node], ready := ready } fun v => by
      have heq := hweight v
      simp only
      omega
  have hnodup' := h.nodup
  rw [hready] at hnodup'
  have hdisjoint : ∀ v ∈ new, v ∉ s.result ++ [node] ++ ready := by
    intro v hv hin
    obtain ⟨hadj, heq⟩ := (hmem v).mp hv
    have hpos := List.count_pos_iff.mpr hadj
    simp only at heq
    rw [List.append_assoc] at hin
    rcases List.mem_append.mp hin with hin | hin
    · exact hnot ((h.before node v ⟨adj, hget, hadj⟩ hin).subset List.mem_cons_self)
    · -- what is ready is counted no more
      have hin' : v ∈ s.ready := hready ▸ (List.perm_append_comm.mem_iff.mp hin)
      have hzero' := ((h.mem_ready v).mp hin').2.2
      omega
  have hnew : ∀ v ∈ new, v ∈ g.nodes := fun v hv => hg node v ⟨adj, hget, ((hmem v).mp hv).1⟩
  have hperm : (s.result ++ (ready ++ [node])).Perm (s.result ++ [node] ++ ready) := by
    rw [List.append_assoc]
    exact List.perm_append_comm.append_left s.result
  refine ⟨?_, ?_, ?_, ?_, ?_, ?_⟩
  · intro v
    rw [OrderedDict.get?_pop, h.get?, hresult]
    simp only [List.mem_append, List.mem_singleton]
    by_cases hv : v = node <;> simp [hv]
  · intro v
    have heq := hweight v
    rw [hcount]
    simp only
    omega
  · rw [hresult, hready', ← List.append_assoc]
    exact (hperm.nodup_iff.mp hnodup').append hnodup fun v hold hv => hdisjoint v hv hold
  · intro v hv
    rw [hresult] at hv
    rcases List.mem_append.mp hv with hv | hv
    · exact h.mem_nodes v hv
    · exact List.mem_singleton.mp hv ▸ hnodes
  · intro v
    rw [hresult, hready', hcount]
    have hready_iff : v ∈ ready ↔ v ∈ s.ready ∧ v ≠ node := by
      rw [hready, List.mem_append, List.mem_singleton]
      constructor
      · intro hv
        refine ⟨.inl hv, ?_⟩
        rintro rfl
        exact List.disjoint_of_nodup_append (List.nodup_append.mp hnodup').2.1 hv
          (List.mem_singleton_self v)
      · rintro ⟨hv, hne⟩
        exact hv.resolve_right hne
    have hle := hweight v
    simp only [List.mem_append, List.mem_singleton, not_or]
    constructor
    · rintro (hv | hv)
      · obtain ⟨hin, hne⟩ := hready_iff.mp hv
        obtain ⟨hv', hres, hzero'⟩ := (h.mem_ready v).mp hin
        exact ⟨hv', ⟨hres, hne⟩, by omega⟩
      · have hnot' := hdisjoint v hv
        simp only [List.mem_append, List.mem_singleton, not_or] at hnot'
        have heq := ((hmem v).mp hv).2
        simp only at heq
        exact ⟨hnew v hv, hnot'.1, by omega⟩
    · rintro ⟨hv, ⟨hres, hne⟩, heq⟩
      by_cases hadj : v ∈ adj
      · exact .inr ((hmem v).mpr ⟨hadj, by simp only; omega⟩)
      · have hcount' := List.count_eq_zero.mpr hadj
        exact .inl (hready_iff.mpr ⟨(h.mem_ready v).mpr ⟨hv, hres, by omega⟩, hne⟩)
  · intro u v hedge hv
    rw [hresult] at hv ⊢
    rcases List.mem_append.mp hv with hv | hv
    · exact (h.before u v hedge hv).trans (List.sublist_append_left _ _)
    · obtain rfl := List.mem_singleton.mp hv
      have hu : u ∈ s.result := by
        by_contra hu
        have hpos := h.count_pos hedge hu
        omega
      exact (List.singleton_sublist.mpr hu).append (.refl [v])

/-- What is taken and what is ready are nodes, each once. -/
theorem Sound.length_le (h : s.Sound g rest) :
    s.result.length + s.ready.length ≤ g.nodes.length := by
  rw [← List.length_append]
  refine (List.subperm_of_subset h.nodup fun v hv => ?_).length_le
  rcases List.mem_append.mp hv with hv | hv
  · exact h.mem_nodes v hv
  · exact ((h.mem_ready v).mp hv).1

/-- **Nothing is left** in a graph without cycles when no node is ready. -/
theorem Sound.perm_of_ready_eq_nil (h : s.Sound g rest) (hacyclic : g.Acyclic)
    (hready : s.ready = []) : s.result.Perm g.nodes := by
  have hnodup := h.nodup
  rw [hready, List.append_nil] at hnodup
  refine (List.perm_ext_iff_of_nodup hnodup g.adjacent.nodup).mpr fun v =>
    ⟨h.mem_nodes v, fun hv => ?_⟩
  by_contra hnot
  have hleft : g.nodes.filter (· ∉ s.result) ≠ [] :=
    List.ne_nil_of_mem (List.mem_filter.mpr ⟨hv, by simpa using hnot⟩)
  obtain ⟨w, hw, hsource⟩ := hacyclic.exists_source hleft
  obtain ⟨hwnodes, hwnot⟩ := List.mem_filter.mp hw
  have hzero : s.count w = 0 := h.count_eq_zero fun u hedge => by
    by_contra hu
    exact hsource u (List.mem_filter.mpr ⟨hedge.mem_nodes, by simpa using hu⟩) hedge
  have hmem := (h.mem_ready w).mpr ⟨hwnodes, by simpa using hwnot, hzero⟩
  rw [hready] at hmem
  exact List.not_mem_nil hmem

/-- **The list reversed** is sorted then. -/
theorem Sound.sorted_of_ready_eq_nil (h : s.Sound g rest) (hg : g.Closed) (hacyclic : g.Acyclic)
    (hready : s.ready = []) : s.result.reverse.Perm g.nodes ∧
      ∀ u v, g.Edge u v → [v, u].Sublist s.result.reverse := by
  have hperm := h.perm_of_ready_eq_nil hacyclic hready
  refine ⟨s.result.reverse_perm.trans hperm, fun u v hedge => ?_⟩
  exact List.reverse_sublist.mpr (h.before u v hedge (hperm.mem_iff.mpr (hg u v hedge)))

/-- What holds before the first round. -/
theorem sound_start (g : DependencyGraph V) :
    Sound g ⟨[], g.nodes.filter fun node => g.inDegrees node = 0, g.inDegrees⟩ g.adjacent where
  get? := by simp
  count := by
    intro v
    have hfold : ∀ (items : List (V × List V)) (count : V → ℤ),
        items.foldl (fun count e => e.2.foldl (fun count w => add count w 1) count) count v =
          count v + (items.map fun e => e.2.count v).sum := by
      intro items
      induction items with
      | nil => simp
      | cons e items ih =>
        intro count
        rw [List.foldl_cons, ih, foldl_add, List.map_cons, List.sum_cons]
        push_cast
        ring
    simpa [inDegrees, OrderedDict.weight] using hfold g.adjacent.items fun _ => 0
  nodup := g.adjacent.nodup.filter _
  mem_nodes := by simp
  mem_ready := by simp
  before := by simp

end Khan

variable {g : DependencyGraph V} {s : Khan V} {rest : OrderedDict V (List V)}

/-- **The loop takes every node** of a graph without cycles, after all that depend on it. -/
theorem exists_khanFrom (hg : g.Closed) (hacyclic : g.Acyclic) (fuel : ℕ)
    (h : s.Sound g rest) (hfuel : g.nodes.length ≤ s.result.length + fuel) :
    ∃ result, g.khanFrom fuel s = .ok result ∧ result.Perm g.nodes ∧
      ∀ u v, g.Edge u v → [v, u].Sublist result := by
  induction fuel generalizing s rest with
  | zero =>
    have hle := h.length_le
    have hready : s.ready = [] := List.length_eq_zero_iff.mp (by omega)
    exact ⟨_, if_pos hready, h.sorted_of_ready_eq_nil hg hacyclic hready⟩
  | succ fuel ih =>
    rcases List.eq_nil_or_concat' s.ready with hready | ⟨ready, node, hready⟩
    · refine ⟨_, ?_, h.sorted_of_ready_eq_nil hg hacyclic hready⟩
      rw [khanFrom, hready, List.getLast?_nil]
    · obtain ⟨hnode, -⟩ := (h.mem_ready node).mp (by simp [hready])
      obtain ⟨adj, hget⟩ := mem_nodes_iff.mp hnode
      have hstep := h.step hg hready hget
      obtain ⟨result, hresult, hsorted⟩ := ih hstep (by
        rw [Khan.result_foldl_release, List.length_append, List.length_singleton]
        omega)
      refine ⟨result, ?_, hsorted⟩
      rw [khanFrom, hready, List.getLast?_concat, List.dropLast_concat]
      dsimp only
      rw [getItem, hget]
      exact hresult

/-- **`_khan62` sorts a graph without cycles.** -/
theorem exists_khan62 (hg : g.Closed) (hacyclic : g.Acyclic) :
    ∃ result, g.khan62 = .ok result ∧ result.Perm g.nodes ∧
      ∀ u v, g.Edge u v → [v, u].Sublist result :=
  exists_khanFrom hg hacyclic _ (Khan.sound_start g) (Nat.le_add_left _ _)

end DependencyGraph
end Celery
