/-
# `celery/utils/graph.py`: `_tarjan72`

The strongly connected components of a `DependencyGraph` (lines 133-162).  One dict has the
numbers of the nodes, the lowest number that was seen from each, and a number above all once
the component of a node is known.

All that is on the stack reaches the node that is visited next.  A visit leaves on the stack
what depends on something below it (`Visited`), and where `low` of the node is its own number,
no edge leads below it: what is above is closed but for finished nodes, and so it is the
component (`Scanned.mem_iff_strong`).  Each node is in one component (`exists_tarjan72`).  An
edge that leads to no node raises a `KeyError` (`closed_of_tarjan72`).

That the depth of the recursion is limited is left out.
-/

import Celery.Utils.Graph

namespace Celery
namespace DependencyGraph

variable {V : Type}

/-- The lists and the dict of `_tarjan72`. -/
structure Tarjan (V : Type) where
  result : List (List V)
  stack : List V
  low : OrderedDict V ℕ

namespace Tarjan

variable [DecidableEq V]

/-- `low[node]`, which is there once `node` has been visited. -/
def lowOf (s : Tarjan V) (node : V) : ℕ := (s.low.get? node).getD 0

/-- The start of a visit: `low[node] = num` and `stack.append(node)`. -/
def enter (s : Tarjan V) (node : V) : Tarjan V :=
  { s with low := s.low.set node s.low.keys.length, stack := s.stack ++ [node] }

/-- `low[node] = min(low[node], low[successor])`. -/
def lower (s : Tarjan V) (node successor : V) : Tarjan V :=
  { s with low := s.low.set node (min (s.lowOf node) (s.lowOf successor)) }

/-- The component that a visit ends with: what is on the stack from `pos` on. -/
def close (s : Tarjan V) (pos len : ℕ) : Tarjan V where
  result := s.result ++ [s.stack.drop pos]
  stack := s.stack.take pos
  low := (s.stack.drop pos).foldl (fun low item => low.set item len) s.low

end Tarjan

variable [DecidableEq V]

/-- `visit`.  The fuel is for the depth of the recursion. -/
def visit (g : DependencyGraph V) : ℕ → V → Tarjan V → Except GraphError (Tarjan V)
  | 0, node, s => if (s.low.get? node).isSome then .ok s else .error .fuel
  | fuel + 1, node, s =>
    if (s.low.get? node).isSome then .ok s
    else do
      let num := s.low.keys.length
      let pos := s.stack.length
      let adj ← g.getItem node
      let s ← adj.foldlM
        (fun s successor => (g.visit fuel successor s).map (·.lower node successor))
        (s.enter node)
      .ok (if num = s.lowOf node then s.close pos g.nodes.length else s)

/-- `_tarjan72`.  Each visit that another one is in the middle of is of another node. -/
def tarjan72 (g : DependencyGraph V) : Except GraphError (List (List V)) := do
  let s ← g.nodes.foldlM (fun s node => g.visit (g.nodes.length + 1) node s) ⟨[], [], .empty⟩
  .ok s.result

/-! ## What the dict has -/

namespace Tarjan

/-- The nodes that have been visited, in the order of their numbers. -/
def visited (s : Tarjan V) : List V := s.low.keys

/-- The nodes whose component is known. -/
def finished (s : Tarjan V) : List V := s.result.flatten

/-- The number a visited node was given. -/
def num (s : Tarjan V) (node : V) : ℕ := s.visited.idxOf node

variable {s t : Tarjan V} {node v w : V}

omit [DecidableEq V] in
theorem nodup_visited (s : Tarjan V) : s.visited.Nodup := s.low.nodup

theorem mem_visited_iff : v ∈ s.visited ↔ (s.low.get? v).isSome := by
  rw [visited, OrderedDict.mem_keys_iff, Option.isSome_iff_exists]

theorem visited_enter (h : node ∉ s.visited) : (s.enter node).visited = s.visited ++ [node] :=
  (OrderedDict.keys_set s.low node _).trans (if_neg h)

theorem visited_lower (h : node ∈ s.visited) (successor : V) :
    (s.lower node successor).visited = s.visited :=
  (OrderedDict.keys_set s.low node _).trans (if_pos h)

theorem lowOf_enter (s : Tarjan V) (node v : V) :
    (s.enter node).lowOf v = if v = node then s.visited.length else s.lowOf v := by
  rw [lowOf, enter, OrderedDict.get?_set]
  split <;> rfl

theorem lowOf_lower (s : Tarjan V) (node successor v : V) :
    (s.lower node successor).lowOf v =
      if v = node then min (s.lowOf node) (s.lowOf successor) else s.lowOf v := by
  rw [lowOf, lower, OrderedDict.get?_set]
  split <;> rfl

/-- What setting all items of a component does to a dict. -/
theorem keys_foldl_set (items : List V) (n : ℕ) (d : OrderedDict V ℕ)
    (h : ∀ v ∈ items, v ∈ d.keys) : (items.foldl (fun d v => d.set v n) d).keys = d.keys := by
  induction items generalizing d with
  | nil => rfl
  | cons v items ih =>
    obtain ⟨hv, hitems⟩ := List.forall_mem_cons.mp h
    have hkeys : (d.set v n).keys = d.keys := (OrderedDict.keys_set d v n).trans (if_pos hv)
    rw [List.foldl_cons, ih _ (hkeys ▸ hitems), hkeys]

theorem get?_foldl_set (items : List V) (n : ℕ) (d : OrderedDict V ℕ) (v : V) :
    (items.foldl (fun d v => d.set v n) d).get? v =
      if v ∈ items then some n else d.get? v := by
  induction items generalizing d with
  | nil => rfl
  | cons w items ih =>
    rw [List.foldl_cons, ih, OrderedDict.get?_set]
    by_cases hv : v ∈ items
    · simp [hv]
    · simp [hv]

theorem visited_close (h : ∀ v ∈ s.stack, v ∈ s.visited) (pos len : ℕ) :
    (s.close pos len).visited = s.visited :=
  keys_foldl_set _ len s.low fun v hv => h v (List.mem_of_mem_drop hv)

theorem lowOf_close (s : Tarjan V) (pos len : ℕ) (v : V) :
    (s.close pos len).lowOf v = if v ∈ s.stack.drop pos then len else s.lowOf v := by
  rw [lowOf, close, get?_foldl_set]
  split <;> rfl

end Tarjan

/-! ## The invariant -/

/-- What holds of the lists and the dict between the visits.

The nodes visited are those finished and those on the stack, which keeps the order of the
numbers.  From a node on the stack, its `low` is the number of a node there that it depends on.
The result has components, and what a finished node depends on is finished. -/
structure Tarjan.Sound (g : DependencyGraph V) (s : Tarjan V) : Prop where
  mem_nodes : ∀ v ∈ s.visited, v ∈ g.nodes
  perm : s.visited.Perm (s.finished ++ s.stack)
  sublist : s.stack.Sublist s.visited
  low_finished : ∀ v ∈ s.finished, s.lowOf v = g.nodes.length
  low_stack : ∀ v ∈ s.stack, ∃ w ∈ s.stack,
    s.lowOf v = s.num w ∧ s.num w ≤ s.num v ∧ g.Depends v w
  strong : ∀ c ∈ s.result, c ≠ [] ∧ ∀ v ∈ c, ∀ w, w ∈ c ↔ g.Strong v w
  closed : ∀ v ∈ s.finished, ∀ w, g.Edge v w → w ∈ s.finished

/-- What a visit of `node` does: `added` are the nodes it has visited, and `new` those that it
leaves on the stack, which depend on some that were there.  No edge from `new` goes further
back than `low` of `node` does. -/
structure Tarjan.Visited (g : DependencyGraph V) (node : V) (s t : Tarjan V)
    (added new : List V) : Prop where
  sound : t.Sound g
  visited : t.visited = s.visited ++ added
  stack : t.stack = s.stack ++ new
  mem : node ∈ t.visited
  subset : ∀ v ∈ new, v ∈ added
  low : ∀ v ∈ s.visited, t.lowOf v = s.lowOf v
  depends : ∀ v ∈ added, g.Depends node v
  edges : ∀ v ∈ added, ∀ w, g.Edge v w → w ∈ t.visited
  back : ∀ v ∈ new, ∃ w ∈ s.stack, g.Depends v w
  low_le : ∀ v ∈ new, ∀ w ∈ s.stack, g.Edge v w → t.lowOf node ≤ s.num w

/-- What the visit of `node` has done after the successors `done`, from `s` before it. -/
structure Tarjan.Scanned (g : DependencyGraph V) (node : V) (s : Tarjan V) (done : List V)
    (t : Tarjan V) (added new : List V) : Prop where
  sound : t.Sound g
  visited : t.visited = s.visited ++ node :: added
  stack : t.stack = s.stack ++ node :: new
  subset : ∀ v ∈ new, v ∈ added
  low : ∀ v ∈ s.visited, t.lowOf v = s.lowOf v
  depends : ∀ v ∈ added, g.Depends node v
  edges : ∀ v ∈ added, ∀ w, g.Edge v w → w ∈ t.visited
  mem_of_done : ∀ w ∈ done, w ∈ t.visited
  back : ∀ v ∈ new, g.Depends v node
  low_le : ∀ v ∈ new, ∀ w ∈ s.stack, g.Edge v w → t.lowOf node ≤ s.num w
  low_le_done : ∀ w ∈ done, w ∈ s.stack → t.lowOf node ≤ s.num w

namespace Tarjan

variable {g : DependencyGraph V} {s t u : Tarjan V} {node successor v w : V}
  {done added new added' new' : List V}

namespace Sound

variable (h : s.Sound g)
include h

theorem mem_visited_of_mem_stack (hv : v ∈ s.stack) : v ∈ s.visited := h.sublist.subset hv

theorem nodup : (s.finished ++ s.stack).Nodup := h.perm.nodup_iff.mp s.nodup_visited

theorem not_mem_finished (hv : v ∈ s.stack) : v ∉ s.finished :=
  fun hf => List.disjoint_of_nodup_append h.nodup hf hv

theorem mem_stack_or (hv : v ∈ s.visited) : v ∈ s.finished ∨ v ∈ s.stack :=
  List.mem_append.mp (h.perm.mem_iff.mp hv)

theorem num_lt (hv : v ∈ s.visited) : s.num v < g.nodes.length := by
  have hsub : s.visited.Subperm g.nodes := List.subperm_of_subset s.nodup_visited h.mem_nodes
  exact (List.idxOf_lt_length_iff.mpr hv).trans_le hsub.length_le

end Sound

/-- Numbers do not change. -/
theorem num_of_visited_eq (h : t.visited = s.visited ++ added) (hv : v ∈ s.visited) :
    t.num v = s.num v := by
  rw [num, h, List.idxOf_append_of_mem hv, num]

/-- The number of the node that comes next. -/
theorem num_of_visited_eq_cons (h : t.visited = s.visited ++ node :: added)
    (hnode : node ∉ s.visited) : t.num node = s.visited.length := by
  rw [num, h, List.idxOf_append_of_notMem hnode, List.idxOf_cons_self, Nat.add_zero]

theorem length_le_num (h : t.visited = s.visited ++ added) (hv : v ∉ s.visited) :
    s.visited.length ≤ t.num v := by
  rw [num, h, List.idxOf_append_of_notMem hv]
  exact Nat.le_add_right _ _

theorem num_lt_length (hv : v ∈ s.visited) : s.num v < s.visited.length :=
  List.idxOf_lt_length_iff.mpr hv

/-- Entering a visit. -/
theorem Sound.enter (h : s.Sound g) (hnode : node ∈ g.nodes) (hnew : node ∉ s.visited) :
    (s.enter node).Sound g where
  mem_nodes := by
    intro v hv
    rw [visited_enter hnew] at hv
    rcases List.mem_append.mp hv with hv | hv
    · exact h.mem_nodes v hv
    · exact List.mem_singleton.mp hv ▸ hnode
  perm := by
    rw [visited_enter hnew]
    exact (h.perm.append_right [node]).trans (.of_eq (List.append_assoc ..))
  sublist := by
    rw [visited_enter hnew]
    exact h.sublist.append_right [node]
  low_finished := by
    intro v hv
    have hne : v ≠ node := by
      rintro rfl
      exact hnew (h.perm.mem_iff.mpr (List.mem_append_left _ hv))
    rw [lowOf_enter, if_neg hne]
    exact h.low_finished v hv
  low_stack := by
    intro v hv
    rcases List.mem_append.mp hv with hv | hv
    · obtain ⟨w, hw, hlow, hle, hpath⟩ := h.low_stack v hv
      have hv' := h.mem_visited_of_mem_stack hv
      have hne : v ≠ node := fun heq => hnew (heq ▸ hv')
      refine ⟨w, List.mem_append_left _ hw, ?_⟩
      rw [lowOf_enter, if_neg hne, num_of_visited_eq (visited_enter hnew) hv',
        num_of_visited_eq (visited_enter hnew) (h.mem_visited_of_mem_stack hw)]
      exact ⟨hlow, hle, hpath⟩
    · obtain rfl := List.mem_singleton.mp hv
      refine ⟨v, List.mem_append_right _ hv, ?_, le_rfl, .refl v⟩
      rw [lowOf_enter, if_pos rfl, num_of_visited_eq_cons (visited_enter hnew) hnew]
  strong := h.strong
  closed := h.closed

/-- Lowering `low` of a node on the stack by an edge. -/
theorem Sound.lower (h : s.Sound g) (hnode : node ∈ s.stack) (hsuccessor : successor ∈ s.visited)
    (hedge : g.Edge node successor) : (s.lower node successor).Sound g := by
  have hvisited := visited_lower (h.mem_visited_of_mem_stack hnode) successor
  have hnum : ∀ v, (s.lower node successor).num v = s.num v := fun v => by
    rw [num, hvisited, num]
  refine ⟨?_, ?_, ?_, ?_, ?_, h.strong, h.closed⟩
  · rw [hvisited]
    exact h.mem_nodes
  · rw [hvisited]
    exact h.perm
  · rw [hvisited]
    exact h.sublist
  · intro v hv
    have hne : v ≠ node := fun heq => h.not_mem_finished hnode (heq ▸ hv)
    rw [lowOf_lower, if_neg hne]
    exact h.low_finished v hv
  · intro v hv
    simp only [hnum]
    rw [lowOf_lower]
    split
    next heq =>
      subst heq
      obtain ⟨w, hw, hlow, hle, hpath⟩ := h.low_stack v hv
      rcases Nat.le_total (s.lowOf v) (s.lowOf successor) with hmin | hmin
      · exact ⟨w, hw, (Nat.min_eq_left hmin).trans hlow, hle, hpath⟩
      · -- a finished node has a higher `low` than any on the stack
        have hstack : successor ∈ s.stack := by
          refine (h.mem_stack_or hsuccessor).resolve_left fun hfinished => ?_
          have hlt := h.num_lt (h.mem_visited_of_mem_stack hw)
          have hlen := h.low_finished successor hfinished
          omega
        obtain ⟨x, hx, hlowx, -, hpathx⟩ := h.low_stack successor hstack
        exact ⟨x, hx, (Nat.min_eq_right hmin).trans hlowx, by omega, hedge.depends.trans hpathx⟩
    next hne => exact h.low_stack v hv

/-! ## One visit -/

/-- What `visit` has done before the first successor. -/
theorem Sound.scanned_nil (h : s.Sound g) (hnode : node ∈ g.nodes) (hnew : node ∉ s.visited) :
    Scanned g node s [] (s.enter node) [] [] where
  sound := h.enter hnode hnew
  visited := visited_enter hnew
  stack := rfl
  subset := by simp
  low := by
    intro v hv
    have hne : v ≠ node := fun heq => hnew (heq ▸ hv)
    rw [lowOf_enter, if_neg hne]
  depends := by simp
  edges := by simp
  mem_of_done := by simp
  back := by simp
  low_le := by simp
  low_le_done := by simp

namespace Scanned

variable (h : Scanned g node s done t added new)
include h

theorem not_mem_visited : node ∉ s.visited := by
  have hnodup := h.visited ▸ t.nodup_visited
  exact fun hmem => List.disjoint_of_nodup_append hnodup hmem List.mem_cons_self

theorem mem_stack : node ∈ t.stack := by
  rw [h.stack]
  exact List.mem_append_right _ List.mem_cons_self

/-- All that is on the stack reaches the node that is visited. -/
theorem depends_node (hreach : ∀ v ∈ s.stack, g.Depends v node) (hv : v ∈ t.stack) :
    g.Depends v node := by
  rw [h.stack, List.mem_append, List.mem_cons] at hv
  rcases hv with hv | rfl | hv
  · exact hreach v hv
  · exact .refl v
  · exact h.back v hv

/-- **The next successor.** -/
theorem step (hreach : ∀ v ∈ s.stack, g.Depends v node) (hs : s.Sound g)
    (hedge : g.Edge node successor) (hvisit : Visited g successor t u added' new') :
    Scanned g node s (done ++ [successor]) (u.lower node successor) (added ++ added')
      (new ++ new') := by
  have hstack : u.stack = s.stack ++ node :: (new ++ new') := by
    rw [hvisit.stack, h.stack, List.append_assoc, List.cons_append]
  have hnode : node ∈ u.stack := hvisit.stack ▸ List.mem_append_left _ h.mem_stack
  have hvisited := visited_lower (hvisit.sound.mem_visited_of_mem_stack hnode) successor
  have hnot := h.not_mem_visited
  have hgrown : ∀ v ∈ t.visited, v ∈ u.visited := fun v hv =>
    hvisit.visited ▸ List.mem_append_left _ hv
  have hold : ∀ v ∈ s.visited, v ∈ t.visited := fun v hv =>
    h.visited ▸ List.mem_append_left _ hv
  have hlow : (u.lower node successor).lowOf node = min (t.lowOf node) (u.lowOf successor) := by
    rw [lowOf_lower, if_pos rfl, hvisit.low node (h.sound.mem_visited_of_mem_stack h.mem_stack)]
  have hnum : ∀ w ∈ s.stack, t.num w = s.num w := fun w hw =>
    num_of_visited_eq h.visited (hs.mem_visited_of_mem_stack hw)
  refine ⟨hvisit.sound.lower hnode hvisit.mem hedge, ?_, hstack, ?_, ?_, ?_, ?_, ?_, ?_, ?_, ?_⟩
  · rw [hvisited, hvisit.visited, h.visited, List.append_assoc, List.cons_append]
  · intro v hv
    rcases List.mem_append.mp hv with hv | hv
    · exact List.mem_append_left _ (h.subset v hv)
    · exact List.mem_append_right _ (hvisit.subset v hv)
  · intro v hv
    have hne : v ≠ node := fun heq => hnot (heq ▸ hv)
    rw [lowOf_lower, if_neg hne, hvisit.low v (hold v hv), h.low v hv]
  · intro v hv
    rcases List.mem_append.mp hv with hv | hv
    · exact h.depends v hv
    · exact hedge.depends.trans (hvisit.depends v hv)
  · intro v hv w hw
    rw [hvisited]
    rcases List.mem_append.mp hv with hv | hv
    · exact hgrown w (h.edges v hv w hw)
    · exact hvisit.edges v hv w hw
  · intro w hw
    rw [hvisited]
    rcases List.mem_append.mp hw with hw | hw
    · exact hgrown w (h.mem_of_done w hw)
    · exact List.mem_singleton.mp hw ▸ hvisit.mem
  · intro v hv
    rcases List.mem_append.mp hv with hv | hv
    · exact h.back v hv
    · obtain ⟨w, hw, hpath⟩ := hvisit.back v hv
      exact hpath.trans (h.depends_node hreach hw)
  · intro v hv w hw hvw
    rw [hlow]
    rcases List.mem_append.mp hv with hv | hv
    · exact (Nat.min_le_left _ _).trans (h.low_le v hv w hw hvw)
    · have hw' : w ∈ t.stack := h.stack ▸ List.mem_append_left _ hw
      exact (Nat.min_le_right _ _).trans (hnum w hw ▸ hvisit.low_le v hv w hw' hvw)
  · intro w hw hwstack
    rw [hlow]
    rcases List.mem_append.mp hw with hw | hw
    · exact (Nat.min_le_left _ _).trans (h.low_le_done w hw hwstack)
    · -- a successor that was on the stack has a `low` that is not above its number
      obtain rfl := List.mem_singleton.mp hw
      have hmem : w ∈ u.stack := hstack ▸ List.mem_append_left _ hwstack
      obtain ⟨x, -, hlowx, hle, -⟩ := hvisit.sound.low_stack w hmem
      rw [num_of_visited_eq hvisit.visited (hold w (hs.mem_visited_of_mem_stack hwstack)),
        hnum w hwstack] at hle
      exact (Nat.min_le_right _ _).trans (hlowx ▸ hle)

/-- What the visit leaves above the old stack is strongly connected. -/
theorem strong_node (hv : v ∈ node :: new) : g.Strong node v := by
  rcases List.mem_cons.mp hv with rfl | hv
  · exact .refl v
  · exact ⟨h.depends v (h.subset v hv), h.back v hv⟩

theorem mem_stack_of_mem (hv : v ∈ node :: new) : v ∈ t.stack :=
  h.stack ▸ List.mem_append_right _ hv

/-- All edges of the nodes that the visit has added lead to visited nodes. -/
theorem edge_mem_visited (hdone : ∀ w, g.Edge node w → w ∈ done) (hv : v ∈ node :: added)
    (hedge : g.Edge v w) : w ∈ t.visited := by
  rcases List.mem_cons.mp hv with rfl | hv
  · exact h.mem_of_done w (hdone w hedge)
  · exact h.edges v hv w hedge

theorem low_le_num (hdone : ∀ w, g.Edge node w → w ∈ done) (hv : v ∈ node :: new)
    (hw : w ∈ s.stack) (hedge : g.Edge v w) : t.lowOf node ≤ s.num w := by
  rcases List.mem_cons.mp hv with rfl | hv
  · exact h.low_le_done w (hdone w hedge) hw
  · exact h.low_le v hv w hw hedge

/-- **No edge leads back** to the old stack if `low` of the node is its own number. -/
theorem edge_mem_or_finished (hs : s.Sound g) (hdone : ∀ w, g.Edge node w → w ∈ done)
    (hlow : t.lowOf node = s.visited.length) (hv : v ∈ node :: new) (hedge : g.Edge v w) :
    w ∈ node :: new ∨ w ∈ t.finished := by
  have hadded : v ∈ node :: added := List.cons_subset_cons node h.subset hv
  rcases h.sound.mem_stack_or (h.edge_mem_visited hdone hadded hedge) with hw | hw
  · exact .inr hw
  · rw [h.stack] at hw
    refine (List.mem_append.mp hw).elim (fun hw => ?_) .inl
    have hle := h.low_le_num hdone hv hw hedge
    have hlt := num_lt_length (hs.mem_visited_of_mem_stack hw)
    omega

/-- **What the visit leaves above the old stack is a component** then. -/
theorem mem_iff_strong (hs : s.Sound g) (hdone : ∀ w, g.Edge node w → w ∈ done)
    (hlow : t.lowOf node = s.visited.length) (hv : v ∈ node :: new) :
    w ∈ node :: new ↔ g.Strong v w := by
  constructor
  · exact fun hw => (h.strong_node hv).symm.trans (h.strong_node hw)
  · intro hstrong
    by_contra hw
    obtain ⟨x, hx, y, hy, hxy, hpath⟩ := hstrong.1.exists_edge_out hv hw
    have hyfinished : y ∈ t.finished :=
      (h.edge_mem_or_finished hs hdone hlow hx hxy).resolve_left hy
    -- all that a finished node depends on is finished, and `v` would be
    have hvfinished : v ∈ t.finished :=
      (hpath.trans hstrong.2).mem_of_closed h.sound.closed hyfinished
    exact h.sound.not_mem_finished (h.mem_stack_of_mem hv) hvfinished

/-- **The end of a visit that finds a component.** -/
theorem close (hs : s.Sound g) (hdone : ∀ w, g.Edge node w → w ∈ done)
    (hlow : t.lowOf node = s.visited.length) :
    Visited g node s (t.close s.stack.length g.nodes.length) (node :: added) [] := by
  have hdrop : t.stack.drop s.stack.length = node :: new := by rw [h.stack, List.drop_left]
  have hstack : (t.close s.stack.length g.nodes.length).stack = s.stack := by
    rw [Tarjan.close, h.stack, List.take_left]
  have hvisited := visited_close (fun v hv => h.sound.mem_visited_of_mem_stack hv)
    s.stack.length g.nodes.length
  have hresult : (t.close s.stack.length g.nodes.length).result = t.result ++ [node :: new] := by
    rw [Tarjan.close, hdrop]
  have hfinished : (t.close s.stack.length g.nodes.length).finished =
      t.finished ++ node :: new := by
    rw [finished, hresult, List.flatten_append, List.flatten_singleton, finished]
  have hlowOf : ∀ v, (t.close s.stack.length g.nodes.length).lowOf v =
      if v ∈ node :: new then g.nodes.length else t.lowOf v := fun v => by
    rw [lowOf_close, hdrop]
  have hold : ∀ v ∈ s.visited,
      (t.close s.stack.length g.nodes.length).lowOf v = s.lowOf v := by
    intro v hv
    have hmem : v ∉ node :: new := by
      intro hmem
      rcases List.mem_cons.mp hmem with rfl | hmem
      · exact h.not_mem_visited hv
      · refine List.disjoint_of_nodup_append (h.visited ▸ t.nodup_visited) hv ?_
        exact List.mem_cons_of_mem _ (h.subset v hmem)
    rw [hlowOf, if_neg hmem, h.low v hv]
  have hnum : ∀ v ∈ s.visited, (t.close s.stack.length g.nodes.length).num v = s.num v :=
    fun v hv => num_of_visited_eq (hvisited.trans h.visited) hv
  refine ⟨⟨?_, ?_, ?_, ?_, ?_, ?_, ?_⟩, hvisited.trans h.visited, ?_, ?_, by simp, hold, ?_, ?_,
    by simp, by simp⟩
  · rw [hvisited]
    exact h.sound.mem_nodes
  · have hperm := h.sound.perm
    rw [h.stack] at hperm
    rw [hvisited, hfinished, hstack, List.append_assoc]
    exact hperm.trans (List.perm_append_comm.append_left t.finished)
  · rw [hvisited, hstack, h.visited]
    exact hs.sublist.trans (List.sublist_append_left _ _)
  · intro v hv
    rw [hlowOf]
    split
    · rfl
    next hmem =>
      rw [hfinished] at hv
      exact h.sound.low_finished v ((List.mem_append.mp hv).resolve_right hmem)
  · intro v hv
    rw [hstack] at hv
    obtain ⟨w, hw, heq, hle, hpath⟩ := hs.low_stack v hv
    have hv' := hs.mem_visited_of_mem_stack hv
    refine ⟨w, by rwa [hstack], ?_⟩
    rw [hold v hv', hnum v hv', hnum w (hs.mem_visited_of_mem_stack hw)]
    exact ⟨heq, hle, hpath⟩
  · intro c hc
    rw [hresult] at hc
    rcases List.mem_append.mp hc with hc | hc
    · exact h.sound.strong c hc
    · obtain rfl := List.mem_singleton.mp hc
      exact ⟨List.cons_ne_nil _ _, fun v hv w => h.mem_iff_strong hs hdone hlow hv⟩
  · intro v hv w hedge
    rw [hfinished] at hv ⊢
    rcases List.mem_append.mp hv with hv | hv
    · exact List.mem_append_left _ (h.sound.closed v hv w hedge)
    · exact List.mem_append.mpr (h.edge_mem_or_finished hs hdone hlow hv hedge).symm
  · rw [hstack, List.append_nil]
  · rw [hvisited, h.visited]
    exact List.mem_append_right _ List.mem_cons_self
  · intro v hv
    rcases List.mem_cons.mp hv with rfl | hv
    · exact .refl v
    · exact h.depends v hv
  · intro v hv w hedge
    rw [hvisited]
    exact h.edge_mem_visited hdone hv hedge

/-- **The end of a visit that finds none**: the node depends on one further back. -/
theorem leave (hdone : ∀ w, g.Edge node w → w ∈ done)
    (hlow : t.lowOf node ≠ s.visited.length) :
    Visited g node s t (node :: added) (node :: new) := by
  have hnode : t.num node = s.visited.length :=
    num_of_visited_eq_cons h.visited h.not_mem_visited
  obtain ⟨x, hx, heq, hle, hpath⟩ := h.sound.low_stack node h.mem_stack
  have hback : x ∈ s.stack := by
    rw [h.stack] at hx
    refine (List.mem_append.mp hx).resolve_right fun hx => ?_
    have hnot : x ∉ s.visited := by
      intro hmem
      refine List.disjoint_of_nodup_append (h.visited ▸ t.nodup_visited) hmem ?_
      exact List.cons_subset_cons node h.subset hx
    have hge := length_le_num h.visited hnot
    omega
  refine ⟨h.sound, h.visited, h.stack, ?_, ?_, h.low, ?_, ?_, ?_, ?_⟩
  · rw [h.visited]
    exact List.mem_append_right _ List.mem_cons_self
  · exact List.cons_subset_cons node h.subset
  · intro v hv
    rcases List.mem_cons.mp hv with rfl | hv
    · exact .refl v
    · exact h.depends v hv
  · exact fun v hv w hedge => h.edge_mem_visited hdone hv hedge
  · exact fun v hv => ⟨x, hback, (h.strong_node hv).2.trans hpath⟩
  · exact fun v hv w hw hedge => h.low_le_num hdone hv hw hedge

end Scanned

/-- A node that has been visited is not visited again. -/
theorem Sound.visited_self (h : s.Sound g) (hnode : node ∈ s.visited) :
    Visited g node s s [] [] where
  sound := h
  visited := (List.append_nil _).symm
  stack := (List.append_nil _).symm
  mem := hnode
  subset := by simp
  low := fun _ _ => rfl
  depends := by simp
  edges := by simp
  back := by simp
  low_le := by simp

end Tarjan

open Tarjan

variable {g : DependencyGraph V} {s : Tarjan V} {node : V}

theorem visit_of_mem (h : node ∈ s.visited) (fuel : ℕ) : g.visit fuel node s = .ok s := by
  cases fuel <;> rw [visit, if_pos (mem_visited_iff.mp h)]

/-- The end of a visit. -/
def finish (g : DependencyGraph V) (s : Tarjan V) (node : V) (t : Tarjan V) : Tarjan V :=
  if s.visited.length = t.lowOf node then t.close s.stack.length g.nodes.length else t

theorem visit_of_not_mem (h : node ∉ s.visited) {adj : List V}
    (hget : g.adjacent.get? node = some adj) (fuel : ℕ) :
    g.visit (fuel + 1) node s =
      (adj.foldlM (fun s successor => (g.visit fuel successor s).map (·.lower node successor))
        (s.enter node)).map (g.finish s node) := by
  rw [visit, if_neg fun hsome => h (mem_visited_iff.mpr hsome), getItem, hget]
  rfl

theorem visited_finish (h : ∀ v ∈ s.stack, v ∈ s.visited) (g : DependencyGraph V)
    (start : Tarjan V) (node : V) : (g.finish start node s).visited = s.visited ∧
      ∀ v ∈ (g.finish start node s).stack, v ∈ s.stack := by
  rw [finish]
  split
  · exact ⟨visited_close h _ _, fun v hv => List.mem_of_mem_take hv⟩
  · exact ⟨rfl, fun v hv => hv⟩

/-- What a visit with so much fuel does. -/
def Visits (g : DependencyGraph V) (fuel : ℕ) : Prop :=
  ∀ (s : Tarjan V) (node : V), s.Sound g → node ∈ g.nodes → (∀ v ∈ s.stack, g.Depends v node) →
    g.nodes.length ≤ s.visited.length + fuel →
    ∃ t added new, g.visit fuel node s = .ok t ∧ Visited g node s t added new

/-- **The loop over the successors.** -/
theorem exists_scanned (hg : g.Closed) {fuel : ℕ} (hvisits : g.Visits fuel) {t : Tarjan V}
    {done added new : List V} (hs : s.Sound g) (hreach : ∀ v ∈ s.stack, g.Depends v node)
    (hfuel : g.nodes.length ≤ s.visited.length + (fuel + 1)) (rest : List V)
    (hrest : ∀ w ∈ rest, g.Edge node w) (h : Scanned g node s done t added new) :
    ∃ u added' new', rest.foldlM
        (fun s successor => (g.visit fuel successor s).map (·.lower node successor)) t = .ok u ∧
      Scanned g node s (done ++ rest) u added' new' := by
  induction rest generalizing t done added new with
  | nil => exact ⟨t, added, new, rfl, (List.append_nil done).symm ▸ h⟩
  | cons successor rest ih =>
    obtain ⟨hedge, hrest⟩ := List.forall_mem_cons.mp hrest
    have hlength : g.nodes.length ≤ t.visited.length + fuel := by
      rw [h.visited, List.length_append, List.length_cons]
      omega
    obtain ⟨u, added', new', hu, hvisited⟩ := hvisits t successor h.sound (hg node _ hedge)
      (fun v hv => (h.depends_node hreach hv).trans hedge.depends) hlength
    obtain ⟨x, added'', new'', hx, hscanned⟩ := ih hrest (h.step hreach hs hedge hvisited)
    refine ⟨x, added'', new'', ?_, ?_⟩
    · rw [List.foldlM_cons, hu]
      exact hx
    · rwa [List.append_assoc, List.cons_append, List.nil_append] at hscanned

/-- **A visit** of a node that all on the stack reach. -/
theorem visits (hg : g.Closed) (fuel : ℕ) : g.Visits fuel := by
  induction fuel with
  | zero =>
    intro s node hs hnode hreach hfuel
    have hsubperm := List.subperm_of_subset s.nodup_visited hs.mem_nodes
    have hmem := (hsubperm.perm_of_length_le hfuel).mem_iff.mpr hnode
    exact ⟨s, [], [], visit_of_mem hmem 0, hs.visited_self hmem⟩
  | succ fuel ih =>
    intro s node hs hnode hreach hfuel
    by_cases hmem : node ∈ s.visited
    · exact ⟨s, [], [], visit_of_mem hmem (fuel + 1), hs.visited_self hmem⟩
    obtain ⟨adj, hget⟩ := mem_nodes_iff.mp hnode
    obtain ⟨t, added, new, ht, hscanned⟩ := exists_scanned hg ih hs hreach hfuel adj
      (fun w hw => ⟨adj, hget, hw⟩) (hs.scanned_nil hnode hmem)
    have hdone : ∀ w, g.Edge node w → w ∈ [] ++ adj := by
      rintro w ⟨adj', hget', hw⟩
      obtain rfl := Option.some.inj (hget.symm.trans hget')
      exact hw
    rw [visit_of_not_mem hmem hget, ht]
    by_cases hlow : s.visited.length = t.lowOf node
    · exact ⟨_, _, _, congrArg Except.ok (if_pos hlow), hscanned.close hs hdone hlow.symm⟩
    · exact ⟨_, _, _, congrArg Except.ok (if_neg hlow),
        hscanned.leave hdone fun heq => hlow heq.symm⟩

/-! ## All components -/

/-- **The loop over the nodes** leaves nothing on the stack. -/
theorem exists_visitAll (hg : g.Closed) (nodes : List V) (hnodes : ∀ v ∈ nodes, v ∈ g.nodes)
    (hs : s.Sound g) (hstack : s.stack = []) :
    ∃ t, nodes.foldlM (fun s node => g.visit (g.nodes.length + 1) node s) s = .ok t ∧
      t.Sound g ∧ t.stack = [] ∧ (∀ v ∈ s.visited, v ∈ t.visited) ∧
      ∀ v ∈ nodes, v ∈ t.visited := by
  induction nodes generalizing s with
  | nil => exact ⟨s, rfl, hs, hstack, fun v hv => hv, by simp⟩
  | cons node nodes ih =>
    obtain ⟨hnode, hnodes⟩ := List.forall_mem_cons.mp hnodes
    obtain ⟨t, added, new, ht, hvisited⟩ := visits hg (g.nodes.length + 1) s node hs hnode
      (by simp [hstack]) (by omega)
    have hnew : new = [] := by
      refine List.eq_nil_iff_forall_not_mem.mpr fun v hv => ?_
      obtain ⟨w, hw, -⟩ := hvisited.back v hv
      rw [hstack] at hw
      exact List.not_mem_nil hw
    have hempty : t.stack = [] := by rw [hvisited.stack, hstack, hnew, List.append_nil]
    obtain ⟨u, hu, hsound, hustack, hkept, hall⟩ := ih hnodes hvisited.sound hempty
    refine ⟨u, ?_, hsound, hustack, ?_, ?_⟩
    · rw [List.foldlM_cons, ht]
      exact hu
    · exact fun v hv => hkept v (hvisited.visited ▸ List.mem_append_left _ hv)
    · exact List.forall_mem_cons.mpr ⟨hkept node hvisited.mem, hall⟩

/-- The lists in `components` are the strongly connected components of the graph. -/
structure Components (g : DependencyGraph V) (components : List (List V)) : Prop where
  perm : components.flatten.Perm g.nodes
  ne_nil : ∀ c ∈ components, c ≠ []
  strong : ∀ c ∈ components, ∀ v ∈ c, ∀ w, w ∈ c ↔ g.Strong v w

/-- **`_tarjan72` returns the strongly connected components.** -/
theorem exists_tarjan72 (hg : g.Closed) :
    ∃ components, g.tarjan72 = .ok components ∧ g.Components components := by
  have hsound : Tarjan.Sound g ⟨[], [], .empty⟩ :=
    ⟨by simp [visited, OrderedDict.keys], .refl _, .refl _, by simp [finished], by simp, by simp,
      by simp [finished]⟩
  obtain ⟨t, ht, hs, hstack, -, hall⟩ :=
    exists_visitAll hg g.nodes (fun v hv => hv) hsound rfl
  refine ⟨t.result, ?_, ?_, fun c hc => (hs.strong c hc).1, fun c hc => (hs.strong c hc).2⟩
  · rw [tarjan72, ht]
    rfl
  · have hperm := hs.perm
    rw [hstack, List.append_nil] at hperm
    refine hperm.symm.trans ?_
    refine (List.perm_ext_iff_of_nodup t.nodup_visited g.adjacent.nodup).mpr fun v => ?_
    exact ⟨hs.mem_nodes v, hall v⟩

/-! ## Edges that lead to no node -/

/-- What a visit that returns has seen: all nodes that it adds are in the graph, and so are the
successors of these. -/
structure Tarjan.Seen (g : DependencyGraph V) (s t : Tarjan V) : Prop where
  subset : ∀ v ∈ s.visited, v ∈ t.visited
  mem_nodes : ∀ v ∈ t.visited, v ∉ s.visited → v ∈ g.nodes
  edges : ∀ v ∈ t.visited, v ∉ s.visited → ∀ w, g.Edge v w → w ∈ t.visited

theorem Tarjan.Seen.refl (s : Tarjan V) : Tarjan.Seen g s s :=
  ⟨fun _ hv => hv, fun _ hv hnot => absurd hv hnot, fun _ hv hnot => absurd hv hnot⟩

theorem Tarjan.Seen.trans {s t u : Tarjan V} (h : Tarjan.Seen g s t) (h' : Tarjan.Seen g t u) :
    Tarjan.Seen g s u := by
  refine ⟨fun v hv => h'.subset v (h.subset v hv), fun v hv hnot => ?_, fun v hv hnot w hw => ?_⟩
  · by_cases hmem : v ∈ t.visited
    · exact h.mem_nodes v hmem hnot
    · exact h'.mem_nodes v hv hmem
  · by_cases hmem : v ∈ t.visited
    · exact h'.subset w (h.edges v hmem hnot w hw)
    · exact h'.edges v hv hmem w hw

theorem exists_of_map_eq_ok {ε α β : Type} {x : Except ε α} {f : α → β} {b : β}
    (h : x.map f = .ok b) : ∃ a, x = .ok a ∧ f a = b := by
  cases x with
  | error e => cases h
  | ok a => exact ⟨a, rfl, Except.ok.inj h⟩

theorem seen_of_foldlM {fuel : ℕ}
    (hvisit : ∀ {node : V} {s t : Tarjan V}, (∀ v ∈ s.stack, v ∈ s.visited) →
      g.visit fuel node s = .ok t →
      node ∈ t.visited ∧ Tarjan.Seen g s t ∧ ∀ v ∈ t.stack, v ∈ t.visited)
    (rest : List V) {s t : Tarjan V} (hs : ∀ v ∈ s.stack, v ∈ s.visited) (hnode : node ∈ s.visited)
    (h : rest.foldlM (fun s successor => (g.visit fuel successor s).map (·.lower node successor)) s =
      .ok t) :
    (∀ w ∈ rest, w ∈ t.visited) ∧ Tarjan.Seen g s t ∧ ∀ v ∈ t.stack, v ∈ t.visited := by
  induction rest generalizing s with
  | nil =>
    obtain rfl := Except.ok.inj h
    exact ⟨by simp, .refl s, hs⟩
  | cons successor rest ih =>
    rw [List.foldlM_cons] at h
    cases hvisited : g.visit fuel successor s with
    | error e =>
      rw [hvisited] at h
      cases h
    | ok u =>
      rw [hvisited] at h
      obtain ⟨hmem, hseen, hstack⟩ := hvisit hs hvisited
      have hkeys := visited_lower (hseen.subset node hnode) successor
      have hlower : Tarjan.Seen g s (u.lower node successor) :=
        ⟨hkeys ▸ hseen.subset, hkeys ▸ hseen.mem_nodes, hkeys ▸ hseen.edges⟩
      obtain ⟨hrest, hseen', hstack'⟩ := ih (s := u.lower node successor) (hkeys ▸ hstack)
        (hkeys ▸ hseen.subset node hnode) h
      refine ⟨List.forall_mem_cons.mpr ⟨hseen'.subset _ ?_, hrest⟩, hlower.trans hseen', hstack'⟩
      rwa [hkeys]

/-- **A visit that returns** has found all successors to be nodes, on all of its way. -/
theorem seen_of_visit (fuel : ℕ) {node : V} {s t : Tarjan V}
    (hs : ∀ v ∈ s.stack, v ∈ s.visited) (h : g.visit fuel node s = .ok t) :
    node ∈ t.visited ∧ Tarjan.Seen g s t ∧ ∀ v ∈ t.stack, v ∈ t.visited := by
  induction fuel generalizing node s t with
  | zero =>
    by_cases hmem : node ∈ s.visited
    · obtain rfl := Except.ok.inj ((visit_of_mem hmem 0).symm.trans h)
      exact ⟨hmem, .refl s, hs⟩
    · rw [visit, if_neg fun hsome => hmem (mem_visited_iff.mpr hsome)] at h
      cases h
  | succ fuel ih =>
    by_cases hmem : node ∈ s.visited
    · obtain rfl := Except.ok.inj ((visit_of_mem hmem (fuel + 1)).symm.trans h)
      exact ⟨hmem, .refl s, hs⟩
    cases hget : g.adjacent.get? node with
    | none =>
      rw [visit, if_neg fun hsome => hmem (mem_visited_iff.mpr hsome), getItem, hget] at h
      cases h
    | some adj =>
      rw [visit_of_not_mem hmem hget] at h
      obtain ⟨u, hu, rfl⟩ := exists_of_map_eq_ok h
      have henter := visited_enter hmem
      have hs' : ∀ v ∈ (s.enter node).stack, v ∈ (s.enter node).visited := by
        rw [henter]
        intro v hv
        rcases List.mem_append.mp hv with hv | hv
        · exact List.mem_append_left _ (hs v hv)
        · exact List.mem_append_right _ hv
      have hnode : node ∈ (s.enter node).visited :=
        henter ▸ List.mem_append_right _ (List.mem_singleton_self node)
      obtain ⟨hadj, hseen, hstack⟩ := seen_of_foldlM ih adj hs' hnode hu
      obtain ⟨hvisited, hfinish⟩ := visited_finish hstack g s node
      have hnew : ∀ v ∈ u.visited, v ∉ s.visited → v = node ∨ v ∉ (s.enter node).visited := by
        intro v _ hnot
        rw [henter, List.mem_append, List.mem_singleton, not_or]
        exact (em (v = node)).imp_right fun hne => ⟨hnot, hne⟩
      rw [hvisited]
      refine ⟨hseen.subset node hnode, ⟨?_, ?_, ?_⟩, fun v hv => hstack v (hfinish v hv)⟩
      · rw [hvisited]
        exact fun v hv => hseen.subset v (henter ▸ List.mem_append_left _ hv)
      · rw [hvisited]
        intro v hv hnot
        rcases hnew v hv hnot with rfl | hnot'
        · exact mem_nodes_iff.mpr ⟨adj, hget⟩
        · exact hseen.mem_nodes v hv hnot'
      · rw [hvisited]
        intro v hv hnot w hw
        rcases hnew v hv hnot with rfl | hnot'
        · obtain ⟨adj', hget', hwadj⟩ := hw
          obtain rfl := Option.some.inj (hget.symm.trans hget')
          exact hadj w hwadj
        · exact hseen.edges v hv hnot' w hw

theorem seen_of_visitAll {fuel : ℕ} (nodes : List V) {s t : Tarjan V}
    (hs : ∀ v ∈ s.stack, v ∈ s.visited)
    (h : nodes.foldlM (fun s node => g.visit fuel node s) s = .ok t) :
    (∀ v ∈ nodes, v ∈ t.visited) ∧ Tarjan.Seen g s t := by
  induction nodes generalizing s with
  | nil =>
    obtain rfl := Except.ok.inj h
    exact ⟨by simp, .refl s⟩
  | cons node nodes ih =>
    rw [List.foldlM_cons] at h
    cases hvisited : g.visit fuel node s with
    | error e =>
      rw [hvisited] at h
      cases h
    | ok u =>
      rw [hvisited] at h
      obtain ⟨hmem, hseen, hstack⟩ := seen_of_visit fuel hs hvisited
      obtain ⟨hall, hseen'⟩ := ih hstack h
      exact ⟨List.forall_mem_cons.mpr ⟨hseen'.subset node hmem, hall⟩, hseen.trans hseen'⟩

/-- **`_tarjan72` returns on closed graphs only.** -/
theorem closed_of_tarjan72 {components : List (List V)} (h : g.tarjan72 = .ok components) :
    g.Closed := by
  rw [tarjan72] at h
  cases hfold : g.nodes.foldlM (fun s node => g.visit (g.nodes.length + 1) node s)
      ⟨[], [], .empty⟩ with
  | error e =>
    rw [hfold] at h
    cases h
  | ok t =>
    obtain ⟨hall, hseen⟩ := seen_of_visitAll g.nodes (by simp) hfold
    have hnot : ∀ v, v ∉ (⟨[], [], .empty⟩ : Tarjan V).visited := by
      simp [visited, OrderedDict.keys]
    intro u v hedge
    have hu := hall u hedge.mem_nodes
    exact hseen.mem_nodes v (hseen.edges u hu (hnot u) v hedge) (hnot v)

end DependencyGraph
end Celery
