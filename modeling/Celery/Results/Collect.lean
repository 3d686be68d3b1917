/-
# The results of what a task started

`AsyncResult.iterdeps`, `collect`, `get_leaf` and `build_graph` in `celery/result.py` (lines
282–349 and 403–413).

A result that is ready names the results of the tasks that its task started.  `iterdeps` goes
through these level by level, and raises `IncompleteStream` at one that is not ready.  As `collect`
waits for each result that it yields, this does not happen there: whenever the tasks finish, all
results come with their values, level by level, up to the first that failed (`collect_levels`).
`build_graph` never asks for a parent that is not in the graph, and what it builds has the results
that were gone through, with an edge to each from the one that named it (`buildGraph_spec`).
-/

import Celery.Library.BreadthFirst
import Celery.Utils.Graph
import Mathlib.Data.List.Induction

namespace Celery
namespace ResultTree

/-- A result, and what its children come to. -/
inductive Tree (N : Type) where
  | node (result : N) (children : List (Tree N))

namespace Tree

variable {N : Type}

mutual

/-- The number of results. -/
def size : Tree N → ℕ
  | node _ children => 1 + sizes children

def sizes : List (Tree N) → ℕ
  | [] => 0
  | t :: ts => size t + sizes ts

end

/-- The result at the top. -/
def result : Tree N → N
  | node n _ => n

/-- The trees below it. -/
def children : Tree N → List (Tree N)
  | node _ ts => ts

theorem sizes_eq (ts : List (Tree N)) : sizes ts = (ts.map size).sum := by
  induction ts with
  | nil => rfl
  | cons t ts ih => rw [sizes, ih, List.map_cons, List.sum_cons]

/-- The entries of `stack`: a node, with its parent. -/
def branching : Branching (Option N × Tree N) where
  children e := e.2.children.map fun child => (some e.2.result, child)
  size e := e.2.size
  size_children e := by
    obtain ⟨_, n, ts⟩ := e
    rw [List.map_map, size, sizes_eq]
    exact Nat.lt_add_of_pos_left Nat.one_pos

end Tree

/-- How an iteration stops. -/
inductive Stop (E : Type) where
  | incompleteStream
  | raised (e : E)

section

variable {N E S V : Type}

/-- `for parent, node in iterdeps(intermediate)`, with the body of the loop.  `ready i` are the
answers to `node.ready()` when the generator goes on after the body has run for the `i`th time. -/
def forDeps (intermediate : Bool) (ready : ℕ → N → Bool)
    (body : S → Option N × N → Except E S) :
    ℕ → List (Option N × Tree N) → S → S × Option (Stop E)
  | _, [], s => (s, none)
  | i, e :: stack, s =>
    match body s (e.1, e.2.result) with
    | .error exc => (s, some (.raised exc))
    | .ok s =>
      if ready i e.2.result then
        forDeps intermediate ready body (i + 1) (stack ++ Tree.branching.children e) s
      else if intermediate then forDeps intermediate ready body (i + 1) stack s
      else (s, some .incompleteStream)
termination_by _ stack => Tree.branching.total stack
decreasing_by
  · exact Tree.branching.total_append_children_lt e stack
  · rw [Tree.branching.total_cons]
    obtain ⟨_, n, ts⟩ := e
    exact Nat.lt_add_of_pos_left (Nat.add_pos_left Nat.one_pos _)

/-- `iterdeps`: what it yields, and how it stops. -/
def iterdeps (intermediate : Bool) (ready : ℕ → N → Bool) (t : Tree N) :
    List (Option N × N) × Option (Stop Empty) :=
  forDeps intermediate ready (fun ys y => .ok (ys ++ [y])) 0 [(none, t)] []

/-- `collect`: what it yields, and how it stops. -/
def collect (intermediate : Bool) (ready : ℕ → N → Bool) (get : N → Except E V) (t : Tree N) :
    List (N × V) × Option (Stop E) :=
  forDeps intermediate ready (fun ys y => (get y.2).map fun v => ys ++ [(y.2, v)]) 0 [(none, t)] []

/-- `get_leaf`. -/
def getLeaf (ready : ℕ → N → Bool) (get : N → Except E V) (t : Tree N) :
    Except (Stop E) (Option V) :=
  match forDeps false ready (fun _ y => (get y.2).map some) 0 [(none, t)] none with
  | (value, none) => .ok value
  | (_, some stop) => .error stop

/-- The body of the loop of `build_graph`.  A parent is never false. -/
def addNode [DecidableEq N] (g : DependencyGraph N) (y : Option N × N) :
    Except GraphError (DependencyGraph N) :=
  match y.1 with
  | none => .ok (g.addArc y.2)
  | some parent => (g.addArc y.2).addEdge parent y.2

/-- `build_graph`. -/
def buildGraph [DecidableEq N] (intermediate : Bool) (ready : ℕ → N → Bool) (t : Tree N) :
    Except (Stop GraphError) (DependencyGraph N) :=
  match forDeps intermediate ready addNode 0 [(none, t)] .empty with
  | (g, none) => .ok g
  | (_, some stop) => .error stop

end

/-! ## Level by level -/

section

variable {N E S V : Type}

/-- The results and their parents, level by level. -/
def pairs (stack : List (Option N × Tree N)) : List (Option N × N) :=
  (Tree.branching.levels stack).flatten.map fun e => (e.1, e.2.result)

/-- The results, level by level. -/
def order (t : Tree N) : List N :=
  (Tree.branching.levels [(none, t)]).flatten.map fun e => e.2.result

theorem order_eq (t : Tree N) : order t = (pairs [(none, t)]).map Prod.snd := by
  rw [order, pairs, List.map_map]
  rfl

/-- The body of the loop, for one after the other. -/
def pass (ready : ℕ → N → Bool) (body : S → Option N × N → Except E S) :
    ℕ → List (Option N × N) → S → S × Option (Stop E)
  | _, [], s => (s, none)
  | i, y :: ys, s =>
    match body s y with
    | .error exc => (s, some (.raised exc))
    | .ok s => if ready i y.2 then pass ready body (i + 1) ys s else (s, some .incompleteStream)

theorem pairs_cons (e : Option N × Tree N) (stack : List (Option N × Tree N)) :
    pairs (e :: stack) = (e.1, e.2.result) :: pairs (stack ++ Tree.branching.children e) := by
  rw [pairs, ← Branching.breadthFirst_eq_flatten, Branching.breadthFirst_cons, List.map_cons,
    Branching.breadthFirst_eq_flatten, pairs]

/-- **The loop goes through the levels** of the whole tree until it stops, where it stops at what
is not ready. -/
theorem forDeps_eq_pass {intermediate : Bool} {ready : ℕ → N → Bool}
    {body : S → Option N × N → Except E S}
    (h : intermediate = false ∨ ∀ i s s' y, body s y = .ok s' → ready i y.2 = true)
    (i : ℕ) (stack : List (Option N × Tree N)) (s : S) :
    forDeps intermediate ready body i stack s = pass ready body i (pairs stack) s := by
  induction stack using Branching.breadthFirst.induct Tree.branching generalizing i s with
  | case1 =>
    rw [forDeps, pairs, Branching.levels]
    rfl
  | case2 e stack ih =>
    rw [forDeps, pairs_cons, pass]
    cases hbody : body s (e.1, e.2.result) with
    | error exc => rfl
    | ok s' =>
      dsimp only
      by_cases hready : ready i e.2.result = true
      · rw [if_pos hready, if_pos hready, ih]
      · have hfalse : intermediate = false := by
          obtain hfalse | hall := h
          · exact hfalse
          · exact absurd (hall i s s' _ hbody) hready
        rw [if_neg hready, if_neg hready, hfalse]
        rfl

/-- What nothing stops at is gone through. -/
theorem pass_append {ready : ℕ → N → Bool} {body : S → Option N × N → Except E S}
    (next : S → Option N × N → S) {before : List (Option N × N)}
    (h : ∀ y ∈ before, (∀ s, body s y = .ok (next s y)) ∧ ∀ i, ready i y.2 = true) (i : ℕ)
    (after : List (Option N × N)) (s : S) :
    pass ready body i (before ++ after) s =
      pass ready body (i + before.length) after (before.foldl next s) := by
  induction before generalizing i s with
  | nil => rfl
  | cons y before ih =>
    obtain ⟨⟨hbody, hready⟩, hbefore⟩ := List.forall_mem_cons.mp h
    rw [List.cons_append, pass, hbody]
    dsimp only
    rw [if_pos (hready i), ih hbefore, List.length_cons, List.foldl_cons, Nat.add_right_comm,
      Nat.add_assoc]

theorem foldl_concat_map {A B : Type} (f : A → B) (l : List A) (acc : List B) :
    l.foldl (fun acc a => acc ++ [f a]) acc = acc ++ l.map f := by
  induction l generalizing acc with
  | nil => rw [List.foldl_nil, List.map_nil, List.append_nil]
  | cons a l ih =>
    rw [List.foldl_cons, ih, List.map_cons, List.append_assoc, List.singleton_append]

theorem foldl_some_eq_getLast? {A B : Type} (f : A → B) (l : List A) :
    l.foldl (fun _ a => some (f a)) none = l.getLast?.map f := by
  induction l using List.reverseRecOn with
  | nil => rfl
  | append_singleton l a _ =>
    rw [List.foldl_concat, List.getLast?_concat]
    rfl

variable {ready : ℕ → N → Bool} {get : N → Except E V}
  (hget : ∀ i n v, get n = .ok v → ready i n = true) {value : N → V}
  {before : List (Option N × N)} (hbefore : ∀ y ∈ before, get y.2 = .ok (value y.2))

include hget hbefore

/-- What `collect` does with results that `get` returns. -/
theorem pass_collect (i : ℕ) (after : List (Option N × N)) (ys : List (N × V)) :
    pass ready (fun ys y => (get y.2).map fun v => ys ++ [(y.2, v)]) i (before ++ after) ys =
      pass ready (fun ys y => (get y.2).map fun v => ys ++ [(y.2, v)]) (i + before.length) after
        (ys ++ before.map fun y => (y.2, value y.2)) := by
  rw [pass_append fun ys y => ys ++ [(y.2, value y.2)], foldl_concat_map]
  intro y hy
  refine ⟨fun ys => ?_, fun i => hget i _ _ (hbefore y hy)⟩
  rw [hbefore y hy]
  rfl

/-- What `get_leaf` does with results that `get` returns. -/
theorem pass_getLeaf (after : List (Option N × N)) :
    pass ready (fun _ y => (get y.2).map some) 0 (before ++ after) none =
      pass ready (fun _ y => (get y.2).map some) (0 + before.length) after
        (before.getLast?.map fun y => value y.2) := by
  rw [pass_append fun _ y => some (value y.2), foldl_some_eq_getLast?]
  intro y hy
  refine ⟨fun ys => ?_, fun i => hget i _ _ (hbefore y hy)⟩
  rw [hbefore y hy]
  rfl

end

section

variable {N E V : Type} {ready : ℕ → N → Bool} {get : N → Except E V}

/-- **`collect` goes through the whole tree, level by level**, if a result is ready once `get` has
returned it: it yields all results with their values, and `get_leaf` is the last value of the last
level, if no `get` raises; else both stop where the first does. -/
theorem collect_levels (hget : ∀ i n v, get n = .ok v → ready i n = true) (intermediate : Bool)
    (t : Tree N) (value : N → V) :
    ((∀ n ∈ order t, get n = .ok (value n)) →
      collect intermediate ready get t = ((order t).map fun n => (n, value n), none) ∧
        getLeaf ready get t = .ok ((order t).getLast?.map value)) ∧
    ∀ before n after e, order t = before ++ n :: after → (∀ m ∈ before, get m = .ok (value m)) →
      get n = .error e →
        collect intermediate ready get t = (before.map fun n => (n, value n), some (.raised e)) ∧
          getLeaf ready get t = .error (.raised e) := by
  have hcollect : collect intermediate ready get t = pass ready
      (fun ys y => (get y.2).map fun v => ys ++ [(y.2, v)]) 0 (pairs [(none, t)]) [] := by
    refine forDeps_eq_pass (.inr fun i s s' y hbody => ?_) 0 _ []
    cases hy : get y.2 with
    | error e =>
      rw [hy] at hbody
      cases hbody
    | ok v => exact hget i _ v hy
  have hleaf : forDeps false ready (fun (_ : Option V) y => (get y.2).map some) 0 [(none, t)] none =
      pass ready (fun _ y => (get y.2).map some) 0 (pairs [(none, t)]) none :=
    forDeps_eq_pass (.inl rfl) 0 _ none
  rw [order_eq]
  constructor
  · intro hall
    have hpairs : ∀ y ∈ pairs [(none, t)], get y.2 = .ok (value y.2) :=
      fun y hy => hall _ (List.mem_map_of_mem hy)
    have hpass := pass_collect hget hpairs 0 [] []
    have hpass' := pass_getLeaf hget hpairs []
    rw [List.append_nil] at hpass hpass'
    refine ⟨?_, ?_⟩
    · rw [hcollect, hpass, List.map_map]
      rfl
    · rw [getLeaf, hleaf, hpass', List.getLast?_map, Option.map_map]
      rfl
  · intro before n after e horder hbefore hn
    obtain ⟨ys, zs, hpairs, rfl, hzs⟩ := List.map_eq_append_iff.mp horder
    obtain ⟨y, zs', rfl, rfl, -⟩ := List.map_eq_cons_iff.mp hzs
    have hys : ∀ y ∈ ys, get y.2 = .ok (value y.2) :=
      fun y hy => hbefore _ (List.mem_map_of_mem hy)
    refine ⟨?_, ?_⟩
    · rw [hcollect, hpairs, pass_collect hget hys, pass, hn, List.map_map]
      rfl
    · rw [getLeaf, hleaf, hpairs, pass_getLeaf hget hys, pass, hn]
      rfl

/-- Where all results are ready, `iterdeps` yields them all. -/
theorem iterdeps_levels (hready : ∀ i n, ready i n = true) (intermediate : Bool) (t : Tree N) :
    iterdeps intermediate ready t = (pairs [(none, t)], none) := by
  have hall : ∀ y ∈ pairs [(none, t)],
      (∀ ys, (Except.ok (ys ++ [y]) : Except Empty _) = .ok (ys ++ [y])) ∧
        ∀ i, ready i y.2 = true :=
    fun y _ => ⟨fun _ => rfl, fun i => hready i y.2⟩
  have hpass := pass_append (fun ys y => ys ++ [y]) hall 0 [] []
  rw [List.append_nil] at hpass
  have hmap := foldl_concat_map id (pairs [(none, t)]) []
  rw [List.map_id, List.nil_append] at hmap
  rw [iterdeps, forDeps_eq_pass (.inr fun i _ _ y _ => hready i y.2), hpass]
  exact congrArg (·, none) hmap

/-- The parents are those that a result is a child of somewhere in the tree. -/
theorem mem_pairs_iff {t : Tree N} {u v : N} :
    (some u, v) ∈ pairs [(none, t)] ↔ ∃ s,
      Relation.ReflTransGen (fun s c : Tree N => c ∈ s.children) t s ∧ s.result = u ∧
        ∃ c ∈ s.children, c.result = v := by
  have hlift : ∀ e : Option N × Tree N, Relation.ReflTransGen Tree.branching.Child (none, t) e ↔
      e = (none, t) ∨ ∃ s, Relation.ReflTransGen (fun s c : Tree N => c ∈ s.children) t s ∧
        ∃ c ∈ s.children, e = (some s.result, c) := by
    intro e
    constructor
    · intro h
      induction h with
      | refl => exact .inl rfl
      | @tail b c _ hchild ih =>
        obtain ⟨child, hmem, rfl⟩ := List.mem_map.mp hchild
        obtain rfl | ⟨s, hs, c', hc', rfl⟩ := ih
        · exact .inr ⟨t, .refl, child, hmem, rfl⟩
        · exact .inr ⟨c', hs.tail hc', child, hmem, rfl⟩
    · rintro (rfl | ⟨s, hs, c, hc, rfl⟩)
      · exact .refl
      · have hpath : ∀ s, Relation.ReflTransGen (fun s c : Tree N => c ∈ s.children) t s →
            ∃ p, Relation.ReflTransGen Tree.branching.Child (none, t) (p, s) := by
          intro s hs
          induction hs with
          | refl => exact ⟨none, .refl⟩
          | @tail b c _ hchild ih =>
            obtain ⟨p, hp⟩ := ih
            exact ⟨some b.result, hp.tail (List.mem_map_of_mem hchild)⟩
        obtain ⟨p, hp⟩ := hpath s hs
        exact hp.tail (List.mem_map_of_mem hc)
  rw [pairs, ← Branching.breadthFirst_eq_flatten, List.mem_map]
  simp only [Branching.mem_breadthFirst_iff, List.mem_singleton, exists_eq_left, hlift]
  constructor
  · rintro ⟨e, rfl | ⟨s, hs, c, hc, rfl⟩, heq⟩
    · cases heq
    · obtain ⟨hu, hv⟩ := Prod.mk.inj heq
      exact ⟨s, hs, Option.some.inj hu, c, hc, hv⟩
  · rintro ⟨s, hs, rfl, c, hc, rfl⟩
    exact ⟨_, .inr ⟨s, hs, c, hc, rfl⟩, rfl⟩

/-- A result with two children, of which the first has one. -/
def fourResults : Tree ℕ := .node 0 [.node 1 [.node 3 []], .node 2 []]

theorem collect_fourResults :
    collect false (fun _ _ => true) (fun n => (.ok (n * n) : Except Unit ℕ)) fourResults =
      ([(0, 0), (1, 1), (2, 4), (3, 9)], none) :=
  ((collect_levels (fun _ _ _ _ => rfl) false fourResults fun n => n * n).1 fun _ _ => rfl).1.trans
    (by simp [order, fourResults, Branching.levels, Branching.below, Tree.branching, Tree.children,
      Tree.result])

end

/-! ## The graph -/

section

variable {N : Type} [DecidableEq N]

/-- The graph of what was yielded: its results, with an edge to each from the one that named it,
and a path to each from the root. -/
structure Built (root : N) (ys : List (Option N × N)) (g : DependencyGraph N) : Prop where
  mem_nodes_iff : ∀ v, v ∈ g.nodes ↔ ∃ p, (p, v) ∈ ys
  edge_iff : ∀ u v, g.Edge u v ↔ (some u, v) ∈ ys
  depends : ∀ v ∈ g.nodes, g.Depends root v

theorem built_empty (root : N) : Built root [] .empty where
  mem_nodes_iff v := by simp [DependencyGraph.nodes, DependencyGraph.empty, OrderedDict.keys]
  edge_iff u v := by simp [DependencyGraph.Edge, DependencyGraph.empty, OrderedDict.get?]
  depends v hv := absurd hv List.not_mem_nil

theorem mem_nodes_addArc_iff {g : DependencyGraph N} {u v : N} :
    v ∈ (g.addArc u).nodes ↔ v ∈ g.nodes ∨ v = u := by
  rw [DependencyGraph.nodes_addArc]
  split
  next h => exact ⟨.inl, fun hv => hv.elim id fun heq => heq ▸ h⟩
  next => simp

namespace Built

variable {root : N} {ys : List (Option N × N)} {g : DependencyGraph N} (h : Built root ys g)

include h

/-- **One more result**, with a parent that is there, or the root. -/
theorem addNode {y : Option N × N} (hroot : y.1 = none → y.2 = root)
    (hparent : ∀ p, y.1 = some p → p ∈ g.nodes) :
    ∃ g', ResultTree.addNode g y = .ok g' ∧ Built root (ys ++ [y]) g' := by
  obtain ⟨_ | p, v⟩ := y
  · refine ⟨g.addArc v, rfl, fun w => ?_, fun u w => ?_, fun w hw => ?_⟩
    · rw [mem_nodes_addArc_iff, h.mem_nodes_iff]
      simp [exists_or]
    · rw [DependencyGraph.edge_addArc_iff, h.edge_iff]
      simp
    · obtain hw | rfl := mem_nodes_addArc_iff.mp hw
      · refine Relation.ReflTransGen.mono (fun a b hab => ?_) _ _ (h.depends w hw)
        exact (DependencyGraph.edge_addArc_iff g v a b).mpr hab
      · exact hroot rfl ▸ .refl w
  · have hp : p ∈ (g.addArc v).nodes := mem_nodes_addArc_iff.mpr (.inl (hparent p rfl))
    obtain ⟨g', hg', hnodes, hedges⟩ := DependencyGraph.exists_addEdge hp v
    have hmono : ∀ a b, g.Edge a b → g'.Edge a b := fun a b hab =>
      (hedges a b).mpr (.inl ((DependencyGraph.edge_addArc_iff g v a b).mpr hab))
    refine ⟨g', hg', fun w => ?_, fun u w => ?_, fun w hw => ?_⟩
    · rw [hnodes, mem_nodes_addArc_iff, h.mem_nodes_iff]
      simp [exists_or]
    · rw [hedges, DependencyGraph.edge_addArc_iff, h.edge_iff]
      simp
    · rw [hnodes] at hw
      obtain hw | rfl := mem_nodes_addArc_iff.mp hw
      · exact Relation.ReflTransGen.mono hmono _ _ (h.depends w hw)
      · exact (Relation.ReflTransGen.mono hmono _ _ (h.depends p (hparent p rfl))).tail
          ((hedges p w).mpr (.inr ⟨rfl, rfl⟩))

theorem closed : g.Closed := fun u v huv =>
  (h.mem_nodes_iff v).mpr ⟨some u, (h.edge_iff u v).mp huv⟩

theorem mem_nodes_of_mem {y : Option N × N} (hy : y ∈ ys) : y.2 ∈ g.nodes :=
  (h.mem_nodes_iff y.2).mpr ⟨y.1, hy⟩

/-- **The loop builds the graph** of what it goes through: it never asks for a parent that is not
there. -/
theorem forDeps (intermediate : Bool) (ready : ℕ → N → Bool) (i : ℕ)
    {stack : List (Option N × Tree N)} (hroot : ∀ e ∈ stack, e.1 = none → e.2.result = root)
    (hparent : ∀ e ∈ stack, ∀ p, e.1 = some p → p ∈ g.nodes) :
    ∃ g' ys', ∃ incomplete : Bool, Built root ys' g' ∧
      ResultTree.forDeps intermediate ready ResultTree.addNode i stack g =
        (g', if incomplete then some .incompleteStream else none) ∧
      ResultTree.forDeps intermediate ready (fun ys y => .ok (ys ++ [y])) i stack ys =
        (ys', if incomplete then some (.incompleteStream : Stop Empty) else none) := by
  induction hn : Tree.branching.total stack using Nat.strongRecOn generalizing i stack ys g with
  | _ n ih =>
    cases stack with
    | nil =>
      refine ⟨g, ys, false, h, ?_, ?_⟩
      · rw [ResultTree.forDeps]
        rfl
      · rw [ResultTree.forDeps]
        rfl
    | cons e stack =>
      obtain ⟨hroot₀, hroot⟩ := List.forall_mem_cons.mp hroot
      obtain ⟨hparent₀, hparent⟩ := List.forall_mem_cons.mp hparent
      obtain ⟨g', hg', hbuilt⟩ := h.addNode (y := (e.1, e.2.result)) hroot₀ hparent₀
      have hmem : ∀ v ∈ g.nodes, v ∈ g'.nodes := by
        intro v hv
        obtain ⟨p, hp⟩ := (h.mem_nodes_iff v).mp hv
        exact hbuilt.mem_nodes_of_mem (List.mem_append_left _ hp)
      have he : e.2.result ∈ g'.nodes :=
        hbuilt.mem_nodes_of_mem (List.mem_append_right _ (List.mem_singleton_self _))
      rw [ResultTree.forDeps, ResultTree.forDeps, hg']
      dsimp only
      by_cases hready : ready i e.2.result = true
      · rw [if_pos hready, if_pos hready]
        refine ih _ (hn ▸ Tree.branching.total_append_children_lt e stack) hbuilt (i + 1) ?_ ?_ rfl
        · intro c hc hnone
          obtain hc | hc := List.mem_append.mp hc
          · exact hroot c hc hnone
          · obtain ⟨child, -, rfl⟩ := List.mem_map.mp hc
            cases hnone
        · intro c hc p hp
          obtain hc | hc := List.mem_append.mp hc
          · exact hmem p (hparent c hc p hp)
          · obtain ⟨child, -, rfl⟩ := List.mem_map.mp hc
            exact Option.some.inj hp ▸ he
      · rw [if_neg hready, if_neg hready]
        cases intermediate with
        | true =>
          rw [if_pos rfl, if_pos rfl]
          refine ih _ ?_ hbuilt (i + 1) hroot (fun c hc p hp => hmem p (hparent c hc p hp)) rfl
          rw [← hn, Tree.branching.total_cons]
          obtain ⟨_, n, ts⟩ := e
          exact Nat.lt_add_of_pos_left (Nat.add_pos_left Nat.one_pos _)
        | false => exact ⟨g', _, true, hbuilt, rfl, rfl⟩

end Built

/-- **`build_graph`** raises `IncompleteStream` where the iteration does, and else gives the graph
of what that went through. -/
theorem buildGraph_spec (intermediate : Bool) (ready : ℕ → N → Bool) (t : Tree N) :
    ((iterdeps intermediate ready t).2 = none ∧ ∃ g, buildGraph intermediate ready t = .ok g ∧
        Built t.result (iterdeps intermediate ready t).1 g ∧ g.Closed) ∨
      (iterdeps intermediate ready t).2 = some .incompleteStream ∧
        buildGraph intermediate ready t = .error .incompleteStream := by
  have hroot : ∀ e ∈ [((none : Option N), t)], e.1 = none → e.2.result = t.result := by simp
  obtain ⟨g, ys, incomplete, hbuilt, hgraph, hys⟩ := (built_empty t.result).forDeps intermediate
    ready 0 hroot (by simp)
  rw [iterdeps, hys, buildGraph, hgraph]
  cases incomplete with
  | false => exact .inl ⟨rfl, g, rfl, hbuilt, hbuilt.closed⟩
  | true => exact .inr ⟨rfl, rfl⟩

/-- **The graph of a tree that is ready** has an edge from each result to its children. -/
theorem edge_buildGraph_iff {ready : ℕ → N → Bool} (hready : ∀ i n, ready i n = true)
    (intermediate : Bool) (t : Tree N) :
    ∃ g, buildGraph intermediate ready t = .ok g ∧ g.Closed ∧ ∀ u v, g.Edge u v ↔ ∃ s,
      Relation.ReflTransGen (fun s c : Tree N => c ∈ s.children) t s ∧ s.result = u ∧
        ∃ c ∈ s.children, c.result = v := by
  obtain ⟨-, g, hgraph, hbuilt, hclosed⟩ | ⟨hstop, -⟩ := buildGraph_spec intermediate ready t
  · refine ⟨g, hgraph, hclosed, fun u v => ?_⟩
    rw [hbuilt.edge_iff, iterdeps_levels hready, mem_pairs_iff]
  · rw [iterdeps_levels hready] at hstop
    cases hstop

end

end ResultTree
end Celery
