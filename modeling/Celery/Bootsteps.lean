/-
# `celery/bootsteps.py`: the order of the steps of a `Blueprint`

`claim_steps` and `load_step` (lines 251-256), `_find_last`, `_firstpass` and `_finalize_steps`
(lines 221-249).  Every step has a `requires` of its own: what a step inherits from another one
is left out.

`ordered_iff_direct` has when all steps come out, each after those that it requires: `_firstpass`
resolves what the claimed steps require, and what a step that is only required names by a string
stays a string.
-/

import Celery.Utils.Topsort
import Mathlib.Data.Set.Card

namespace Celery
namespace Bootsteps

/-- What a blueprint or a step names a step by: the class, or what it is imported by. -/
inductive Dep (S : Type) where
  | step (s : S)
  | path (name : String)
  deriving DecidableEq

/-- What finalizing may raise; `fuel` is no error of the source, as in `GraphError`. -/
inductive BootstepError where
  | importError
  | unknownBootstep
  | indexError
  | fuel
  deriving DecidableEq

/-- The attributes of the step classes. -/
structure Steps (S : Type) where
  name : S → String
  last : S → Bool
  requires : S → List (Dep S)

section Model

variable {S : Type} (symbol : String → Option S)

/-- `symbol_by_name`: a class is returned as it is, and what `symbol` does not know cannot be
imported. -/
def symbolByName : Dep S → Except BootstepError S
  | .step s => .ok s
  | .path name =>
    match symbol name with
    | none => .error .importError
    | some s => .ok s

/-- `claim_steps`, of `types` in any order. -/
def claimSteps (c : Steps S) (types : List (Dep S)) :
    Except BootstepError (OrderedDict String S) :=
  types.foldlM (fun steps dep => do
    let step ← symbolByName symbol dep
    .ok (steps.set (c.name step) step)) .empty

/-- `_find_last`. -/
def findLast (c : Steps S) (steps : OrderedDict String S) : Option S := steps.values.find? c.last

section Code

variable [DecidableEq S]

/-- `step.requires = [symbol_by_name(dep) for dep in step.requires]`. -/
def resolve (c : Steps S) (step : S) : Except BootstepError (Steps S) := do
  let deps ← (c.requires step).mapM (symbolByName symbol)
  .ok { c with requires := Function.update c.requires step (deps.map .step) }

/-- The first `node` of a list in the stream: it is added if its name is new, and what it
requires is appended to the stream. -/
def expand (c : Steps S) (state : OrderedDict String S × List (List (Dep S))) (dep : Dep S) :
    Except BootstepError (OrderedDict String S × List (List (Dep S))) := do
  let node ← symbolByName symbol dep
  .ok (if c.name node ∈ state.1.keys then state.1 else state.1.set (c.name node) node,
    state.2 ++ [c.requires node])

/-- The loop over the stream.  The fuel is for its rounds. -/
def drain (c : Steps S) :
    ℕ → List (List (Dep S)) → OrderedDict String S → Except BootstepError (OrderedDict String S)
  | _, [], steps => .ok steps
  | 0, _ :: _, _ => .error .fuel
  | fuel + 1, deps :: stream, steps => do
    let (steps, stream) ← deps.foldlM (expand symbol c) (steps, stream)
    drain c fuel stream steps

/-- `_firstpass`. -/
def firstpass (fuel : ℕ) (c : Steps S) (steps : OrderedDict String S) :
    Except BootstepError (Steps S × OrderedDict String S) := do
  let c ← steps.values.foldlM (resolve symbol) c
  let steps ← drain symbol c fuel (steps.values.map c.requires) steps
  .ok (c, steps)

/-- The `KeyError` that `_finalize_steps` catches, and what else the graph may raise. -/
def ofGraphError : GraphError → BootstepError
  | .keyError => .unknownBootstep
  | .indexError => .indexError
  | .fuel => .fuel

/-- The graph of the steps, with the edges that the last one gets. -/
def buildGraph (c : Steps S) (steps : OrderedDict String S) (last : Option S) :
    Except GraphError (DependencyGraph (Dep S)) := do
  let g ← DependencyGraph.empty.update (steps.values.map fun step => (.step step, c.requires step))
  match last with
  | none => .ok g
  | some last =>
    g.nodes.foldlM (fun g obj => if obj ≠ .step last then g.addEdge (.step last) obj else .ok g) g

/-- `_finalize_steps`. -/
def finalizeSteps (fuel : ℕ) (c : Steps S) (steps : OrderedDict String S) :
    Except BootstepError (List (Dep S)) := do
  let last := findLast c steps
  let (c, steps) ← firstpass symbol fuel c steps
  let g ← (buildGraph c steps last).mapError ofGraphError
  g.topsort.mapError ofGraphError

/-- What `apply` has of `claim_steps` and `_finalize_steps`: the order of the steps. -/
def order (fuel : ℕ) (c : Steps S) (types : List (Dep S)) :
    Except BootstepError (List (Dep S)) := do
  let steps ← claimSteps symbol c types
  finalizeSteps symbol fuel c steps

end Code

/-! ## What is required -/

/-- What a list of names stands for, as far as it can be imported. -/
def targets (deps : List (Dep S)) : List S :=
  deps.filterMap fun dep => (symbolByName symbol dep).toOption

/-- The step `s` requires `t` directly. -/
def Requires (c : Steps S) (s t : S) : Prop := t ∈ targets symbol (c.requires s)

/-- The blueprint has `s` among its `types`. -/
def Claimed (types : List (Dep S)) (s : S) : Prop := s ∈ targets symbol types

/-- `s` is claimed, or required by a step that is needed. -/
def Needed (c : Steps S) (types : List (Dep S)) (s : S) : Prop :=
  ∃ r, Claimed symbol types r ∧ Relation.ReflTransGen (Requires symbol c) r s

/-- All of the names can be imported. -/
def Resolves (deps : List (Dep S)) : Prop :=
  ∀ dep ∈ deps, ∃ s, symbolByName symbol dep = .ok s

/-- A blueprint whose steps can be imported and are required without cycles, the last one, of
which there is one at most, by none. -/
structure Admissible (c : Steps S) (types : List (Dep S)) : Prop where
  claimed : Resolves symbol types
  resolves : ∀ s, Needed symbol c types s → Resolves symbol (c.requires s)
  finite : {s | Needed symbol c types s}.Finite
  acyclic : ∀ s, Needed symbol c types s → ¬ Relation.TransGen (Requires symbol c) s s
  last : ∀ l, Claimed symbol types l → c.last l →
    ∀ s, Needed symbol c types s → ¬ Requires symbol c s l
  last_unique : ∀ l l', Claimed symbol types l → Claimed symbol types l' → c.last l →
    c.last l' → l = l'

/-- What the order of the steps is to be. -/
structure Ordered (c : Steps S) (types : List (Dep S)) (steps : List S) : Prop where
  nodup : steps.Nodup
  mem_iff : ∀ s, s ∈ steps ↔ Needed symbol c types s
  before : ∀ s t, Needed symbol c types s → Requires symbol c s t → [t, s].Sublist steps
  last : ∀ l, Claimed symbol types l → c.last l → steps.getLast? = some l

/-- **When a blueprint is put in order**: its steps have different names, and those that are
only required name what they require by classes. -/
structure Direct (c : Steps S) (types : List (Dep S)) : Prop where
  names : ∀ s t, Needed symbol c types s → Needed symbol c types t → c.name s = c.name t → s = t
  classes : ∀ s, Needed symbol c types s → ¬ Claimed symbol types s →
    ∀ dep ∈ c.requires s, ∃ t, dep = .step t

/-! ## Names that are imported -/

variable {symbol} {c c' : Steps S} {types deps : List (Dep S)} {s t : S}
  {steps steps' : OrderedDict String S}

theorem mem_targets_iff : s ∈ targets symbol deps ↔
    ∃ dep ∈ deps, symbolByName symbol dep = .ok s := by
  rw [targets, List.mem_filterMap]
  refine exists_congr fun dep => and_congr_right fun _ => ?_
  cases symbolByName symbol dep with
  | error e => simp [Except.toOption]
  | ok t => simp [Except.toOption]

theorem Resolves.cons {dep : Dep S} (h : Resolves symbol (dep :: deps)) :
    ∃ s, symbolByName symbol dep = .ok s ∧
      targets symbol (dep :: deps) = s :: targets symbol deps ∧ Resolves symbol deps := by
  obtain ⟨⟨s, hs⟩, hdeps⟩ := List.forall_mem_cons.mp h
  refine ⟨s, hs, List.filterMap_cons_some ?_, hdeps⟩
  rw [hs]
  rfl

theorem Resolves.mapM_eq (h : Resolves symbol deps) :
    deps.mapM (symbolByName symbol) = .ok (targets symbol deps) := by
  induction deps with
  | nil => rfl
  | cons dep deps ih =>
    obtain ⟨s, hs, htargets, hdeps⟩ := h.cons
    rw [List.mapM_cons, hs, ih hdeps, htargets]
    rfl

/-- A list of classes names these. -/
theorem resolves_map_step (ts : List S) : Resolves symbol (ts.map .step) := by
  rintro dep hdep
  obtain ⟨t, -, rfl⟩ := List.mem_map.mp hdep
  exact ⟨t, rfl⟩

theorem targets_map_step (ts : List S) : targets symbol (ts.map .step) = ts := by
  rw [targets, List.filterMap_map]
  exact List.filterMap_some

/-! ## Claiming the steps -/

/-- Every step is there under its name. -/
def Named (c : Steps S) (steps : OrderedDict String S) : Prop :=
  ∀ k s, steps.get? k = some s → c.name s = k

theorem Named.get?_name (h : Named c steps) (hs : s ∈ steps.values) :
    steps.get? (c.name s) = some s := by
  obtain ⟨k, hget⟩ := OrderedDict.mem_values_iff.mp hs
  rwa [h k s hget]

/-- The names of the steps are the keys, so that no step is there twice. -/
theorem Named.map_name (h : Named c steps) : steps.values.map c.name = steps.keys := by
  rw [OrderedDict.values, OrderedDict.keys, List.map_map]
  refine List.map_congr_left fun e he => ?_
  exact h e.1 e.2 (OrderedDict.get?_of_mem he)

theorem Named.nodup_values (h : Named c steps) : steps.values.Nodup :=
  List.Nodup.of_map c.name (h.map_name ▸ steps.nodup)

theorem Named.set (h : Named c steps) (s : S) : Named c (steps.set (c.name s) s) := by
  intro k t hget
  rw [OrderedDict.get?_set] at hget
  split at hget
  next hk => rw [hk, Option.some.inj hget]
  · exact h k t hget

theorem mem_values_set (h : t ∈ (steps.set (c.name s) s).values) : t = s ∨ t ∈ steps.values := by
  obtain ⟨k, hget⟩ := OrderedDict.mem_values_iff.mp h
  rw [OrderedDict.get?_set] at hget
  split at hget
  · exact .inl (Option.some.inj hget).symm
  · exact .inr (OrderedDict.mem_values_iff.mpr ⟨k, hget⟩)

theorem mem_keys_set {k l : String} (s : S) :
    l ∈ (steps.set k s).keys ↔ l = k ∨ l ∈ steps.keys := by
  rw [OrderedDict.keys_set]
  split
  next hk => exact ⟨.inr, fun h => h.elim (fun heq => heq ▸ hk) id⟩
  · rw [List.mem_append, List.mem_singleton, or_comm]

theorem exists_foldlM_claim (h : Resolves symbol deps) (hnamed : Named c steps) :
    ∃ steps', deps.foldlM (fun steps dep => do
        let step ← symbolByName symbol dep
        .ok (steps.set (c.name step) step)) steps = .ok steps' ∧ Named c steps' ∧
      (∀ s ∈ steps'.values, s ∈ targets symbol deps ∨ s ∈ steps.values) ∧
      (∀ k ∈ steps.keys, k ∈ steps'.keys) ∧
      ∀ s ∈ targets symbol deps, c.name s ∈ steps'.keys := by
  induction deps generalizing steps with
  | nil => exact ⟨steps, rfl, hnamed, fun s hs => .inr hs, by simp, by simp [targets]⟩
  | cons dep deps ih =>
    obtain ⟨s, hs, htargets, hdeps⟩ := h.cons
    obtain ⟨steps', heq, hnamed', hvalues, hkeys, hnames⟩ := ih hdeps (hnamed.set s)
    refine ⟨steps', ?_, hnamed', fun t ht => ?_, fun k hk => ?_, ?_⟩
    · rw [List.foldlM_cons, hs]
      exact heq
    · rw [htargets, List.mem_cons, or_assoc, or_left_comm]
      exact (hvalues t ht).imp_right mem_values_set
    · exact hkeys k ((mem_keys_set s).mpr (.inr hk))
    · rw [htargets]
      exact List.forall_mem_cons.mpr ⟨hkeys _ ((mem_keys_set s).mpr (.inl rfl)), hnames⟩

/-- **`claim_steps`** has the claimed steps, and a step for the name of each. -/
theorem exists_claimSteps (h : Resolves symbol types) :
    ∃ steps, claimSteps symbol c types = .ok steps ∧ Named c steps ∧
      (∀ s ∈ steps.values, Claimed symbol types s) ∧
      ∀ s, Claimed symbol types s → c.name s ∈ steps.keys := by
  have hempty : Named c .empty := fun k s hget => by cases hget
  obtain ⟨steps, heq, hnamed, hvalues, -, hnames⟩ := exists_foldlM_claim h hempty
  exact ⟨steps, heq, hnamed, fun s hs => (hvalues s hs).resolve_right List.not_mem_nil, hnames⟩

/-! ## Resolving what the claimed steps require -/

variable [DecidableEq S]

/-- `c'` is `c` after the steps in `claimed` have been given the classes that they require. -/
structure Resolved (symbol : String → Option S) (c : Steps S) (claimed : List S)
    (c' : Steps S) : Prop where
  name : c'.name = c.name
  requires : ∀ s, c'.requires s =
    if s ∈ claimed then (targets symbol (c.requires s)).map .step else c.requires s

/-- The steps require the same ones. -/
theorem Resolved.targets_requires {claimed : List S} (h : Resolved symbol c claimed c') (s : S) :
    targets symbol (c'.requires s) = targets symbol (c.requires s) := by
  rw [h.requires]
  split
  · exact targets_map_step _
  · rfl

theorem Resolved.resolves {claimed : List S} (h : Resolved symbol c claimed c')
    (hs : Resolves symbol (c.requires s)) : Resolves symbol (c'.requires s) := by
  rw [h.requires]
  split
  · exact resolves_map_step _
  · exact hs

theorem exists_resolve (hs : Resolves symbol (c.requires s)) :
    ∃ c', resolve symbol c s = .ok c' ∧ Resolved symbol c [s] c' := by
  refine ⟨{ c with
    requires := Function.update c.requires s ((targets symbol (c.requires s)).map .step) },
    ?_, rfl, fun t => ?_⟩
  · rw [resolve, hs.mapM_eq]
    rfl
  · simp only [List.mem_singleton, Function.update_apply]
    split
    next ht => rw [ht]
    · rfl

/-- **The first loop of `_firstpass`.** -/
theorem exists_resolveAll (claimed : List S) (h : ∀ s ∈ claimed, Resolves symbol (c.requires s)) :
    ∃ c', claimed.foldlM (resolve symbol) c = .ok c' ∧ Resolved symbol c claimed c' := by
  induction claimed generalizing c with
  | nil => exact ⟨c, rfl, rfl, by simp⟩
  | cons s claimed ih =>
    obtain ⟨hs, hclaimed⟩ := List.forall_mem_cons.mp h
    obtain ⟨c₁, heq₁, hresolved₁⟩ := exists_resolve hs
    obtain ⟨c₂, heq₂, hresolved₂⟩ := ih fun t ht => hresolved₁.resolves (hclaimed t ht)
    refine ⟨c₂, ?_, hresolved₂.name.trans hresolved₁.name, fun t => ?_⟩
    · rw [List.foldlM_cons, heq₁]
      exact heq₂
    · rw [hresolved₂.requires, hresolved₁.targets_requires, hresolved₁.requires]
      simp only [List.mem_cons, List.not_mem_nil, or_false]
      by_cases ht : t ∈ claimed
      · simp [ht]
      · simp [ht]

/-! ## The stream -/

/-- `steps'` has all steps of `steps`, those of `added` whose names were new, and no others. -/
structure Grown (c : Steps S) (added : List S) (steps steps' : OrderedDict String S) : Prop where
  named : Named c steps'
  mem : ∀ s ∈ steps'.values, s ∈ added ∨ s ∈ steps.values
  get? : ∀ k s, steps.get? k = some s → steps'.get? k = some s
  names : ∀ s ∈ added, c.name s ∈ steps'.keys

omit [DecidableEq S] in
theorem Grown.mem_keys {added : List S} (h : Grown c added steps steps') {k : String}
    (hk : k ∈ steps.keys) : k ∈ steps'.keys := by
  obtain ⟨s, hget⟩ := OrderedDict.mem_keys_iff.mp hk
  exact OrderedDict.mem_keys_iff.mpr ⟨s, h.get? k s hget⟩

omit [DecidableEq S] in
theorem Grown.trans {added added' : List S} {steps'' : OrderedDict String S}
    (h : Grown c added steps steps') (h' : Grown c added' steps' steps'') :
    Grown c (added ++ added') steps steps'' where
  named := h'.named
  mem := by
    intro s hs
    rw [List.mem_append, or_assoc, or_left_comm]
    exact (h'.mem s hs).imp_right (h.mem s)
  get? := fun k s hget => h'.get? k s (h.get? k s hget)
  names := by
    intro s hs
    rcases List.mem_append.mp hs with hs | hs
    · exact h'.mem_keys (h.names s hs)
    · exact h'.names s hs

omit [DecidableEq S] in
theorem Named.grown (h : Named c steps) (s : S) :
    Grown c [s] steps
      (if c.name s ∈ steps.keys then steps else steps.set (c.name s) s) := by
  split
  next hmem =>
    exact ⟨h, fun t ht => .inr ht, fun k t hget => hget, by simpa using hmem⟩
  next hmem =>
    refine ⟨h.set s, fun t ht => ?_, fun k t hget => ?_, ?_⟩
    · rw [List.mem_singleton]
      exact mem_values_set ht
    · have hne : k ≠ c.name s := by
        rintro rfl
        exact hmem (OrderedDict.mem_keys_iff.mpr ⟨t, hget⟩)
      rwa [OrderedDict.get?_set, if_neg hne]
    · intro t ht
      obtain rfl := List.mem_singleton.mp ht
      exact (mem_keys_set t).mpr (.inl rfl)

omit [DecidableEq S] in
/-- **What one list of the stream adds**: the steps of new names, and the lists of all. -/
theorem exists_expand (h : Resolves symbol deps) (hnamed : Named c steps)
    (stream : List (List (Dep S))) :
    ∃ steps', deps.foldlM (expand symbol c) (steps, stream) =
        .ok (steps', stream ++ (targets symbol deps).map c.requires) ∧
      Grown c (targets symbol deps) steps steps' := by
  induction deps generalizing steps stream with
  | nil =>
    refine ⟨steps, ?_, hnamed, fun s hs => .inr hs, fun k s hget => hget, by simp [targets]⟩
    rw [targets, List.filterMap_nil, List.map_nil, List.append_nil]
    rfl
  | cons dep deps ih =>
    obtain ⟨s, hs, htargets, hdeps⟩ := h.cons
    have hgrown := hnamed.grown s
    obtain ⟨steps', heq, hgrown'⟩ := ih hdeps hgrown.named (stream ++ [c.requires s])
    refine ⟨steps', ?_, htargets ▸ hgrown.trans hgrown'⟩
    rw [List.foldlM_cons, expand, hs, htargets, List.map_cons]
    rw [List.append_assoc, List.singleton_append] at heq
    exact heq

omit [DecidableEq S] in
theorem Needed.of_requires (h : Needed symbol c types s) (hst : Requires symbol c s t) :
    Needed symbol c types t := by
  obtain ⟨r, hr, hpath⟩ := h
  exact ⟨r, hr, hpath.tail hst⟩

omit [DecidableEq S] in
theorem Claimed.needed (h : Claimed symbol types s) : Needed symbol c types s := ⟨s, h, .refl⟩

/-- The rounds that a well-founded tree takes, a node and then its children. -/
theorem exists_cost_of_wf {α : Type} (children : α → List α)
    (hwf : WellFounded fun t s => t ∈ children s) :
    ∃ cost : α → ℕ, ∀ s, cost s = 1 + ((children s).map cost).sum := by
  refine ⟨hwf.fix fun s cost => 1 + ((children s).attach.map fun t => cost t.1 t.2).sum,
    fun s => ?_⟩
  rw [hwf.fix_eq]
  exact congrArg (fun costs => 1 + costs.sum) List.attach_map_val

omit [DecidableEq S] in
/-- **How many rounds the stream takes** for the list of a step. -/
theorem Admissible.exists_cost (h : Admissible symbol c types) :
    ∃ cost : S → ℕ, ∀ s, Needed symbol c types s →
      cost s = 1 + ((targets symbol (c.requires s)).map cost).sum := by
  classical
  let ahead : S → Set S := fun s =>
    {u | Needed symbol c types u ∧ Relation.TransGen (Requires symbol c) s u}
  let children : S → List S := fun s =>
    if Needed symbol c types s then targets symbol (c.requires s) else []
  have hlt : ∀ t s, t ∈ children s → (ahead t).ncard < (ahead s).ncard := by
    intro t s ht
    by_cases hs : Needed symbol c types s
    · simp only [children, if_pos hs] at ht
      have hst : Requires symbol c s t := ht
      have hneeded := hs.of_requires hst
      refine Set.ncard_lt_ncard ⟨fun u hu => ⟨hu.1, .head hst hu.2⟩, fun hsub => ?_⟩
        (h.finite.subset fun u hu => hu.1)
      exact h.acyclic t hneeded (hsub ⟨hneeded, .single hst⟩).2
    · simp only [children, if_neg hs] at ht
      exact absurd ht List.not_mem_nil
  have hwf : WellFounded fun t s => t ∈ children s :=
    Subrelation.wf (fun {t s} ht => hlt t s ht) (measure fun s => (ahead s).ncard).wf
  obtain ⟨cost, hcost⟩ := exists_cost_of_wf children hwf
  refine ⟨cost, fun s hs => ?_⟩
  have heq := hcost s
  simp only [children, if_pos hs] at heq
  exact heq

/-- What the loop over the stream is to keep of `steps`. -/
structure Collected (symbol : String → Option S) (c : Steps S) (N : S → Prop)
    (steps steps' : OrderedDict String S) : Prop where
  named : Named c steps'
  needed : ∀ s ∈ steps'.values, N s
  get? : ∀ k s, steps.get? k = some s → steps'.get? k = some s
  closed : ∀ s ∈ steps'.values, ∀ t, Requires symbol c s t → c.name t ∈ steps'.keys

omit [DecidableEq S] in
/-- **The loop over the stream** ends, with a step for the name of every one that is required. -/
theorem exists_drain {N : S → Prop} (hresolves : ∀ s, N s → Resolves symbol (c.requires s))
    (hN : ∀ s t, N s → Requires symbol c s t → N t) {cost : S → ℕ}
    (hcost : ∀ s, N s → cost s = 1 + ((targets symbol (c.requires s)).map cost).sum)
    (n : ℕ) (stream : List S) (hstream : ∀ s ∈ stream, N s) (hn : (stream.map cost).sum ≤ n)
    (hnamed : Named c steps) (hneeded : ∀ s ∈ steps.values, N s)
    (hcovered : ∀ s ∈ steps.values, s ∈ stream ∨
      ∀ t, Requires symbol c s t → c.name t ∈ steps.keys) :
    ∃ steps', (∀ fuel, n ≤ fuel → drain symbol c fuel (stream.map c.requires) steps = .ok steps') ∧
      Collected symbol c N steps steps' := by
  induction n using Nat.strongRecOn generalizing stream steps with
  | _ n ih =>
    cases stream with
    | nil =>
      refine ⟨steps, fun fuel _ => ?_, hnamed, hneeded, fun k s hget => hget, fun s hs => ?_⟩
      · cases fuel <;> rfl
      · exact (hcovered s hs).resolve_left List.not_mem_nil
    | cons s rest =>
      obtain ⟨hs, hrest⟩ := List.forall_mem_cons.mp hstream
      obtain ⟨steps₁, heq₁, hgrown⟩ := exists_expand (hresolves s hs) hnamed (rest.map c.requires)
      have hsum := hcost s hs
      rw [List.map_cons, List.sum_cons] at hn
      have hstream₁ : ∀ t ∈ rest ++ targets symbol (c.requires s), N t := by
        intro t ht
        exact (List.mem_append.mp ht).elim (hrest t) (hN s t hs)
      have hn₁ : ((rest ++ targets symbol (c.requires s)).map cost).sum ≤ n - 1 := by
        rw [List.map_append, List.sum_append]
        omega
      have hneeded₁ : ∀ t ∈ steps₁.values, N t := by
        intro t ht
        exact (hgrown.mem t ht).elim (hN s t hs) (hneeded t)
      have hcovered₁ : ∀ t ∈ steps₁.values, t ∈ rest ++ targets symbol (c.requires s) ∨
          ∀ u, Requires symbol c t u → c.name u ∈ steps₁.keys := by
        intro t ht
        rcases hgrown.mem t ht with ht | ht
        · exact .inl (List.mem_append_right _ ht)
        rcases hcovered t ht with ht | ht
        · -- the step whose list is read now is covered by what it adds
          rcases List.mem_cons.mp ht with rfl | ht
          · exact .inr hgrown.names
          · exact .inl (List.mem_append_left _ ht)
        · exact .inr fun u hu => hgrown.mem_keys (ht u hu)
      obtain ⟨steps', heq, hcollected⟩ :=
        ih (n - 1) (by omega) _ hstream₁ hn₁ hgrown.named hneeded₁ hcovered₁
      refine ⟨steps', fun fuel hfuel => ?_, hcollected.named, hcollected.needed,
        fun k t hget => hcollected.get? k t (hgrown.get? k t hget), hcollected.closed⟩
      obtain ⟨fuel, rfl⟩ := Nat.exists_eq_succ_of_ne_zero (by omega : fuel ≠ 0)
      rw [List.map_cons, drain, heq₁, ← List.map_append]
      exact heq fuel (by omega)

theorem Resolved.requires_iff {claimed : List S} (h : Resolved symbol c claimed c') :
    Requires symbol c' s t ↔ Requires symbol c s t := by
  rw [Requires, Requires, h.targets_requires]

/-- **`_firstpass`** ends, whatever else holds of the steps. -/
theorem Admissible.exists_firstpass (h : Admissible symbol c types) (hnamed : Named c steps)
    (hclaimed : ∀ s ∈ steps.values, Claimed symbol types s) :
    ∃ n c' steps', (∀ fuel, n ≤ fuel → firstpass symbol fuel c steps = .ok (c', steps')) ∧
      Resolved symbol c steps.values c' ∧
      Collected symbol c (Needed symbol c types) steps steps' := by
  obtain ⟨c', hc', hresolved⟩ :=
    exists_resolveAll steps.values fun s hs => h.resolves s (hclaimed s hs).needed
  obtain ⟨cost, hcost⟩ := h.exists_cost
  have hnamed' : Named c' steps := fun k s hget => hresolved.name ▸ hnamed k s hget
  obtain ⟨steps', heq, hcollected⟩ := exists_drain (N := Needed symbol c types)
    (fun s hs => hresolved.resolves (h.resolves s hs))
    (fun s t hs hst => hs.of_requires (hresolved.requires_iff.mp hst))
    (fun s hs => by rw [hresolved.targets_requires, ← hcost s hs]) _ steps.values
    (fun s hs => (hclaimed s hs).needed) le_rfl hnamed' (fun s hs => (hclaimed s hs).needed)
    (fun s hs => .inl hs)
  refine ⟨(steps.values.map cost).sum, c', steps', fun fuel hfuel => ?_, hresolved,
    ⟨?_, hcollected.needed,
    hcollected.get?, fun s hs t hst => ?_⟩⟩
  · rw [firstpass, hc']
    exact congrArg (fun r => r >>= fun steps' => .ok (c', steps')) (heq fuel hfuel)
  · exact fun k s hget => hresolved.name ▸ hcollected.named k s hget
  · exact hresolved.name ▸ hcollected.closed s hs t (hresolved.requires_iff.mpr hst)

/-! ## The graph -/

/-- **The graph of the steps**: what they require, and for the last one all others. -/
theorem exists_buildGraph {last : Option S} (hnodup : steps.values.Nodup)
    (hlast : ∀ l, last = some l → l ∈ steps.values) :
    ∃ g, buildGraph c steps last = .ok g ∧ g.nodes = steps.values.map .step ∧
      ∀ x y, g.Edge x y ↔ ∃ s ∈ steps.values, x = .step s ∧
        (y ∈ c.requires s ∨ last = some s ∧ y ∈ steps.values.map .step ∧ y ≠ .step s) := by
  have hfst : (steps.values.map fun s => (Dep.step s, c.requires s)).map Prod.fst
      = steps.values.map .step := List.map_map
  have hinj : Function.Injective (Dep.step : S → Dep S) := fun _ _ => Dep.step.inj
  obtain ⟨g, heq, hnodes, hedges⟩ := DependencyGraph.exists_update
    (steps.values.map fun s => (Dep.step s, c.requires s))
    (hfst ▸ (List.nodup_map_iff hinj).mpr hnodup)
  rw [hfst] at hnodes
  have hedges' : ∀ x y, g.Edge x y ↔ ∃ s ∈ steps.values, x = .step s ∧ y ∈ c.requires s := by
    intro x y
    rw [hedges]
    simp only [List.mem_map, exists_exists_and_eq_and]
  cases last with
  | none => exact ⟨g, by rw [buildGraph, heq]; rfl, hnodes, by simpa using hedges'⟩
  | some l =>
    have hl : Dep.step l ∈ steps.values.map .step := List.mem_map_of_mem (hlast l rfl)
    have hround : ∀ obj ∈ g.nodes, ∀ g₁ : DependencyGraph (Dep S),
        g₁.nodes = steps.values.map .step → ∃ g₂,
          (if obj ≠ .step l then g₁.addEdge (.step l) obj else .ok g₁) = .ok g₂ ∧
          g₂.nodes = steps.values.map .step ∧
          ∀ x y, g₂.Edge x y ↔ g₁.Edge x y ∨ x = .step l ∧ y = obj ∧ obj ≠ .step l := by
      intro obj _ g₁ hg₁
      by_cases hobj : obj = .step l
      · exact ⟨g₁, if_neg (not_not.mpr hobj), hg₁, by simp [hobj]⟩
      · obtain ⟨g₂, heq₂, hnodes₂, hedges₂⟩ :=
          DependencyGraph.exists_addEdge (hg₁.symm ▸ hl) obj
        exact ⟨g₂, (if_pos hobj).trans heq₂, hnodes₂.trans hg₁, by simpa [hobj] using hedges₂⟩
    obtain ⟨g', heq', hnodes', hedges''⟩ :=
      DependencyGraph.exists_foldlM g.nodes hround g hnodes
    refine ⟨g', ?_, hnodes', fun x y => ?_⟩
    · rw [buildGraph, heq]
      exact heq'
    · rw [hedges'', hedges', hnodes]
      constructor
      · rintro (⟨s, hs, hx, hy⟩ | ⟨obj, hobj, rfl, rfl, hne⟩)
        · exact ⟨s, hs, hx, .inl hy⟩
        · exact ⟨l, hlast l rfl, rfl, .inr ⟨rfl, hobj, hne⟩⟩
      · rintro ⟨s, hs, rfl, hy | ⟨heq, hy, hne⟩⟩
        · exact .inl ⟨s, hs, rfl, hy⟩
        · obtain rfl := Option.some.inj heq
          exact .inr ⟨y, hy, rfl, rfl, hne⟩

omit [DecidableEq S] in
theorem exists_map_of_forall {α β : Type} {f : α → β} (l : List β) (h : ∀ y ∈ l, ∃ x, f x = y) :
    ∃ l' : List α, l = l'.map f := by
  induction l with
  | nil => exact ⟨[], rfl⟩
  | cons y l ih =>
    obtain ⟨⟨x, rfl⟩, hl⟩ := List.forall_mem_cons.mp h
    obtain ⟨l', rfl⟩ := ih hl
    exact ⟨x :: l', rfl⟩

omit [DecidableEq S] in
/-- What all others come before is the last. -/
theorem getLast?_of_forall_before {l : List S} (hnodup : l.Nodup) (hs : s ∈ l)
    (h : ∀ t ∈ l, t ≠ s → [t, s].Sublist l) : l.getLast? = some s := by
  rcases List.eq_nil_or_concat' l with rfl | ⟨init, z, rfl⟩
  · cases hs
  rw [List.getLast?_concat]
  by_contra hne
  have hz : z ≠ s := fun heq => hne (congrArg some heq)
  obtain ⟨l₁, l₂, heq, hz₁, hs₂⟩ :=
    List.cons_sublist_iff.mp (h z (List.mem_append_right _ (List.mem_singleton_self z)) hz)
  obtain ⟨l₃, w, rfl⟩ :=
    (List.eq_nil_or_concat' l₂).resolve_left (List.ne_nil_of_mem (List.singleton_sublist.mp hs₂))
  rw [← List.append_assoc] at heq
  obtain ⟨-, hw⟩ := List.append_inj' heq rfl
  obtain rfl := List.singleton_inj.mp hw
  rw [heq] at hnodup
  exact List.disjoint_of_nodup_append hnodup (List.mem_append_left _ hz₁)
    (List.mem_singleton_self z)

/-- What is known of the graph that is sorted: `claimed` are the steps that were claimed, one of
each name, and `steps` those that are in the graph. -/
structure Built (symbol : String → Option S) (c : Steps S) (types : List (Dep S))
    (claimed steps : OrderedDict String S) (c' : Steps S) (g : DependencyGraph (Dep S)) :
    Prop where
  claimedNamed : Named c claimed
  mem_claimed : ∀ s ∈ claimed.values, Claimed symbol types s
  names : ∀ s, Claimed symbol types s → c.name s ∈ claimed.keys
  resolved : Resolved symbol c claimed.values c'
  collected : Collected symbol c (Needed symbol c types) claimed steps
  nodes : g.nodes = steps.values.map .step
  edges : ∀ x y, g.Edge x y ↔ ∃ s ∈ steps.values, x = .step s ∧
    (y ∈ c'.requires s ∨ findLast c claimed = some s ∧ y ∈ steps.values.map .step ∧ y ≠ .step s)

/-- **`_finalize_steps` comes to sort a graph**, with any fuel from some on. -/
theorem Admissible.exists_built (h : Admissible symbol c types) :
    ∃ n claimed steps c' g, Built symbol c types claimed steps c' g ∧
      ∀ fuel, n ≤ fuel → order symbol fuel c types = g.topsort.mapError ofGraphError := by
  obtain ⟨claimed, hclaim, hnamed, hclaimed, hnames⟩ := exists_claimSteps (c := c) h.claimed
  obtain ⟨n, c', steps, hfirst, hresolved, hcollected⟩ := h.exists_firstpass hnamed hclaimed
  have hlast : ∀ l, findLast c claimed = some l → l ∈ steps.values := by
    intro l hl
    have hmem := List.mem_of_find?_eq_some hl
    exact OrderedDict.mem_values_iff.mpr ⟨_, hcollected.get? _ l (hnamed.get?_name hmem)⟩
  obtain ⟨g, hg, hnodes, hedges⟩ :=
    exists_buildGraph (c := c') hcollected.named.nodup_values hlast
  refine ⟨n, claimed, steps, c', g,
    ⟨hnamed, hclaimed, hnames, hresolved, hcollected, hnodes, hedges⟩, fun fuel hfuel => ?_⟩
  rw [order, hclaim]
  show finalizeSteps symbol fuel c claimed = _
  rw [finalizeSteps, hfirst fuel hfuel]
  show ((buildGraph c' steps (findLast c claimed)).mapError ofGraphError >>=
    fun g => g.topsort.mapError ofGraphError) = _
  rw [hg]
  rfl

namespace Built

variable {claimed : OrderedDict String S} {g : DependencyGraph (Dep S)}
  (h : Built symbol c types claimed steps c' g)
include h

theorem mem_nodes_iff : Dep.step s ∈ g.nodes ↔ s ∈ steps.values := by
  rw [h.nodes, List.mem_map_of_injective fun _ _ => Dep.step.inj]

/-- The claimed steps with their names are in the graph, and so is what is required. -/
theorem mem_of_needed (hnames : ∀ s t, Needed symbol c types s → Needed symbol c types t →
    c.name s = c.name t → s = t) (hs : Needed symbol c types s) : s ∈ steps.values := by
  have hmem : ∀ {s}, Needed symbol c types s → c.name s ∈ steps.keys → s ∈ steps.values := by
    intro s hs hkey
    obtain ⟨t, hget⟩ := OrderedDict.mem_keys_iff.mp hkey
    have ht := OrderedDict.mem_values_iff.mpr ⟨_, hget⟩
    obtain rfl := hnames t s (h.collected.needed t ht) hs (h.collected.named _ t hget)
    exact ht
  obtain ⟨r, hr, hpath⟩ := hs
  induction hpath with
  | refl =>
    refine hmem hr.needed ?_
    obtain ⟨t, hget⟩ := OrderedDict.mem_keys_iff.mp (h.names r hr)
    exact OrderedDict.mem_keys_iff.mpr ⟨t, h.collected.get? _ t hget⟩
  | tail hpath hst ih =>
    exact hmem ⟨r, hr, hpath.tail hst⟩ (h.collected.closed _ ih _ hst)

/-- A step of the graph that was claimed has been resolved. -/
theorem requires_of_not_claimed (hs : ¬ Claimed symbol types s) :
    c'.requires s = c.requires s := by
  rw [h.resolved.requires, if_neg fun hmem => hs (h.mem_claimed s hmem)]

/-- **The graph is closed** only if each step has a name of its own, and those that are not
claimed name classes. -/
theorem direct_of_closed (hclosed : g.Closed)
    (hall : ∀ s, Needed symbol c types s → s ∈ steps.values) : Direct symbol c types where
  names := by
    intro s t hs ht hname
    have hget := h.collected.named.get?_name (hall s hs)
    rw [hname, h.collected.named.get?_name (hall t ht)] at hget
    exact (Option.some.inj hget).symm
  classes := by
    intro s hs hnot dep hdep
    have hedge : g.Edge (.step s) dep :=
      (h.edges _ _).mpr ⟨s, hall s hs, rfl, .inl ((h.requires_of_not_claimed hnot).symm ▸ hdep)⟩
    have hnode := hclosed _ _ hedge
    rw [h.nodes] at hnode
    obtain ⟨t, -, rfl⟩ := List.mem_map.mp hnode
    exact ⟨t, rfl⟩

section Direct

variable (hdirect : Direct symbol c types)
include hdirect

theorem mem_claimed_of_claimed (hs : Claimed symbol types s) : s ∈ claimed.values := by
  obtain ⟨t, hget⟩ := OrderedDict.mem_keys_iff.mp (h.names s hs)
  have ht := OrderedDict.mem_values_iff.mpr ⟨_, hget⟩
  obtain rfl := hdirect.names t s (h.mem_claimed t ht).needed hs.needed (h.claimedNamed _ t hget)
  exact ht

/-- The edges of a step lead to the steps that it requires. -/
theorem mem_requires_iff (hs : s ∈ steps.values) {y : Dep S} :
    y ∈ c'.requires s ↔ ∃ t, y = .step t ∧ Requires symbol c s t := by
  rw [h.resolved.requires]
  split
  · simp only [List.mem_map, Requires, eq_comm, and_comm]
  next hmem =>
    have hnot : ¬ Claimed symbol types s := fun hs => hmem (h.mem_claimed_of_claimed hdirect hs)
    have hclasses := hdirect.classes s (h.collected.needed s hs) hnot
    simp only [Requires, mem_targets_iff]
    constructor
    · intro hy
      obtain ⟨t, rfl⟩ := hclasses y hy
      exact ⟨t, rfl, .step t, hy, rfl⟩
    · rintro ⟨t, rfl, dep, hdep, ht⟩
      obtain ⟨t', rfl⟩ := hclasses dep hdep
      obtain rfl := Except.ok.inj ht
      exact hdep

theorem edge_step_iff {y : Dep S} : g.Edge (.step s) y ↔ s ∈ steps.values ∧
    ((∃ t, y = .step t ∧ Requires symbol c s t) ∨
      findLast c claimed = some s ∧ y ∈ g.nodes ∧ y ≠ .step s) := by
  rw [h.edges, h.nodes]
  constructor
  · rintro ⟨t, ht, heq, hy⟩
    obtain rfl := Dep.step.inj heq
    exact ⟨ht, hy.imp_left (h.mem_requires_iff hdirect ht).mp⟩
  · rintro ⟨hs, hy⟩
    exact ⟨s, hs, rfl, hy.imp_left (h.mem_requires_iff hdirect hs).mpr⟩

theorem mem_nodes_iff_needed : Dep.step s ∈ g.nodes ↔ Needed symbol c types s := by
  rw [h.mem_nodes_iff]
  exact ⟨h.collected.needed s, h.mem_of_needed hdirect.names⟩

/-- **The graph is closed.** -/
theorem closed : g.Closed := by
  intro x y hedge
  have hx := hedge.mem_nodes
  rw [h.nodes] at hx
  obtain ⟨s, -, rfl⟩ := List.mem_map.mp hx
  obtain ⟨hs, ⟨t, rfl, hst⟩ | ⟨-, hy, -⟩⟩ := (h.edge_step_iff hdirect).mp hedge
  · exact (h.mem_nodes_iff_needed hdirect).mpr ((h.collected.needed s hs).of_requires hst)
  · exact hy

variable (hadmissible : Admissible symbol c types)
include hadmissible

/-- The last step has no edges that lead to it. -/
theorem not_edge_last {l : S} (hl : findLast c claimed = some l) (x : Dep S) :
    ¬ g.Edge x (.step l) := by
  intro hedge
  have hmem := List.mem_of_find?_eq_some hl
  have hlast : c.last l := List.find?_some hl
  obtain ⟨s, hs, rfl, -⟩ := (h.edges _ _).mp hedge
  obtain ⟨-, ⟨t, heq, hst⟩ | ⟨hl', -, hne⟩⟩ := (h.edge_step_iff hdirect).mp hedge
  · obtain rfl := Dep.step.inj heq
    exact hadmissible.last l (h.mem_claimed l hmem) hlast s (h.collected.needed s hs) hst
  · obtain rfl := Option.some.inj (hl.symm.trans hl')
    exact hne rfl

/-- Apart from the last step, a path leads to what is required. -/
theorem requires_of_transGen {x y : Dep S} (hpath : Relation.TransGen g.Edge x y)
    (hx : x = .step s) (hs : findLast c claimed ≠ some s) :
    ∃ t, y = .step t ∧ Relation.TransGen (Requires symbol c) s t := by
  subst hx
  induction hpath with
  | single hedge =>
    obtain ⟨-, ⟨t, rfl, hst⟩ | ⟨hl, -⟩⟩ := (h.edge_step_iff hdirect).mp hedge
    · exact ⟨t, rfl, .single hst⟩
    · exact absurd hl hs
  | tail hpath hedge ih =>
    obtain ⟨t, rfl, hst⟩ := ih
    obtain ⟨-, ⟨u, rfl, htu⟩ | ⟨hl, -⟩⟩ := (h.edge_step_iff hdirect).mp hedge
    · exact ⟨u, rfl, hst.tail htu⟩
    · obtain ⟨x, -, hlast⟩ := Relation.TransGen.tail'_iff.mp hpath
      exact absurd hlast (h.not_edge_last hdirect hadmissible hl x)

/-- **The graph has no cycle.** -/
theorem acyclic : g.Acyclic := by
  intro x hcycle
  obtain ⟨y, -, hedge⟩ := Relation.TransGen.tail'_iff.mp hcycle
  have hnode := h.closed hdirect y x hedge
  rw [h.nodes] at hnode
  obtain ⟨s, hs, rfl⟩ := List.mem_map.mp hnode
  have hlast : findLast c claimed ≠ some s := fun hl =>
    h.not_edge_last hdirect hadmissible hl y hedge
  obtain ⟨t, heq, hpath⟩ := h.requires_of_transGen hdirect hadmissible hcycle rfl hlast
  obtain rfl := Dep.step.inj heq
  exact hadmissible.acyclic s (h.collected.needed s hs) hpath

/-- The claimed step that is marked last is the one that `_find_last` finds. -/
theorem findLast_eq {l : S} (hl : Claimed symbol types l) (hlast : c.last l) :
    findLast c claimed = some l := by
  have hmem := h.mem_claimed_of_claimed hdirect hl
  have hsome : (findLast c claimed).isSome := List.find?_isSome.mpr ⟨l, hmem, hlast⟩
  obtain ⟨l', hl'⟩ := Option.isSome_iff_exists.mp hsome
  have hmem' := h.mem_claimed l' (List.mem_of_find?_eq_some hl')
  rw [hl', hadmissible.last_unique l' l hmem' hl (List.find?_some hl') hlast]

/-- **The sorted graph** has the steps in order. -/
theorem exists_ordered : ∃ steps, g.topsort = .ok (steps.map .step) ∧
    Ordered symbol c types steps := by
  have hclosed := h.closed hdirect
  obtain ⟨result, hresult, -, hsorted⟩ := DependencyGraph.topsort_sorts hclosed
  obtain ⟨hperm, hbefore⟩ := hsorted (h.acyclic hdirect hadmissible)
  have hstep : ∀ x ∈ result, ∃ s, Dep.step s = x := by
    intro x hx
    have hnode := hperm.mem_iff.mp hx
    rw [h.nodes] at hnode
    obtain ⟨s, -, rfl⟩ := List.mem_map.mp hnode
    exact ⟨s, rfl⟩
  obtain ⟨sorted, rfl⟩ := exists_map_of_forall result hstep
  have hinj : Function.Injective (Dep.step : S → Dep S) := fun _ _ => Dep.step.inj
  have hmem : ∀ s, s ∈ sorted ↔ Needed symbol c types s := by
    intro s
    rw [← h.mem_nodes_iff_needed hdirect, ← hperm.mem_iff, List.mem_map_of_injective hinj]
  have hsub : ∀ {s t : S}, g.Edge (.step s) (.step t) → [t, s].Sublist sorted := by
    intro s t hedge
    obtain ⟨l, hl, heq⟩ := List.sublist_map_iff.mp (hbefore _ _ hedge)
    have hl' : [t, s].map Dep.step = l.map Dep.step := heq
    rwa [List.map_injective_iff.mpr hinj hl']
  have hnodup : sorted.Nodup := List.Nodup.of_map _ (hperm.nodup_iff.mpr g.adjacent.nodup)
  refine ⟨sorted, hresult, hnodup, hmem, fun s t hs hst => hsub ?_, fun l hl hlast => ?_⟩
  · exact (h.edge_step_iff hdirect).mpr
      ⟨h.mem_of_needed hdirect.names hs, .inl ⟨t, rfl, hst⟩⟩
  · refine getLast?_of_forall_before hnodup ((hmem l).mpr hl.needed) fun s hs hne => hsub ?_
    refine (h.edge_step_iff hdirect).mpr ⟨h.mem_of_needed hdirect.names hl.needed, .inr
      ⟨h.findLast_eq hdirect hadmissible hl hlast, ?_, fun heq => hne (Dep.step.inj heq)⟩⟩
    exact (h.mem_nodes_iff_needed hdirect).mpr ((hmem s).mp hs)

end Direct

end Built

/-- **When the steps of a blueprint are put in order.** -/
theorem ordered_iff_direct (h : Admissible symbol c types) :
    (∃ n steps, (∀ fuel, n ≤ fuel → order symbol fuel c types = .ok (steps.map .step)) ∧
      Ordered symbol c types steps) ↔ Direct symbol c types := by
  obtain ⟨n, claimed, steps, c', g, hbuilt, horder⟩ := h.exists_built
  constructor
  · rintro ⟨n', sorted, hsorted, hordered⟩
    have heq := (horder _ (le_max_left n n')).symm.trans (hsorted _ (le_max_right n n'))
    have htopsort : g.topsort = .ok (sorted.map .step) := by
      cases hg : g.topsort with
      | error e =>
        rw [hg] at heq
        cases heq
      | ok result =>
        rw [hg] at heq
        exact congrArg Except.ok (Except.ok.inj heq)
    have hclosed := DependencyGraph.closed_of_topsort htopsort
    obtain ⟨result, hresult, htopsorted, -⟩ := DependencyGraph.topsort_sorts hclosed
    obtain rfl := Except.ok.inj (hresult.symm.trans htopsort)
    refine hbuilt.direct_of_closed hclosed fun s hs => ?_
    rw [← hbuilt.mem_nodes_iff]
    exact htopsorted.mem_nodes _ (List.mem_map_of_mem ((hordered.mem_iff s).mpr hs))
  · intro hdirect
    obtain ⟨sorted, htopsort, hordered⟩ := hbuilt.exists_ordered hdirect h
    refine ⟨n, sorted, fun fuel hfuel => ?_, hordered⟩
    rw [horder fuel hfuel, htopsort]
    rfl

end Model

/-! ## A step that is only required -/

/-- What can be imported in the blueprints below. -/
def cSymbol (name : String) : Option (Fin 4) := if name = "m:C" then some 2 else none

/-- Four steps: the first requires the second by its class, the second the third by `dep`, and
the fourth is the last. -/
def fourSteps (dep : Dep (Fin 4)) : Steps (Fin 4) where
  name := fun
    | 0 => "A"
    | 1 => "B"
    | 2 => "C"
    | 3 => "D"
  last s := s = 3
  requires := fun
    | 0 => [.step 1]
    | 1 => [dep]
    | _ => []

/-- The first and the fourth are claimed. -/
def claimTwo : List (Dep (Fin 4)) := [.step 0, .step 3]

theorem requires_fourSteps {dep : Dep (Fin 4)} (h : symbolByName cSymbol dep = .ok 2)
    {s t : Fin 4} (hst : Requires cSymbol (fourSteps dep) s t) : s < t ∧ t ≠ 3 := by
  obtain ⟨d, hd, ht⟩ := mem_targets_iff.mp hst
  match s with
  | 0 =>
    obtain rfl := List.mem_singleton.mp hd
    obtain rfl := Except.ok.inj ht
    decide
  | 1 =>
    obtain rfl := List.mem_singleton.mp hd
    obtain rfl := Except.ok.inj (h.symm.trans ht)
    decide
  | 2 => cases hd
  | 3 => cases hd

theorem admissible_fourSteps {dep : Dep (Fin 4)} (h : symbolByName cSymbol dep = .ok 2) :
    Admissible cSymbol (fourSteps dep) claimTwo where
  claimed := resolves_map_step [0, 3]
  resolves := by
    intro s _ d hd
    match s with
    | 0 => exact ⟨1, List.mem_singleton.mp hd ▸ rfl⟩
    | 1 => exact ⟨2, List.mem_singleton.mp hd ▸ h⟩
    | 2 => cases hd
    | 3 => cases hd
  finite := Set.toFinite _
  acyclic := by
    intro s _ hcycle
    have hlt : ∀ t, Relation.TransGen (Requires cSymbol (fourSteps dep)) s t → s < t := by
      intro t hpath
      induction hpath with
      | single hst => exact (requires_fourSteps h hst).1
      | tail _ hst ih => exact ih.trans (requires_fourSteps h hst).1
    exact lt_irrefl s (hlt s hcycle)
  last := by
    intro l _ hl s _ hsl
    exact (requires_fourSteps h hsl).2 (of_decide_eq_true hl)
  last_unique := by
    intro l l' _ _ hl hl'
    exact (of_decide_eq_true hl).trans (of_decide_eq_true hl').symm

theorem direct_fourSteps : Direct cSymbol (fourSteps (.step 2)) claimTwo where
  names := by
    intro s t _ _ h
    match s, t with
    | 0, 0 | 1, 1 | 2, 2 | 3, 3 => rfl
    | 0, 1 | 0, 2 | 0, 3 | 1, 0 | 1, 2 | 1, 3 | 2, 0 | 2, 1 | 2, 3 | 3, 0 | 3, 1 | 3, 2 =>
      exact absurd h (by decide)
  classes := by
    intro s _ _ dep hdep
    match s with
    | 0 => exact ⟨1, List.mem_singleton.mp hdep⟩
    | 1 => exact ⟨2, List.mem_singleton.mp hdep⟩
    | 2 => cases hdep
    | 3 => cases hdep

/-- Four steps that are required by classes are put in order. -/
theorem fourSteps_ordered : ∃ n steps,
    (∀ fuel, n ≤ fuel →
      order cSymbol fuel (fourSteps (.step 2)) claimTwo = .ok (steps.map .step)) ∧
    Ordered cSymbol (fourSteps (.step 2)) claimTwo steps :=
  (ordered_iff_direct (admissible_fourSteps rfl)).mpr direct_fourSteps

example : order cSymbol 7 (fourSteps (.step 2)) claimTwo =
    .ok [.step 2, .step 1, .step 0, .step 3] := rfl

/-- The second step is not claimed, and what it requires by name is not found: whatever the fuel,
`_finalize_steps` raises. -/
theorem fourSteps_not_ordered : Admissible cSymbol (fourSteps (.path "m:C")) claimTwo ∧
    ¬ ∃ n steps, (∀ fuel, n ≤ fuel →
        order cSymbol fuel (fourSteps (.path "m:C")) claimTwo = .ok (steps.map .step)) ∧
      Ordered cSymbol (fourSteps (.path "m:C")) claimTwo steps := by
  refine ⟨admissible_fourSteps rfl, ?_⟩
  rintro ⟨n, steps, horder, -⟩
  have herror : order cSymbol (n + 7) (fourSteps (.path "m:C")) claimTwo =
      .error .unknownBootstep := rfl
  rw [horder _ (Nat.le_add_right n 7)] at herror
  cases herror

end Bootsteps
end Celery
