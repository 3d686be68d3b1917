/-
# `celery/backends/asynchronous.py`: the buckets of `iter_native`

`iter_native` (lines 230-260) yields what is put into its bucket: at once the nodes that have
their meta, and then those whose meta arrives, each by `on_state_change` (lines 429-451).  It gets
each node once, with its meta, and no other (`bucket_of_run`).  It never gets a node that comes to
its meta by itself, or whose registration is removed, before a message arrives, so there are to be
none of these.
-/

import Celery.Backends.Pending

namespace Celery
namespace AsyncBackend
namespace Client

variable {K R V B : Type} [DecidableEq K] [DecidableEq R] [DecidableEq B] {id : R → K}
  {s t : Client K R V B} {nodes : List R} {bucket : B}

/-- The node of a task, if there is one, is in the bucket. -/
def Done (id : R → K) (nodes : List R) (bucket : B) (s : Client K R V B) (k : K) : Prop :=
  ∀ n ∈ nodes, id n = k → n ∈ s.contents bucket

/-- A call that takes no node away that is not in the bucket yet. -/
def Spares (id : R → K) (nodes : List R) (bucket : B) (s : Client K R V B) :
    Event K R V B → Prop
  | .getTaskMeta result _ => s.cache result = none → Done id nodes bucket s (id result)
  | .removePendingResult result => Done id nodes bucket s (id result)
  | .iterNative results b => b ≠ bucket ∧ ∀ r ∈ results, Done id nodes bucket s (id r)
  | _ => True

/-- A message is the final meta of a node. -/
def Arrives (id : R → K) (n : R) : Event K R V B → Prop
  | .onStateChange meta_ => meta_.ready ∧ meta_.taskId = id n
  | _ => False

/-- The bucket has some of the nodes, each once and with its meta, and the others are awaited. -/
structure Bucketed (id : R → K) (nodes : List R) (bucket : B) (s : Client K R V B) : Prop where
  nodup : (s.contents bucket).Nodup
  subset : ∀ n ∈ s.contents bucket, n ∈ nodes
  cached : ∀ n ∈ s.contents bucket, s.cache n ≠ none
  waits : ∀ n ∈ nodes, n ∉ s.contents bucket →
    s.buckets.get? (id n) = some bucket ∧ s.getPendingResult (id n) = some n
  collected : ∀ k, s.buckets.get? k = some bucket → ¬ Done id nodes bucket s k

omit [DecidableEq R] [DecidableEq B] in
/-- Nothing that the bucket depends on changes. -/
theorem Bucketed.congr (h : Bucketed id nodes bucket s)
    (hcontents : t.contents bucket = s.contents bucket)
    (hcache : ∀ r, s.cache r ≠ none → t.cache r ≠ none)
    (hbuckets : ∀ k, ¬ Done id nodes bucket s k → t.buckets.get? k = s.buckets.get? k)
    (hnew : ∀ k, Done id nodes bucket s k → t.buckets.get? k ≠ some bucket)
    (hpending : ∀ k, ¬ Done id nodes bucket s k →
      t.getPendingResult k = s.getPendingResult k) : Bucketed id nodes bucket t := by
  have hdone : ∀ k, Done id nodes bucket t k ↔ Done id nodes bucket s k := fun k => by
    rw [Done, Done, hcontents]
  have hwaits : ∀ n ∈ nodes, n ∉ s.contents bucket → ¬ Done id nodes bucket s (id n) :=
    fun n hn hnot hk => hnot (hk n hn rfl)
  refine ⟨hcontents ▸ h.nodup, hcontents ▸ h.subset, fun n hn => ?_, fun n hn hnot => ?_,
    fun k hk => ?_⟩
  · exact hcache n (h.cached n (hcontents ▸ hn))
  · rw [hcontents] at hnot
    have hopen := hwaits n hn hnot
    rw [hbuckets _ hopen, hpending _ hopen]
    exact h.waits n hn hnot
  · rw [hdone]
    by_contra hclosed
    exact hnew k hclosed hk

omit [DecidableEq R] [DecidableEq B] in
theorem Bucketed.removePendingResult (h : Bucketed id nodes bucket s) {result : R}
    (hdone : Done id nodes bucket s (id result)) :
    Bucketed id nodes bucket (removePendingResult id s result) := by
  refine h.congr rfl (fun _ hr => hr) (fun _ _ => rfl) (fun k hk hget => h.collected k hget hk)
    fun k hk => ?_
  have hne : k ≠ id result := fun heq => hk (heq ▸ hdone)
  rw [getPendingResult_removePendingResult, if_neg hne]

omit [DecidableEq K] [DecidableEq B] in
/-- A cache that is set is not empty. -/
theorem update_ne_none {cache : R → Option (Meta K V)} {r : R} (result : R) (meta_ : Meta K V)
    (h : r ≠ result → cache r ≠ none) : Function.update cache result (some meta_) r ≠ none := by
  by_cases heq : r = result
  · rw [heq, Function.update_self]
    exact Option.some_ne_none meta_
  · rw [Function.update_of_ne heq]
    exact h heq

omit [DecidableEq B] in
theorem Bucketed.maybeSetCache (h : Bucketed id nodes bucket s) {result : R}
    (hdone : Done id nodes bucket s (id result)) (meta_ : Meta K V) :
    Bucketed id nodes bucket (maybeSetCache id s result meta_) := by
  rw [Client.maybeSetCache]
  split
  · refine Bucketed.removePendingResult ?_ hdone
    exact h.congr rfl (fun r hr => update_ne_none result meta_ fun _ => hr) (fun _ _ => rfl)
      (fun k hk hget => h.collected k hget hk) fun _ _ => rfl
  · exact h

omit [DecidableEq R] in
/-- A result that is no node, or one that the bucket has, is sent elsewhere. -/
theorem Bucketed.sendToBucket (h : Bucketed id nodes bucket s) {result : R}
    (hdone : Done id nodes bucket s (id result)) :
    Bucketed id nodes bucket (sendToBucket id s result) ∧
      (sendToBucket id s result).contents bucket = s.contents bucket := by
  cases hget : s.buckets.get? (id result) with
  | none =>
    have hsame : Client.sendToBucket id s result = s := by rw [Client.sendToBucket, hget]
    rw [hsame]
    exact ⟨h, rfl⟩
  | some b =>
    have hne : bucket ≠ b := by
      rintro rfl
      exact h.collected _ hget hdone
    have hsent : Client.sendToBucket id s result = { s with
        buckets := s.buckets.pop (id result)
        contents := Function.update s.contents b (s.contents b ++ [result]) } := by
      rw [Client.sendToBucket, hget]
    rw [hsent]
    have hcontents := Function.update_of_ne hne (s.contents b ++ [result]) s.contents
    refine ⟨h.congr hcontents (fun _ hr => hr) (fun k hk => ?_) (fun k hk hpop => ?_)
      fun _ _ => rfl, hcontents⟩
    · have hne : k ≠ id result := fun heq => hk (heq ▸ hdone)
      rw [OrderedDict.get?_pop, if_neg hne]
    · rw [OrderedDict.get?_pop] at hpop
      split at hpop
      · cases hpop
      · exact h.collected k hpop hk

/-- What is left as an object gets its meta and is sent to its bucket. -/
theorem arrive_eq {n : R} {meta_ : Meta K V} (hready : meta_.ready)
    (hget : s.buckets.get? (id n) = some bucket) :
    ∃ t, Client.sendToBucket id (Client.maybeSetCache id s n meta_) n = t ∧
      t.cache = Function.update s.cache n (some meta_) ∧ t.buckets = s.buckets.pop (id n) ∧
      t.contents bucket = s.contents bucket ++ [n] ∧
      ∀ k, t.getPendingResult k = if k = id n then none else s.getPendingResult k := by
  have hset : Client.maybeSetCache id s n meta_ = Client.removePendingResult id
      { s with cache := Function.update s.cache n (some meta_) } n := if_pos hready
  have hget' : (Client.maybeSetCache id s n meta_).buckets.get? (id n) = some bucket := by
    rw [hset]
    exact hget
  refine ⟨_, rfl, ?_⟩
  rw [Client.sendToBucket, hget', hset]
  exact ⟨rfl, rfl, Function.update_self bucket _ s.contents,
    getPendingResult_removePendingResult { s with cache := _ } n⟩

/-- **The meta of a node arrives**, and the node is put into the bucket. -/
theorem Bucketed.arrive (h : Bucketed id nodes bucket s) (hnodup : (nodes.map id).Nodup) {n : R}
    (hn : n ∈ nodes) (hnot : n ∉ s.contents bucket) {meta_ : Meta K V} (hready : meta_.ready) :
    Bucketed id nodes bucket (Client.sendToBucket id (Client.maybeSetCache id s n meta_) n) ∧
      (Client.sendToBucket id (Client.maybeSetCache id s n meta_) n).contents bucket =
        s.contents bucket ++ [n] := by
  obtain ⟨hget, -⟩ := h.waits n hn hnot
  obtain ⟨t, ht, hcache, hbuckets, hcontents, hpending⟩ := arrive_eq hready hget
  rw [ht]
  -- another node has another id
  have hother : ∀ n' ∈ nodes, n' ∉ s.contents bucket ++ [n] → id n' ≠ id n := by
    intro n' hn' hnot' heq
    obtain rfl := List.inj_on_of_nodup_map hnodup hn' hn heq
    exact hnot' (List.mem_append_right _ (List.mem_singleton_self _))
  refine ⟨⟨?_, ?_, ?_, ?_, ?_⟩, hcontents⟩
  · rw [hcontents]
    exact h.nodup.append (List.nodup_singleton n) (List.disjoint_singleton.mpr hnot)
  · rw [hcontents]
    intro n' hn'
    rcases List.mem_append.mp hn' with hn' | hn'
    · exact h.subset n' hn'
    · exact List.mem_singleton.mp hn' ▸ hn
  · rw [hcontents]
    intro n' hn'
    rw [hcache]
    refine update_ne_none n meta_ fun hne => ?_
    rcases List.mem_append.mp hn' with hn' | hn'
    · exact h.cached n' hn'
    · exact absurd (List.mem_singleton.mp hn') hne
  · rw [hcontents]
    intro n' hn' hnot'
    have hne := hother n' hn' hnot'
    rw [hbuckets, OrderedDict.get?_pop, if_neg hne, hpending, if_neg hne]
    exact h.waits n' hn' fun hmem => hnot' (List.mem_append_left _ hmem)
  · intro k hk hdone
    rw [hbuckets, OrderedDict.get?_pop] at hk
    split at hk
    · cases hk
    next hne =>
      refine h.collected k hk fun n' hn' heq => ?_
      have hmem : n' ∈ s.contents bucket ++ [n] := hcontents ▸ hdone n' hn' heq
      rcases List.mem_append.mp hmem with hmem | hmem
      · exact hmem
      · exact absurd (List.mem_singleton.mp hmem ▸ heq).symm hne

omit [DecidableEq B] in
theorem contents_maybeSetCache (s : Client K R V B) (result : R) (meta_ : Meta K V) :
    (Client.maybeSetCache id s result meta_).contents = s.contents := by
  rw [Client.maybeSetCache]
  split <;> rfl

omit [DecidableEq R] [DecidableEq B] in
/-- A task that is not awaited is no node, or the bucket has the node. -/
theorem Bucketed.done_of_free (h : Bucketed id nodes bucket s) {k : K}
    (hfree : s.getPendingResult k = none) : Done id nodes bucket s k := by
  intro n hn heq
  by_contra hnot
  have hpending := (h.waits n hn hnot).2
  rw [heq, hfree] at hpending
  cases hpending

omit [DecidableEq B] in
/-- A result that is added is awaited already, if it is a node that the bucket has not. -/
theorem Bucketed.addPendingResult (h : Bucketed id nodes bucket s) (hsound : Sound id s)
    (result : R) (weak : Bool) :
    Bucketed id nodes bucket (Client.addPendingResult id s result weak) ∧
      (Client.addPendingResult id s result weak).contents = s.contents := by
  obtain ⟨htake, hrest⟩ := s.pendingMessages.take_eq (id result)
  rw [Client.addPendingResult, htake]
  cases hpending : s.getPendingResult (id result) with
  | some r =>
    rw [hsound.exclusive _ r hpending]
    show Bucketed id nodes bucket (register id s result weak) ∧
      (register id s result weak).contents = s.contents
    rw [register_of_pending weak hpending]
    exact ⟨h, rfl⟩
  | none =>
    have hdone := h.done_of_free hpending
    cases s.pendingMessages.messages (id result) with
    | nil =>
      show Bucketed id nodes bucket (register id s result weak) ∧
        (register id s result weak).contents = s.contents
      obtain ⟨-, hcache, hbuckets, hcontents⟩ := register_frame id s result weak
      refine ⟨h.congr (congrFun hcontents bucket) (fun r hr => hcache ▸ hr)
        (fun k _ => by rw [hbuckets]) (fun k hk hget => h.collected k (hbuckets ▸ hget) hk)
        fun k hk => ?_, hcontents⟩
      have hne : k ≠ id result := fun heq => hk (heq ▸ hdone)
      rw [getPendingResult_register s result weak hpending, if_neg hne]
    | cons meta_ metas =>
      have htaken : Bucketed id nodes bucket
          { s with pendingMessages := (s.pendingMessages.take (id result)).2 } :=
        h.congr rfl (fun _ hr => hr) (fun _ _ => rfl) (fun k hk hget => h.collected k hget hk)
          fun _ _ => rfl
      exact ⟨htaken.maybeSetCache hdone meta_, contents_maybeSetCache _ result meta_⟩

omit [DecidableEq R] in
/-- Another bucket gets what is no node, or what this bucket has. -/
theorem Bucketed.iterNative (h : Bucketed id nodes bucket s) {results : List R} {b : B}
    (hb : b ≠ bucket) (hdone : ∀ r ∈ results, Done id nodes bucket s (id r)) :
    Bucketed id nodes bucket (Client.iterNative id s results b) ∧
      (Client.iterNative id s results b).contents bucket = s.contents bucket := by
  induction results using List.reverseRecOn with
  | nil => exact ⟨h, rfl⟩
  | append_singleton results r ih =>
    obtain ⟨hbucketed, hcontents⟩ := ih fun r' hr' => hdone r' (List.mem_append_left _ hr')
    have hdone_r := hdone r (List.mem_append_right _ (List.mem_singleton_self r))
    rw [Client.iterNative, List.foldl_append]
    rw [Client.iterNative] at hbucketed hcontents
    set u := results.foldl (collect id b) s
    have hdone_u : Done id nodes bucket u (id r) := fun n hn heq => by
      rw [hcontents]
      exact hdone_r n hn heq
    show Bucketed id nodes bucket (collect id b u r) ∧ (collect id b u r).contents bucket = _
    rw [collect]
    split
    · have hother := Function.update_of_ne hb.symm (u.contents b ++ [r]) u.contents
      refine ⟨hbucketed.congr hother (fun _ hr => hr) (fun _ _ => rfl)
        (fun k hk hget => hbucketed.collected k hget hk) fun _ _ => rfl, hother.trans hcontents⟩
    · refine ⟨hbucketed.congr rfl (fun _ hr => hr) (fun k hk => ?_) (fun k hk hget => ?_)
        fun _ _ => rfl, hcontents⟩
      · have hne : k ≠ id r := fun heq => hk (heq ▸ hdone_u)
        rw [OrderedDict.get?_set, if_neg hne]
      · rw [OrderedDict.get?_set] at hget
        split at hget
        · exact hb (Option.some.inj hget)
        · exact hbucketed.collected k hget hk

omit [DecidableEq K] [DecidableEq R] [DecidableEq B] in
/-- What the bucket has after a call that puts nothing into it. -/
theorem mem_of_same {e : Event K R V B} (hcontents : t.contents bucket = s.contents bucket)
    (hold : ∀ n ∈ nodes, Arrives id n e → n ∈ s.contents bucket) (n : R) :
    n ∈ t.contents bucket ↔ n ∈ s.contents bucket ∨ n ∈ nodes ∧ Arrives id n e := by
  rw [hcontents]
  exact ⟨.inl, fun hn => hn.elim (fun hn => hn) fun hn => hold n hn.1 hn.2⟩

/-- **A message** puts the node that it is the final meta of into the bucket. -/
theorem Bucketed.onStateChange (h : Bucketed id nodes bucket s) (hsound : Sound id s)
    (hnodup : (nodes.map id).Nodup) {meta_ : Meta K V}
    (ht : Client.onStateChange id s meta_ = .ok t) :
    Bucketed id nodes bucket t ∧ ∀ n, n ∈ t.contents bucket ↔
      n ∈ s.contents bucket ∨ n ∈ nodes ∧ Arrives id n (.onStateChange (B := B) meta_) := by
  rw [Client.onStateChange] at ht
  by_cases hready : meta_.ready = true
  · rw [if_pos hready] at ht
    cases hpending : s.getPendingResult meta_.taskId with
    | none =>
      have hdone := h.done_of_free hpending
      obtain ⟨m, hput, -⟩ := hsound.accounted.put meta_.taskId meta_
      rw [hpending] at ht
      simp only [hput] at ht
      obtain rfl := Except.ok.inj ht
      exact ⟨h.congr rfl (fun _ hr => hr) (fun _ _ => rfl)
        (fun k hk hget => h.collected k hget hk) fun _ _ => rfl,
        mem_of_same rfl fun n hn harrives => hdone n hn harrives.2.symm⟩
    | some result =>
      have hid := hsound.keyed _ _ hpending
      rw [hpending] at ht
      obtain rfl := Except.ok.inj ht
      by_cases hdone : Done id nodes bucket s meta_.taskId
      · -- it is the meta of no node, or of one that the bucket has
        have hcontents : (Client.maybeSetCache id s result meta_).contents bucket =
            s.contents bucket := congrFun (contents_maybeSetCache s result meta_) bucket
        have hdone' :
            Done id nodes bucket (Client.maybeSetCache id s result meta_) (id result) := by
          intro n hn heq
          rw [hcontents]
          exact hdone n hn (heq.trans hid)
        obtain ⟨hsent, hsame⟩ := (h.maybeSetCache (hid ▸ hdone) meta_).sendToBucket hdone'
        exact ⟨hsent, mem_of_same (hsame.trans hcontents)
          fun n hn harrives => hdone n hn harrives.2.symm⟩
      · obtain ⟨n, hn, heq, hnot⟩ : ∃ n ∈ nodes, id n = meta_.taskId ∧ n ∉ s.contents bucket := by
          by_contra hall
          push Not at hall
          exact hdone hall
        have hwaits := (h.waits n hn hnot).2
        rw [heq, hpending] at hwaits
        obtain rfl := Option.some.inj hwaits
        obtain ⟨hsent, hcontents⟩ := h.arrive hnodup hn hnot hready
        refine ⟨hsent, fun n' => ?_⟩
        rw [hcontents, List.mem_append, List.mem_singleton]
        refine or_congr_right ⟨fun heq' => heq' ▸ ⟨hn, hready, heq.symm⟩, fun hn' => ?_⟩
        exact List.inj_on_of_nodup_map hnodup hn'.1 hn (hn'.2.2.symm.trans heq.symm)
  · rw [if_neg hready] at ht
    obtain rfl := Except.ok.inj ht
    exact ⟨h, mem_of_same rfl fun n _ harrives => absurd harrives.1 hready⟩

/-- **A call leaves the bucket as it is, unless it is the meta of a node that arrives.** -/
theorem Bucketed.step (h : Bucketed id nodes bucket s) (hsound : Sound id s)
    (hnodup : (nodes.map id).Nodup) {e : Event K R V B} (hspares : Spares id nodes bucket s e)
    (ht : Client.step id s e = .ok t) :
    Bucketed id nodes bucket t ∧
      ∀ n, n ∈ t.contents bucket ↔ n ∈ s.contents bucket ∨ n ∈ nodes ∧ Arrives id n e := by
  cases e with
  | onStateChange meta_ => exact h.onStateChange hsound hnodup ht
  | addPendingResult result weak =>
    obtain rfl := Except.ok.inj ht
    obtain ⟨hadded, hcontents⟩ := h.addPendingResult hsound result weak
    exact ⟨hadded, mem_of_same (congrFun hcontents bucket) fun _ _ => False.elim⟩
  | removePendingResult result =>
    obtain rfl := Except.ok.inj ht
    exact ⟨h.removePendingResult hspares, mem_of_same rfl fun _ _ => False.elim⟩
  | forget taskId =>
    obtain rfl := Except.ok.inj ht
    exact ⟨h.congr rfl (fun _ hr => hr) (fun _ _ => rfl)
      (fun k hk hget => h.collected k hget hk) fun _ _ => rfl,
      mem_of_same rfl fun _ _ => False.elim⟩
  | iterNative results b =>
    obtain rfl := Except.ok.inj ht
    obtain ⟨hcollected, hcontents⟩ := h.iterNative hspares.1 hspares.2
    exact ⟨hcollected, mem_of_same hcontents fun _ _ => False.elim⟩
  | getTaskMeta result meta_ =>
    obtain rfl := Except.ok.inj ht
    cases hget : s.cache result with
    | none =>
      have hmiss : Client.getTaskMeta id s result meta_ =
          Client.maybeSetCache id s result meta_ := by
        rw [Client.getTaskMeta, hget]
      rw [hmiss]
      exact ⟨h.maybeSetCache (hspares hget) meta_,
        mem_of_same (congrFun (contents_maybeSetCache s result meta_) bucket)
          fun _ _ => False.elim⟩
    | some cached =>
      have hhit : Client.getTaskMeta id s result meta_ = s := by rw [Client.getTaskMeta, hget]
      rw [hhit]
      exact ⟨h, mem_of_same rfl fun _ _ => False.elim⟩

omit [DecidableEq R] in
/-- **What the bucket has as `iter_native` begins to wait.** -/
theorem bucketed_iterNative (hnodup : (nodes.map id).Nodup) (hempty : s.contents bucket = [])
    (hnew : ∀ k, s.buckets.get? k ≠ some bucket)
    (hawaited : ∀ n ∈ nodes, s.cache n = none → s.getPendingResult (id n) = some n) :
    Bucketed id nodes bucket (Client.iterNative id s nodes bucket) ∧
      ∀ n, n ∈ (Client.iterNative id s nodes bucket).contents bucket ↔
        n ∈ nodes ∧ s.cache n ≠ none := by
  obtain ⟨buckets, contents, heq, hcontents, hset, hrest⟩ := iterNative_spec id s nodes bucket
  rw [hempty, List.nil_append] at hcontents
  have hmem : ∀ n, n ∈ contents bucket ↔ n ∈ nodes ∧ s.cache n ≠ none := fun n => by
    rw [hcontents, List.mem_filter, Option.isSome_iff_ne_none]
  rw [heq]
  refine ⟨⟨?_, fun n hn => ((hmem n).mp hn).1, fun n hn => ((hmem n).mp hn).2,
    fun n hn hnot => ?_, fun k hk hdone => ?_⟩, hmem⟩
  · show (contents bucket).Nodup
    rw [hcontents]
    exact hnodup.of_map.filter _
  · have hnone : s.cache n = none := by
      by_contra hcache
      exact hnot ((hmem n).mpr ⟨hn, hcache⟩)
    exact ⟨hset n hn hnone, hawaited n hn hnone⟩
  · rcases hrest k with hsame | ⟨n, hn, hnone, hk'⟩
    · exact hnew k (hsame ▸ hk)
    · exact ((hmem n).mp (hdone n hn hk')).2 hnone

end Client
end AsyncBackend
end Celery
