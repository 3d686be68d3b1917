/-
# `celery/backends/rpc.py`: polls in the order of the states

What `get_task_meta` (lines 325-369) replies with over a run.  The states of a task are stored one
after the other; `Ordered` says which of them are where, and is kept by every event
(`ordered_of_run`).

Whatever is stored, polled, awaited, consumed, forgotten and evicted in between, a poll never
replies with a state that was stored before one that an earlier poll replied with, if `_cache`
keeps all that is put into it (`poll_monotone`).  And whatever `_cache` keeps, a final state that
was the last one that was stored stays, until it is gone from the buffer as well (`poll_final`).
By default there is no `_cache`, so that a state that is not final, and was put aside, is gone
after one poll.
-/

import Celery.Backends.Rpc

namespace Celery
namespace Rpc

open AsyncBackend

/-! ## The order of the states -/

section Ordered

variable {K V : Type} {u : Prop} {v w : View K V} {time : Meta K V → ℕ}
  {states : List (Meta K V)}

/-- The states of a task were stored in the order of `time`.  The queue has the last of them, what
was put aside or buffered came before, and so did what is cached, unless it was requeued. -/
structure Ordered (time : Meta K V → ℕ) (states : List (Meta K V)) (v : View K V) : Prop where
  sorted : states.Pairwise fun m m' => time m < time m'
  queue : v.queue <:+ states
  held : ∀ m, v.held = some m → ¬ m.ready ∧ m ∈ states ∧ ∀ q ∈ v.queue, time m ≤ time q
  cached : ∀ m, v.cached = some m → m ∈ states ∧ (∀ q ∈ v.queue, time m ≤ time q) ∧
    ∀ h, v.held = some h → time m ≤ time h
  buffered : ∀ m ∈ v.buffered, m ∈ states ∧ (∀ q ∈ v.queue, time m ≤ time q) ∧
    ∀ h, v.held = some h → time m ≤ time h
  final : ∀ m, v.cached = some m → m.ready →
    ∀ l, v.buffered.getLast? = some l → time m ≤ time l

theorem getLast?_of_suffix {α : Type} {as bs : List α} (h : as <:+ bs) {a : α}
    (ha : as.getLast? = some a) : bs.getLast? = some a := by
  obtain ⟨cs, rfl⟩ := h
  rw [List.getLast?_append, ha, Option.some_or]

theorem Kept.eq_some {M : Type} {c c' : Option M} (h : Kept u c c') {m : M}
    (hm : c' = some m) : c = some m := by
  rcases h with rfl | ⟨-, hnone⟩
  · exact hm
  · rw [hm] at hnone
    cases hnone

theorem Kept.eq_of_unlimited {M : Type} {c c' : Option M} (h : Kept u c c') (hu : u) : c' = c :=
  h.resolve_right fun hnot => hnot.1 hu

theorem Ordered.idle (h : Ordered time states v) (hidle : Idle u v w) : Ordered time states w where
  sorted := h.sorted
  queue := hidle.queue ▸ h.queue
  held m hm := by
    rw [hidle.queue]
    exact h.held m (hidle.held ▸ hm)
  cached m hm := by
    rw [hidle.queue, hidle.held]
    exact h.cached m (hidle.cached.eq_some hm)
  buffered m hm := by
    rw [hidle.queue, hidle.held]
    exact h.buffered m (hidle.buffered.subset hm)
  final m hm hready l hl :=
    h.final m (hidle.cached.eq_some hm) hready l (getLast?_of_suffix hidle.buffered hl)

/-- Messages at the front of the queue are lost. -/
theorem Ordered.drop (h : Ordered time states v) {queue : List (Meta K V)}
    (hqueue : queue <:+ v.queue) : Ordered time states { v with queue } where
  sorted := h.sorted
  queue := hqueue.trans h.queue
  held m hm := ⟨(h.held m hm).1, (h.held m hm).2.1,
    fun q hq => (h.held m hm).2.2 q (hqueue.subset hq)⟩
  cached m hm := ⟨(h.cached m hm).1,
    fun q hq => (h.cached m hm).2.1 q (hqueue.subset hq), (h.cached m hm).2.2⟩
  buffered m hm := ⟨(h.buffered m hm).1,
    fun q hq => (h.buffered m hm).2.1 q (hqueue.subset hq), (h.buffered m hm).2.2⟩
  final := h.final

/-- The messages of the queue are in order. -/
theorem Ordered.queue_sorted (h : Ordered time states v) :
    v.queue.Pairwise fun m m' => time m < time m' :=
  h.sorted.sublist h.queue.sublist

/-- A final message is taken from the front of the queue, and buffered, and cached if it is
polled. -/
theorem Ordered.keep (h : Ordered time states v) {message : Meta K V} {queue : List (Meta K V)}
    (hqueue : message :: queue <:+ v.queue) {cached : Option (Meta K V)}
    (hcached : cached = v.cached ∨ cached = some message) :
    Ordered time states ⟨queue, none, cached, v.buffered ++ [message]⟩ := by
  have hsuffix : queue <:+ v.queue := (List.suffix_cons message queue).trans hqueue
  have hsorted := List.pairwise_cons.mp (h.queue_sorted.sublist hqueue.sublist)
  have hmem : message ∈ v.queue := hqueue.subset List.mem_cons_self
  have hcached_mem : ∀ m, cached = some m → m ∈ states ∧ time m ≤ time message := by
    rcases hcached with rfl | rfl
    · exact fun m hm => ⟨(h.cached m hm).1, (h.cached m hm).2.1 message hmem⟩
    · intro m hm
      rw [← Option.some.inj hm]
      exact ⟨h.queue.subset hmem, le_rfl⟩
  have hbuffered_mem : ∀ m ∈ v.buffered ++ [message], m ∈ states ∧ time m ≤ time message := by
    intro m hm
    rcases List.mem_append.mp hm with hm | hm
    · exact ⟨(h.buffered m hm).1, (h.buffered m hm).2.1 message hmem⟩
    · rw [List.mem_singleton.mp hm]
      exact ⟨h.queue.subset hmem, le_rfl⟩
  refine ⟨h.sorted, hsuffix.trans h.queue, fun m hm => (by cases hm), fun m hm => ?_,
    fun m hm => ?_, fun m hm hready l hl => ?_⟩
  · obtain ⟨hmem, hle⟩ := hcached_mem m hm
    exact ⟨hmem, fun q hq => hle.trans (hsorted.1 q hq).le, fun _ hnone => (by cases hnone)⟩
  · obtain ⟨hmem, hle⟩ := hbuffered_mem m hm
    exact ⟨hmem, fun q hq => hle.trans (hsorted.1 q hq).le, fun _ hnone => (by cases hnone)⟩
  · rw [List.getLast?_concat] at hl
    obtain rfl := Option.some.inj hl
    exact (hcached_mem m hm).2

/-- The last message of the queue is put aside. -/
theorem Ordered.aside (h : Ordered time states v) {message : Meta K V} {queue : List (Meta K V)}
    (hqueue : v.queue = queue ++ [message]) (hready : ¬ message.ready) :
    Ordered time states ⟨[], some message, v.cached, v.buffered⟩ := by
  have hmem : message ∈ v.queue := by simp [hqueue]
  refine ⟨h.sorted, List.nil_suffix, fun m hm => ?_, fun m hm => ?_, fun m hm => ?_, h.final⟩
  · obtain rfl := Option.some.inj hm
    exact ⟨hready, h.queue.subset hmem, fun q hq => (by cases hq)⟩
  · exact ⟨(h.cached m hm).1, fun q hq => (by cases hq),
      fun _ hheld => Option.some.inj hheld ▸ (h.cached m hm).2.1 message hmem⟩
  · exact ⟨(h.buffered m hm).1, fun q hq => (by cases hq),
      fun _ hheld => Option.some.inj hheld ▸ (h.buffered m hm).2.1 message hmem⟩

/-- A state that is not final is polled, and cached, and is the only message of the queue, if it
comes from there. -/
theorem Ordered.polled (h : Ordered time states v) {message : Meta K V} {queue : List (Meta K V)}
    (hready : ¬ message.ready) (hmem : message ∈ states) (hqueue : queue <:+ states)
    (hle : ∀ q ∈ queue, time message ≤ time q)
    (hbuffered : ∀ m ∈ v.buffered, time m ≤ time message) :
    Ordered time states ⟨queue, none, some message, v.buffered⟩ := by
  refine ⟨h.sorted, hqueue, fun m hm => (by cases hm), fun m hm => ?_, fun m hm => ?_,
    fun m hm hfinal => absurd (Option.some.inj hm ▸ hfinal) hready⟩
  · obtain rfl := Option.some.inj hm
    exact ⟨hmem, hle, fun _ hnone => (by cases hnone)⟩
  · exact ⟨(h.buffered m hm).1, fun q hq => (hbuffered m hm).trans (hle q hq),
      fun _ hnone => (by cases hnone)⟩

theorem Ordered.change (h : Ordered time states v) (hchange : Change u v w) :
    Ordered time states w := by
  cases hchange with
  | idle hqueue hidle => exact (h.drop hqueue).idle hidle
  | consume hqueue hready hidle =>
    exact (h.keep (hqueue ▸ List.suffix_rfl) (.inl rfl)).idle hidle
  | @sweep message queue _ hqueue hidle =>
    by_cases hready : message.ready = true
    · rw [View.sweep, if_pos hready] at hidle
      have hlast : [message] <:+ v.queue := hqueue ▸ List.suffix_append queue [message]
      exact (h.keep hlast (.inr rfl)).idle hidle
    · rw [View.sweep, if_neg hready] at hidle
      exact (h.aside hqueue hready).idle hidle
  | forget hidle =>
    have hforgotten : Ordered time states ⟨v.queue, none, none, []⟩ :=
      ⟨h.sorted, h.queue, fun m hm => (by cases hm), fun m hm => (by cases hm),
        fun m hm => (by cases hm), fun m hm => (by cases hm)⟩
    exact hforgotten.idle hidle

theorem Ordered.poll (h : Ordered time states v) {reply : Reply K V}
    (hpolled : Polled u v reply w) : Ordered time states w := by
  cases hpolled with
  | exceeded hqueue hidle => exact (h.drop hqueue).idle hidle
  | @held message _ hheld hidle =>
    obtain ⟨hready, hmem, hle⟩ := h.held message hheld
    exact (h.polled hready hmem h.queue hle
      fun m hm => (h.buffered m hm).2.2 message hheld).idle hidle
  | @final message queue _ _ hqueue hready hidle =>
    have hlast : [message] <:+ v.queue := hqueue ▸ List.suffix_append queue [message]
    exact (h.keep hlast (.inr rfl)).idle hidle
  | @state message queue _ _ hqueue hready hidle =>
    have hmem : message ∈ v.queue := by simp [hqueue]
    have hlast : [message] <:+ v.queue := hqueue ▸ List.suffix_append queue [message]
    refine (h.polled hready (h.queue.subset hmem) (hlast.trans h.queue) (fun q hq => ?_)
      fun m hm => (h.buffered m hm).2.1 message hmem).idle hidle
    exact List.mem_singleton.mp hq ▸ le_rfl
  | cached _ _ hidle _ => exact h.idle hidle
  | buffered _ _ hidle _ _ => exact h.idle hidle

/-- **The order of the states is kept by every event.** -/
theorem Ordered.moved (h : Ordered time states v) {metas : List (Meta K V)}
    (hmoved : Moved u v metas w)
    (hsorted : (states ++ metas).Pairwise fun m m' => time m < time m') :
    Ordered time (states ++ metas) w := by
  cases hmoved with
  | change hchange => exact (List.append_nil states).symm ▸ h.change hchange
  | polled hpolled => exact (List.append_nil states).symm ▸ h.poll hpolled
  | stored meta_ =>
    have hlt : ∀ m ∈ states, time m < time meta_ := fun m hm =>
      (List.pairwise_append.mp hsorted).2.2 m hm meta_ (List.mem_singleton_self meta_)
    have hle : ∀ m ∈ states, (∀ q ∈ v.queue, time m ≤ time q) →
        ∀ q ∈ v.queue ++ [meta_], time m ≤ time q := by
      intro m hm hqueue q hq
      rcases List.mem_append.mp hq with hq | hq
      · exact hqueue q hq
      · exact List.mem_singleton.mp hq ▸ (hlt m hm).le
    refine ⟨hsorted, suffix_concat h.queue meta_, fun m hm => ?_, fun m hm => ?_, fun m hm => ?_,
      h.final⟩
    · obtain ⟨hready, hmem, hqueue⟩ := h.held m hm
      exact ⟨hready, List.mem_append_left _ hmem, hle m hmem hqueue⟩
    · obtain ⟨hmem, hqueue, hheld⟩ := h.cached m hm
      exact ⟨List.mem_append_left _ hmem, hle m hmem hqueue, hheld⟩
    · obtain ⟨hmem, hqueue, hheld⟩ := h.buffered m hm
      exact ⟨List.mem_append_left _ hmem, hle m hmem hqueue, hheld⟩

/-- Nothing that is polled was stored before `n`. -/
structure Since (time : Meta K V → ℕ) (n : ℕ) (v : View K V) : Prop where
  queue : ∀ m ∈ v.queue, n ≤ time m
  held : ∀ m, v.held = some m → n ≤ time m
  cached : ∀ m, v.cached = some m → n ≤ time m
  buffered : v.cached = none → ∀ m, v.buffered.getLast? = some m → n ≤ time m

variable {n : ℕ}

theorem Since.idle (h : Since time n v) (hu : u) (hidle : Idle u v w) : Since time n w where
  queue m hm := h.queue m (hidle.queue ▸ hm)
  held m hm := h.held m (hidle.held ▸ hm)
  cached m hm := h.cached m (hidle.cached.eq_some hm)
  buffered hnone m hm := h.buffered (hidle.cached.eq_of_unlimited hu ▸ hnone) m
    (getLast?_of_suffix hidle.buffered hm)

theorem Since.change (h : Since time n v) (hu : u) (hchange : Change u v w) : Since time n w := by
  cases hchange with
  | @idle queue _ hqueue hidle =>
    have hdropped : Since time n { v with queue } :=
      ⟨fun m hm => h.queue m (hqueue.subset hm), h.held, h.cached, h.buffered⟩
    exact hdropped.idle hu hidle
  | @consume message queue _ hqueue hready hidle =>
    have hmem : message ∈ v.queue := by simp [hqueue]
    have hconsumed : Since time n ⟨queue, none, v.cached, v.buffered ++ [message]⟩ := by
      refine ⟨fun m hm => h.queue m (by simp [hqueue, hm]), fun m hm => (by cases hm), h.cached,
        fun _ m hm => ?_⟩
      rw [List.getLast?_concat] at hm
      exact Option.some.inj hm ▸ h.queue message hmem
    exact hconsumed.idle hu hidle
  | @sweep message queue _ hqueue hidle =>
    have hle := h.queue message (by simp [hqueue])
    have hswept : Since time n ({ v with queue := [] }.sweep message) := by
      rw [View.sweep]
      split
      · exact ⟨fun m hm => (by cases hm), fun m hm => (by cases hm),
          fun m hm => Option.some.inj hm ▸ hle, fun hnone => (by cases hnone)⟩
      · exact ⟨fun m hm => (by cases hm), fun m hm => Option.some.inj hm ▸ hle, h.cached,
          h.buffered⟩
    exact hswept.idle hu hidle
  | forget hidle =>
    have hforgotten : Since time n ⟨v.queue, none, none, []⟩ :=
      ⟨h.queue, fun m hm => (by cases hm), fun m hm => (by cases hm), fun _ m hm => (by cases hm)⟩
    exact hforgotten.idle hu hidle

/-- **A poll replies with nothing that was stored before.** -/
theorem Since.reply (h : Since time n v) (hu : u) {m : Meta K V}
    (hpolled : Polled u v (.meta_ (some m)) w) : n ≤ time m := by
  cases hpolled with
  | held hheld hidle => exact h.held m hheld
  | final _ hqueue _ _ => exact h.queue m (by simp [hqueue])
  | state _ hqueue _ _ => exact h.queue m (by simp [hqueue])
  | cached _ _ hidle hcached => exact h.cached m (hidle.cached.eq_some hcached)
  | buffered _ _ hidle hnone hlast =>
    exact h.buffered (hidle.cached.eq_of_unlimited hu ▸ hnone) m
      (getLast?_of_suffix hidle.buffered hlast)

/-- What a poll replies with was stored. -/
theorem Ordered.reply_mem (h : Ordered time states v) {m : Meta K V}
    (hpolled : Polled u v (.meta_ (some m)) w) : m ∈ states := by
  cases hpolled with
  | held hheld _ => exact (h.held m hheld).2.1
  | final _ hqueue _ _ => exact h.queue.subset (by simp [hqueue])
  | state _ hqueue _ _ => exact h.queue.subset (by simp [hqueue])
  | cached _ _ hidle hget => exact (h.cached m (hidle.cached.eq_some hget)).1
  | buffered _ _ hidle _ hlast =>
    exact (h.buffered m (hidle.buffered.subset (List.mem_of_getLast? hlast))).1

/-- **What a poll has replied with is since then.** -/
theorem Ordered.since (h : Ordered time states v) (hu : u) {m : Meta K V}
    (hpolled : Polled u v (.meta_ (some m)) w) : Since time (time m) w := by
  have hcached : ∀ {queue : List (Meta K V)} {buffered : List (Meta K V)},
      (∀ q ∈ queue, time m ≤ time q) →
      Idle u ⟨queue, none, some m, buffered⟩ w → Since time (time m) w := by
    intro queue buffered hqueue hidle
    refine Since.idle ⟨hqueue, fun m' hm' => (by cases hm'), fun m' hm' => ?_,
      fun hnone => (by cases hnone)⟩ hu hidle
    exact Option.some.inj hm' ▸ le_rfl
  cases hpolled with
  | held hheld hidle => exact hcached (h.held m hheld).2.2 hidle
  | final _ _ _ hidle => exact hcached (fun q hq => (by cases hq)) hidle
  | state _ _ _ hidle => exact hcached (fun q hq => List.mem_singleton.mp hq ▸ le_rfl) hidle
  | cached hheld hqueue hidle hget =>
    refine ⟨fun q hq => ?_, fun m' hm' => ?_, fun m' hm' => ?_, fun hnone => ?_⟩
    · rw [hidle.queue, hqueue] at hq
      cases hq
    · rw [hidle.held, hheld] at hm'
      cases hm'
    · rw [hget] at hm'
      exact Option.some.inj hm' ▸ le_rfl
    · rw [hget] at hnone
      cases hnone
  | buffered hheld hqueue hidle hnone hlast =>
    refine ⟨fun q hq => ?_, fun m' hm' => ?_, fun m' hm' => ?_, fun _ m' hm' => ?_⟩
    · rw [hidle.queue, hqueue] at hq
      cases hq
    · rw [hidle.held, hheld] at hm'
      cases hm'
    · rw [hnone] at hm'
      cases hm'
    · rw [hlast] at hm'
      exact Option.some.inj hm' ▸ le_rfl

theorem Since.poll (h : Since time n v) (ho : Ordered time states v) (hu : u) {reply : Reply K V}
    (hpolled : Polled u v reply w) : Since time n w := by
  cases reply with
  | backlogLimitExceeded =>
    cases hpolled with
    | exceeded hqueue hidle => exact h.change hu (.idle hqueue hidle)
  | meta_ reply =>
    cases reply with
    | some m =>
      -- what is replied is since `n`, and what is left is since then
      have hle := h.reply hu hpolled
      have hsince := ho.since hu hpolled
      exact ⟨fun q hq => hle.trans (hsince.queue q hq),
        fun m' hm' => hle.trans (hsince.held m' hm'),
        fun m' hm' => hle.trans (hsince.cached m' hm'),
        fun hnone m' hm' => hle.trans (hsince.buffered hnone m' hm')⟩
    | none =>
      cases hpolled with
      | buffered _ _ hidle _ _ => exact h.idle hu hidle

theorem Since.moved (h : Since time n v) (ho : Ordered time states v) (hu : u)
    {metas : List (Meta K V)} (hmoved : Moved u v metas w) (hn : ∀ m ∈ metas, n ≤ time m) :
    Since time n w := by
  cases hmoved with
  | change hchange => exact h.change hu hchange
  | polled hpolled => exact h.poll ho hu hpolled
  | stored meta_ =>
    refine ⟨fun m hm => ?_, h.held, h.cached, h.buffered⟩
    rcases List.mem_append.mp hm with hm | hm
    · exact h.queue m hm
    · exact hn m hm

/-- Nothing is left of a task but its final state. -/
structure Settled (m : Meta K V) (v : View K V) : Prop where
  queue : v.queue = []
  held : v.held = none
  cached : ∀ m', v.cached = some m' → m' = m
  buffered : ∀ m', v.buffered.getLast? = some m' → m' = m

theorem Settled.idle {m : Meta K V} (h : Settled m v) (hidle : Idle u v w) : Settled m w where
  queue := hidle.queue.trans h.queue
  held := hidle.held.trans h.held
  cached m' hm' := h.cached m' (hidle.cached.eq_some hm')
  buffered m' hm' := h.buffered m' (getLast?_of_suffix hidle.buffered hm')

/-- The state that was stored last. -/
theorem eq_of_last {m l : Meta K V} (hsorted : states.Pairwise fun m m' => time m < time m')
    (hm : states.getLast? = some m) (hl : l ∈ states) (hle : time m ≤ time l) : l = m := by
  obtain ⟨before, rfl⟩ := List.getLast?_eq_some_iff.mp hm
  rcases List.mem_append.mp hl with hl | hl
  · have hlt := (List.pairwise_append.mp hsorted).2.2 l hl m (List.mem_singleton_self m)
    exact absurd hle hlt.not_ge
  · exact List.mem_singleton.mp hl

/-- **A poll that replies with the final state that was stored last** leaves nothing else. -/
theorem Ordered.settled (h : Ordered time states v) {m : Meta K V} (hready : m.ready)
    (hlast : states.getLast? = some m) (hpolled : Polled u v (.meta_ (some m)) w) :
    Settled m w := by
  cases hpolled with
  | held hheld _ => exact absurd hready (h.held m hheld).1
  | state _ _ hnot _ => exact absurd hready hnot
  | final _ _ _ hidle =>
    refine Settled.idle ⟨rfl, rfl, fun m' hm' => (Option.some.inj hm').symm, fun m' hm' => ?_⟩ hidle
    rw [List.getLast?_concat] at hm'
    exact (Option.some.inj hm').symm
  | cached hheld hqueue hidle hget =>
    refine ⟨hidle.queue.trans hqueue, hidle.held.trans hheld, fun m' hm' => ?_, fun m' hm' => ?_⟩
    · exact Option.some.inj (hm'.symm.trans hget)
    · have hm'' := getLast?_of_suffix hidle.buffered hm'
      refine eq_of_last h.sorted hlast (h.buffered m' (List.mem_of_getLast? hm'')).1 ?_
      exact h.final m (hidle.cached.eq_some hget) hready m' hm''
  | buffered hheld hqueue hidle hnone hlast' =>
    refine ⟨hidle.queue.trans hqueue, hidle.held.trans hheld, fun m' hm' => ?_, fun m' hm' => ?_⟩
    · rw [hnone] at hm'
      cases hm'
    · exact Option.some.inj (hm'.symm.trans hlast')

/-- **It stays**, as long as no other state is stored. -/
theorem Settled.moved {m : Meta K V} (h : Settled m v) (hmoved : Moved u v [] w) :
    Settled m w := by
  have hdrop : ∀ {queue : List (Meta K V)} {w : View K V}, queue <:+ v.queue →
      Idle u { v with queue } w → Settled m w := by
    intro queue w hqueue hidle
    have hnil : queue = [] := List.suffix_nil.mp (h.queue ▸ hqueue)
    have hdropped : Settled m { v with queue } := ⟨hnil, h.held, h.cached, h.buffered⟩
    exact hdropped.idle hidle
  have hnew : ∀ {queue : List (Meta K V)} {message : Meta K V}, v.queue ≠ queue ++ [message] :=
    fun heq => by simp [h.queue] at heq
  cases hmoved with
  | change hchange =>
    cases hchange with
    | idle hqueue hidle => exact hdrop hqueue hidle
    | consume hqueue _ _ =>
      rw [h.queue] at hqueue
      cases hqueue
    | sweep hqueue _ => exact absurd hqueue hnew
    | forget hidle =>
      have hforgotten : Settled m ⟨v.queue, none, none, []⟩ :=
        ⟨h.queue, rfl, fun m' hm' => (by cases hm'), fun m' hm' => (by cases hm')⟩
      exact hforgotten.idle hidle
  | polled hpolled =>
    cases hpolled with
    | exceeded hqueue hidle => exact hdrop hqueue hidle
    | held hheld _ =>
      rw [h.held] at hheld
      cases hheld
    | final _ hqueue _ _ => exact absurd hqueue hnew
    | state _ hqueue _ _ => exact absurd hqueue hnew
    | cached _ _ hidle _ => exact h.idle hidle
    | buffered _ _ hidle _ _ => exact h.idle hidle

/-- **A poll replies with it**, or it is gone. -/
theorem Settled.reply {m : Meta K V} (h : Settled m v) {reply : Reply K V}
    (hpolled : Polled u v reply w) :
    reply = .backlogLimitExceeded ∨ reply = .meta_ (some m) ∨
      reply = .meta_ none ∧ w.buffered = [] := by
  have hnew : ∀ {queue : List (Meta K V)} {message : Meta K V}, v.queue ≠ queue ++ [message] :=
    fun heq => by simp [h.queue] at heq
  cases hpolled with
  | exceeded _ _ => exact .inl rfl
  | held hheld _ =>
    rw [h.held] at hheld
    cases hheld
  | final _ hqueue _ _ => exact absurd hqueue hnew
  | state _ hqueue _ _ => exact absurd hqueue hnew
  | cached _ _ hidle hget =>
    obtain rfl := h.cached _ (hidle.cached.eq_some hget)
    exact .inr (.inl rfl)
  | @buffered reply _ _ _ hidle _ hlast =>
    cases reply with
    | none => exact .inr (.inr ⟨rfl, List.getLast?_eq_none_iff.mp hlast⟩)
    | some m' =>
      obtain rfl := h.buffered m' (getLast?_of_suffix hidle.buffered hlast)
      exact .inr (.inl rfl)

end Ordered

/-! ## Every run -/

section Run

variable {C K R V B : Type} [DecidableEq K] [DecidableEq R] [DecidableEq B]
  {cache : ResultCache C K (Meta K V)} {id : R → K} {s t : RPCBackend C K R V B}
  {time : Meta K V → ℕ} {k : K}

/-- The states that were stored for a task. -/
def storedBy (k : K) (events : List (Event K R V)) : List (Meta K V) := events.flatMap (stored k)

omit [DecidableEq R] in
theorem storedBy_concat (k : K) (events : List (Event K R V)) (e : Event K R V) :
    storedBy k (events ++ [e]) = storedBy k events ++ stored k e := by
  rw [storedBy, List.flatMap_append, List.flatMap_singleton, ← storedBy]

theorem run_concat {events : List (Event K R V)} {e : Event K R V}
    (h : run cache id s (events ++ [e]) = .ok t) :
    ∃ u, run cache id s events = .ok u ∧ step cache id u e = .ok t := by
  rw [run, List.foldlM_append] at h
  cases hrun : events.foldlM (step cache id) s with
  | error error =>
    rw [hrun] at h
    cases h
  | ok u =>
    rw [hrun] at h
    exact ⟨u, hrun, (bind_pure (step cache id u e)).symm.trans h⟩

/-- What every event preserves holds at the end of a run. -/
theorem run_induction {P : List (Meta K V) → View K V → Prop} (k : K)
    (hstep : ∀ {states metas v w}, P states v → Moved cache.Unlimited v metas w →
      P (states ++ metas) w)
    (states : List (Meta K V)) {events : List (Event K R V)} (hsound : Client.Sound id s.client)
    (hs : P states (view cache s k)) (hrun : run cache id s events = .ok t) :
    Client.Sound id t.client ∧ P (states ++ storedBy k events) (view cache t k) := by
  induction events using List.reverseRecOn generalizing t with
  | nil =>
    obtain rfl := Except.ok.inj hrun
    exact ⟨hsound, by rwa [storedBy, List.flatMap_nil, List.append_nil]⟩
  | append_singleton events e ih =>
    obtain ⟨u, hu, hlast⟩ := run_concat hrun
    obtain ⟨husound, hP⟩ := ih hu
    obtain ⟨t', ht', htsound, hmoved⟩ := exists_step cache husound e
    obtain rfl : t' = t := Except.ok.inj (ht'.symm.trans hlast)
    refine ⟨htsound, ?_⟩
    rw [storedBy_concat, ← List.append_assoc]
    exact hstep hP (hmoved k)

/-- **The states of a task are in order in every run.** -/
theorem ordered_of_run {events : List (Event K R V)}
    (hrun : run cache id (init cache : RPCBackend C K R V B) events = .ok s)
    (hsorted : (storedBy k events).Pairwise fun m m' => time m < time m') :
    Client.Sound id s.client ∧ Ordered time (storedBy k events) (view cache s k) := by
  have hinit : Client.Sound id (init cache : RPCBackend C K R V B).client :=
    Client.sound_init (Nat.succ_pos 8191) (Nat.succ_pos 999)
  have hempty : Ordered time [] (view cache (init cache : RPCBackend C K R V B) k) := by
    refine ⟨.nil, List.suffix_rfl, fun m hm => (by cases hm), fun m hm => ?_,
      fun m hm => (by cases hm), fun m hm => ?_⟩
    all_goals
      have hnone : (view cache (init cache : RPCBackend C K R V B) k).cached = none :=
        cache.find_empty k
      rw [hnone] at hm
      cases hm
  obtain ⟨hsound, hordered⟩ := run_induction
    (P := fun states v => states.Pairwise (fun m m' => time m < time m') → Ordered time states v)
    k (fun hP hmoved hall => (hP (List.pairwise_append.mp hall).1).moved hmoved hall)
    [] hinit (fun _ => hempty) hrun
  exact ⟨hsound, hordered hsorted⟩

/-- A poll after a run is one of those that are described by `Polled`. -/
theorem polled_of_getTaskMeta (h : Client.Sound id s.client) {backlogLimit : ℕ}
    {reply : Reply K V} (hpoll : getTaskMeta cache id s k backlogLimit = .ok (reply, t)) :
    Client.Sound id t.client ∧
      Polled cache.Unlimited (view cache s k) reply (view cache t k) := by
  obtain ⟨reply', t', heq, hsound, hpolled, -⟩ := exists_getTaskMeta cache h k backlogLimit
  obtain ⟨rfl, rfl⟩ := Prod.mk.inj (Except.ok.inj (heq.symm.trans hpoll))
  exact ⟨hsound, hpolled⟩

/-- **Polls do not go back**: if the cache keeps all that is put into it, a poll replies with no
state that was stored before one that an earlier poll replied with, whatever is stored, polled,
awaited, consumed, forgotten and evicted before and in between. -/
theorem poll_monotone (hunlimited : cache.Unlimited) (id : R → K) (time : Meta K V → ℕ)
    (events events' : List (Event K R V)) (backlogLimit backlogLimit' : ℕ)
    {s s' t t' : RPCBackend C K R V B} {m m' : Meta K V}
    (hsorted : (storedBy k (events ++ events')).Pairwise fun m m' => time m < time m')
    (hrun : run cache id (init cache) events = .ok s)
    (hpoll : getTaskMeta cache id s k backlogLimit = .ok (.meta_ (some m), t))
    (hrun' : run cache id t events' = .ok s')
    (hpoll' : getTaskMeta cache id s' k backlogLimit' = .ok (.meta_ (some m'), t')) :
    time m ≤ time m' := by
  have hall : (storedBy k events ++ storedBy k events').Pairwise fun m m' => time m < time m' := by
    rwa [storedBy, List.flatMap_append] at hsorted
  obtain ⟨hsound, hordered⟩ := ordered_of_run hrun (List.pairwise_append.mp hall).1
  obtain ⟨htsound, hpolled⟩ := polled_of_getTaskMeta hsound hpoll
  obtain ⟨hsound', hrest⟩ := run_induction
    (P := fun states v => states.Pairwise (fun m m' => time m < time m') →
      Ordered time states v ∧ m ∈ states ∧ Since time (time m) v) k
    (fun {states metas v w} hP hmoved hall => by
      obtain ⟨hordered, hmem, hsince⟩ := hP (List.pairwise_append.mp hall).1
      refine ⟨hordered.moved hmoved hall, List.mem_append_left _ hmem,
        hsince.moved hordered hunlimited hmoved fun m' hm' => ?_⟩
      exact ((List.pairwise_append.mp hall).2.2 m hmem m' hm').le)
    _ htsound
    (fun _ => ⟨hordered.poll hpolled, hordered.reply_mem hpolled,
      hordered.since hunlimited hpolled⟩) hrun'
  exact (hrest hall).2.2.reply hunlimited (polled_of_getTaskMeta hsound' hpoll').2

/-- A task is polled, another one is, which keeps its final state, and it is polled again. -/
theorem poll_monotone_kept :
    (⟨.started, 0, 1⟩ : Meta ℕ ℕ).result ≤ (⟨.success, 0, 2⟩ : Meta ℕ ℕ).result :=
  poll_monotone (B := Unit) (k := 0) ResultCache.unlimited_unlimited (fun r : ℕ => r) Meta.result
    [.storeResult ⟨.started, 0, 1⟩] [.storeResult ⟨.success, 0, 2⟩, .getTaskMeta 1 1000] 1000 1000
    (by decide) rfl rfl rfl rfl

variable (cache) in
/-- **A final state stays**: whatever the cache keeps, once a poll has replied with a final state
that is the last one that was stored, later polls reply with it, unless it is gone from the buffer
too, and until another state is stored. -/
theorem poll_final (id : R → K) (time : Meta K V → ℕ)
    (events events' : List (Event K R V)) (backlogLimit backlogLimit' : ℕ)
    {s s' t t' : RPCBackend C K R V B} {m : Meta K V} {reply : Reply K V}
    (hsorted : (storedBy k events).Pairwise fun m m' => time m < time m')
    (hready : m.ready) (hlast : (storedBy k events).getLast? = some m)
    (hrun : run cache id (init cache) events = .ok s)
    (hpoll : getTaskMeta cache id s k backlogLimit = .ok (.meta_ (some m), t))
    (hnone : storedBy k events' = []) (hrun' : run cache id t events' = .ok s')
    (hpoll' : getTaskMeta cache id s' k backlogLimit' = .ok (reply, t')) :
    reply = .backlogLimitExceeded ∨ reply = .meta_ (some m) ∨
      reply = .meta_ none ∧ t'.client.pendingMessages.messages k = [] := by
  obtain ⟨hsound, hordered⟩ := ordered_of_run hrun hsorted
  obtain ⟨htsound, hpolled⟩ := polled_of_getTaskMeta hsound hpoll
  obtain ⟨hsound', hrest⟩ := run_induction
    (P := fun states v => states = [] → Settled m v) k
    (fun {states metas v w} hP hmoved hnil => by
      obtain ⟨rfl, rfl⟩ := List.append_eq_nil_iff.mp hnil
      exact (hP rfl).moved hmoved)
    [] htsound (fun _ => hordered.settled hready hlast hpolled) hrun'
  exact (hrest hnone).reply (polled_of_getTaskMeta hsound' hpoll').2

/-- It is kept in the buffer, where there is no cache. -/
theorem poll_final_buffered : Reply.meta_ (some (⟨.success, 0, 2⟩ : Meta ℕ ℕ)) =
      .backlogLimitExceeded ∨
    Reply.meta_ (some (⟨.success, 0, 2⟩ : Meta ℕ ℕ)) = .meta_ (some ⟨.success, 0, 2⟩) ∨
    Reply.meta_ (some (⟨.success, 0, 2⟩ : Meta ℕ ℕ)) = .meta_ none ∧
      [(⟨.success, 0, 2⟩ : Meta ℕ ℕ)] = [] :=
  poll_final (B := Unit) (k := 0) ResultCache.nulldict (fun r : ℕ => r) Meta.result
    [.storeResult ⟨.success, 0, 2⟩] [.getTaskMeta 1 1000] 1000 1000 (by decide) rfl rfl rfl rfl rfl
    rfl rfl

end Run

end Rpc
end Celery
