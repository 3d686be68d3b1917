/-
# `celery/backends/asynchronous.py`: each task on its own

For a task there is a slot: an object waits for a meta in it, or metas for an object.  As long as
nothing is evicted, the slots are what `_pending_results`, `_pending_messages` (lines 262-292,
418-451) and the caches of the result objects come to, and what is called for other tasks makes no
difference to a slot (`slot_of_run`).  So a result that is added once gets the first final meta of
its task, which may arrive before or after (`first_of_run`).

An object that is added while another one waits for the same task is not registered, and gets
nothing when the meta arrives.
-/

import Celery.Backends.Pending

namespace Celery
namespace AsyncBackend

variable {K R V B : Type} [DecidableEq K]

/-! ## A task on its own -/

/-- What there is for a task: an object that waits for a meta, or metas that wait for an
object. -/
inductive Slot (R M : Type) where
  | waiting (result : R)
  | holding (metas : List M)

/-- The object does not wait any more. -/
def Slot.free {R M : Type} : Slot R M → Slot R M
  | .waiting _ => .holding []
  | .holding metas => .holding metas

/-- A task: its slot, and what its result objects have cached. -/
structure Box (K R V : Type) where
  slot : Slot R (Meta K V)
  cache : R → Option (Meta K V)

namespace Box

variable [DecidableEq R]

/-- Nothing is there. -/
def empty : Box K R V := ⟨.holding [], fun _ => none⟩

/-- An object gets a meta. -/
def resolve (b : Box K R V) (result : R) (meta_ : Meta K V) : Box K R V :=
  if meta_.ready then ⟨b.slot.free, Function.update b.cache result (some meta_)⟩ else b

/-- What a call for this task does to it. -/
def step (b : Box K R V) : Event K R V B → Box K R V
  | .addPendingResult result _ =>
    match b.slot with
    | .waiting _ => b
    | .holding [] => { b with slot := .waiting result }
    | .holding (meta_ :: metas) => resolve { b with slot := .holding metas } result meta_
  | .onStateChange meta_ =>
    match b.slot with
    | .waiting result => b.resolve result meta_
    | .holding metas =>
      if meta_.ready then { b with slot := .holding (metas ++ [meta_]) } else b
  | .getTaskMeta result meta_ =>
    match b.cache result with
    | none => b.resolve result meta_
    | some _ => b
  | .removePendingResult _ => { b with slot := b.slot.free }
  | .forget _ =>
    match b.slot with
    | .waiting _ => b
    | .holding _ => { b with slot := .holding [] }
  | .iterNative _ _ => b

omit [DecidableEq K] in
theorem step_onStateChange_of_waiting {b : Box K R V} {result : R} (h : b.slot = .waiting result)
    (meta_ : Meta K V) :
    b.step (.onStateChange (B := B) meta_) = b.resolve result meta_ := by
  rw [step, h]

omit [DecidableEq K] in
theorem step_onStateChange_of_holding {b : Box K R V} {metas : List (Meta K V)}
    (h : b.slot = .holding metas) (meta_ : Meta K V) :
    b.step (.onStateChange (B := B) meta_) =
      if meta_.ready then { b with slot := .holding (metas ++ [meta_]) } else b := by
  rw [step, h]

end Box

/-- The task that a call is for. -/
def Event.taskId (id : R → K) : Event K R V B → Option K
  | .addPendingResult result _ => some (id result)
  | .onStateChange meta_ => some meta_.taskId
  | .getTaskMeta result _ => some (id result)
  | .removePendingResult result => some (id result)
  | .forget taskId => some taskId
  | .iterNative _ _ => none

namespace Client

variable {id : R → K} {s t : Client K R V B}

/-- What the client holds for a task. -/
def slot (s : Client K R V B) (k : K) : Slot R (Meta K V) :=
  match s.getPendingResult k with
  | some result => .waiting result
  | none => .holding (s.pendingMessages.messages k)

/-- What the client and the result objects hold for a task. -/
def box (id : R → K) (s : Client K R V B) (k : K) : Box K R V :=
  ⟨s.slot k, fun r => if id r = k then s.cache r else none⟩

/-- Nothing is evicted by the call. -/
def Fits (s : Client K R V B) : Event K R V B → Prop
  | .onStateChange meta_ => s.getPendingResult meta_.taskId = none → meta_.ready →
      s.pendingMessages.HasRoom meta_.taskId
  | _ => True

theorem slot_of_pending {k : K} {result : R} (h : s.getPendingResult k = some result) :
    s.slot k = .waiting result := by
  rw [slot, h]

theorem slot_of_free {k : K} (h : s.getPendingResult k = none) :
    s.slot k = .holding (s.pendingMessages.messages k) := by
  rw [slot, h]

theorem messages_of_holding {k : K} {metas : List (Meta K V)} (h : s.slot k = .holding metas) :
    s.pendingMessages.messages k = metas := by
  cases hpending : s.getPendingResult k with
  | some r =>
    rw [slot_of_pending hpending] at h
    cases h
  | none =>
    rw [slot_of_free hpending] at h
    exact Slot.holding.inj h

theorem Sound.messages_of_waiting (hs : Sound id s) {k : K} {result : R}
    (h : s.slot k = .waiting result) : s.pendingMessages.messages k = [] := by
  cases hpending : s.getPendingResult k with
  | some r => exact hs.exclusive k r hpending
  | none =>
    rw [slot_of_free hpending] at h
    cases h

/-- The box of a task depends on what the client holds for it. -/
theorem box_congr {k : K} (hpending : t.getPendingResult k = s.getPendingResult k)
    (hmessages : t.pendingMessages.messages k = s.pendingMessages.messages k)
    (hcache : ∀ r, id r = k → t.cache r = s.cache r) : t.box id k = s.box id k := by
  rw [box, box, slot, slot, hpending, hmessages]
  refine congrArg _ (funext fun r => ?_)
  split
  next hr => exact hcache r hr
  · rfl

theorem Sound.slot_removePendingResult (h : Sound id s) (result : R) :
    (Client.removePendingResult id s result).slot (id result) = (s.slot (id result)).free := by
  have hget : (Client.removePendingResult id s result).getPendingResult (id result) = none := by
    rw [getPendingResult_removePendingResult, if_pos rfl]
  rw [slot_of_free hget]
  cases hpending : s.getPendingResult (id result) with
  | none => rw [slot_of_free hpending]; rfl
  | some r =>
    rw [slot_of_pending hpending]
    exact congrArg Slot.holding (h.exclusive _ r hpending)

/-- **An object that goes away** frees the slot of its task. -/
theorem Sound.box_removePendingResult (h : Sound id s) (result : R) (k : K) :
    (Client.removePendingResult id s result).box id k =
      if id result = k then { s.box id k with slot := (s.slot k).free } else s.box id k := by
  split
  next hk =>
    subst hk
    rw [box, h.slot_removePendingResult]
    rfl
  next hk =>
    refine box_congr ?_ rfl fun _ _ => rfl
    rw [getPendingResult_removePendingResult, if_neg (Ne.symm hk)]

theorem box_buckets (s : Client K R V B) (buckets : OrderedDict K B) (contents : B → List R)
    (k : K) : box id { s with buckets, contents } k = s.box id k := rfl

variable [DecidableEq R]

/-- **An object that gets a final meta** frees the slot of its task. -/
theorem Sound.box_maybeSetCache (h : Sound id s) (result : R) (meta_ : Meta K V) (k : K) :
    (Client.maybeSetCache id s result meta_).box id k =
      if id result = k then (s.box id k).resolve result meta_ else s.box id k := by
  rw [Client.maybeSetCache, Box.resolve]
  by_cases hready : meta_.ready = true
  · rw [if_pos hready, if_pos hready]
    have hsound : Sound id { s with cache := Function.update s.cache result (some meta_) } :=
      ⟨h.accounted, h.keyed, h.exclusive, h.subscribed, h.single⟩
    rw [hsound.box_removePendingResult]
    split
    next hk =>
      refine congrArg (Box.mk _) (funext fun r => ?_)
      show (if id r = k then Function.update s.cache result (some meta_) r else none) = _
      by_cases hr : r = result
      · rw [hr, if_pos hk, Function.update_self, Function.update_self]
      · rw [Function.update_of_ne hr, Function.update_of_ne hr]
        rfl
    next hk =>
      refine box_congr rfl rfl fun r hr => Function.update_of_ne (fun heq => hk ?_) _ _
      rw [← hr, heq]
  · rw [if_neg hready, if_neg hready, ite_self]

/-- **A result that is added** registers, unless one is registered, or takes the oldest meta. -/
theorem Sound.box_addPendingResult (h : Sound id s) (result : R) (weak : Bool) (k : K) :
    (Client.addPendingResult id s result weak).box id k =
      if id result = k then (s.box id k).step (.addPendingResult (B := B) result weak)
      else s.box id k := by
  obtain ⟨htake, hrest⟩ := s.pendingMessages.take_eq (id result)
  rw [Client.addPendingResult, htake]
  cases hpending : s.getPendingResult (id result) with
  | some r =>
    rw [h.exclusive _ r hpending]
    show (Client.register id s result weak).box id k = _
    rw [register_of_pending weak hpending]
    split
    next hk =>
      have hslot : (s.box id k).slot = .waiting r := hk ▸ slot_of_pending hpending
      rw [Box.step, hslot]
    · rfl
  | none =>
    have hslot : id result = k →
        (s.box id k).slot = .holding (s.pendingMessages.messages (id result)) :=
      fun hk => hk ▸ slot_of_free hpending
    cases hmessages : s.pendingMessages.messages (id result) with
    | nil =>
      show (Client.register id s result weak).box id k = _
      obtain ⟨hsame, hcache, -⟩ := register_frame id s result weak
      have hget := getPendingResult_register s result weak hpending k
      split
      next hk =>
        rw [if_pos hk.symm] at hget
        rw [Box.step, hslot hk, hmessages, box, slot_of_pending hget, hcache]
        rfl
      next hk =>
        rw [if_neg (Ne.symm hk)] at hget
        exact box_congr hget (hsame ▸ rfl) fun r _ => by rw [hcache]
    | cons meta_ metas =>
      rw [hmessages] at hrest
      set taken : Client K R V B :=
        { s with pendingMessages := (s.pendingMessages.take (id result)).2 } with htaken
      have hsound : Sound id taken := by
        refine h.of_messages (h.accounted.of_shrinks (BufferMap.take_shrinks _ _).1)
          fun l r hl hnil => ?_
        rw [hrest, if_neg (fun heq => ?_)]
        · exact hnil
        · rw [heq, hpending] at hl
          cases hl
      show (Client.maybeSetCache id taken result meta_).box id k = _
      rw [hsound.box_maybeSetCache]
      split
      next hk =>
        have hleft : taken.slot k = .holding metas := by
          subst hk
          rw [slot_of_free (by exact hpending), htaken, hrest, if_pos rfl]
          rfl
        rw [Box.step, hslot hk, hmessages, box, hleft]
        rfl
      next hk =>
        refine box_congr rfl ?_ fun _ _ => rfl
        rw [htaken, hrest, if_neg (Ne.symm hk)]

variable [DecidableEq B]

/-- **A message** is for the object that waits, or is held at the end. -/
theorem Sound.box_onStateChange (h : Sound id s) (meta_ : Meta K V)
    (hfits : s.Fits (.onStateChange meta_)) (ht : Client.onStateChange id s meta_ = .ok t) (k : K) :
    t.box id k =
      if meta_.taskId = k then (s.box id k).step (.onStateChange (B := B) meta_)
      else s.box id k := by
  rw [Client.onStateChange] at ht
  by_cases hready : meta_.ready = true
  · rw [if_pos hready] at ht
    cases hpending : s.getPendingResult meta_.taskId with
    | some r =>
      have hid := h.keyed _ _ hpending
      rw [hpending] at ht
      obtain ⟨buckets, contents, heq⟩ := sendToBucket_eq id (Client.maybeSetCache id s r meta_) r
      obtain rfl := Except.ok.inj ht
      rw [heq, box_buckets, h.box_maybeSetCache, hid]
      split
      next hk =>
        exact (Box.step_onStateChange_of_waiting (hk ▸ slot_of_pending hpending) meta_).symm
      · rfl
    | none =>
      obtain ⟨m, hput, hmessages⟩ := h.accounted.put_of_hasRoom (hfits hpending hready) meta_
      rw [hpending] at ht
      simp only [hput] at ht
      obtain rfl := Except.ok.inj ht
      split
      next hk =>
        have hslot : (s.box id k).slot = .holding (s.pendingMessages.messages k) :=
          slot_of_free (hk ▸ hpending)
        rw [Box.step_onStateChange_of_holding hslot, if_pos hready]
        show Box.mk (slot _ k) _ = _
        rw [slot_of_free (by exact hk ▸ hpending), hmessages, if_pos hk.symm, hk]
        rfl
      next hk => exact box_congr rfl (by rw [hmessages, if_neg (Ne.symm hk)]) fun _ _ => rfl
  · rw [if_neg hready] at ht
    obtain rfl := Except.ok.inj ht
    split
    next hk =>
      cases hslot : (s.box id k).slot with
      | waiting r =>
        rw [Box.step_onStateChange_of_waiting hslot, Box.resolve, if_neg hready]
      | holding metas => rw [Box.step_onStateChange_of_holding hslot, if_neg hready]
    · rfl

/-- **What a call does to a task** is what it does to the box, if the call is for this task,
and nothing otherwise. -/
theorem Sound.box_step (h : Sound id s) {e : Event K R V B} (hfits : s.Fits e)
    (ht : Client.step id s e = .ok t) (k : K) :
    t.box id k = if e.taskId id = some k then (s.box id k).step e else s.box id k := by
  cases e with
  | addPendingResult result weak =>
    obtain rfl := Except.ok.inj ht
    rw [h.box_addPendingResult, Event.taskId]
    simp only [Option.some.injEq]
  | onStateChange meta_ =>
    rw [h.box_onStateChange meta_ hfits ht, Event.taskId]
    simp only [Option.some.injEq]
  | getTaskMeta result meta_ =>
    obtain rfl := Except.ok.inj ht
    rw [Event.taskId]
    simp only [Option.some.injEq]
    have hcache : id result = k → (s.box id k).cache result = s.cache result :=
      fun hk => if_pos hk
    cases hget : s.cache result with
    | none =>
      have hmiss : Client.getTaskMeta id s result meta_ =
          Client.maybeSetCache id s result meta_ := by
        rw [Client.getTaskMeta, hget]
      rw [hmiss, h.box_maybeSetCache]
      split
      next hk => rw [Box.step, hcache hk, hget]
      · rfl
    | some cached =>
      have hhit : Client.getTaskMeta id s result meta_ = s := by rw [Client.getTaskMeta, hget]
      rw [hhit]
      split
      next hk => rw [Box.step, hcache hk, hget]
      · rfl
  | removePendingResult result =>
    obtain rfl := Except.ok.inj ht
    rw [h.box_removePendingResult, Event.taskId]
    simp only [Option.some.injEq]
    rfl
  | forget taskId =>
    obtain rfl := Except.ok.inj ht
    rw [Event.taskId]
    simp only [Option.some.injEq]
    have hmessages := s.pendingMessages.messages_popPending taskId k
    split
    next hk =>
      subst hk
      rw [if_pos rfl] at hmessages
      cases hpending : s.getPendingResult taskId with
      | some r =>
        have hslot : (s.box id taskId).slot = .waiting r := slot_of_pending hpending
        rw [Box.step, hslot]
        exact box_congr rfl (hmessages.trans (h.exclusive _ r hpending).symm) fun _ _ => rfl
      | none =>
        have hslot : (s.box id taskId).slot = .holding _ := slot_of_free hpending
        rw [Box.step, hslot]
        show Box.mk (slot _ taskId) _ = _
        rw [slot_of_free (by exact hpending), Client.forget, hmessages]
        rfl
    next hk =>
      rw [if_neg (Ne.symm hk)] at hmessages
      exact box_congr rfl hmessages fun _ _ => rfl
  | iterNative results bucket =>
    obtain rfl := Except.ok.inj ht
    obtain ⟨buckets, contents, heq, -⟩ := iterNative_spec id s results bucket
    rw [heq, box_buckets, Event.taskId, if_neg (by simp)]

/-- The calls for a task. -/
def callsFor (id : R → K) (k : K) (events : List (Event K R V B)) : List (Event K R V B) :=
  events.filter fun e => e.taskId id = some k

/-- From a sound client, a run in which nothing is evicted ends in a sound client, with what the
calls for each task make of its slot. -/
theorem Sound.box_run {s : Client K R V B} (h : Sound id s) (events : List (Event K R V B))
    (hfits : ∀ as e bs t, events = as ++ e :: bs → run id s as = .ok t → t.Fits e) :
    ∃ t, run id s events = .ok t ∧ Sound id t ∧
      ∀ k, t.box id k = (callsFor id k events).foldl Box.step (s.box id k) := by
  induction events using List.reverseRecOn with
  | nil => exact ⟨s, rfl, h, fun _ => rfl⟩
  | append_singleton events e ih =>
    obtain ⟨t, ht, hsound, hbox⟩ :=
      ih fun as e' bs t heq => hfits as e' (bs ++ [e]) t (by simp [heq])
    obtain ⟨u, hu, husound⟩ := hsound.step e
    refine ⟨u, (run_concat _ ht e).trans hu, husound, fun k => ?_⟩
    rw [hsound.box_step (hfits events e [] _ rfl ht) hu, callsFor, List.filter_append,
      List.foldl_append, ← callsFor, ← hbox]
    split
    next hk => rw [List.filter_cons_of_pos (by simpa using hk)]; rfl
    next hk => rw [List.filter_cons_of_neg (by simpa using hk)]; rfl

variable {maxsize bufmaxsize : ℕ} (hmaxsize : 0 < maxsize) (hbufmaxsize : 0 < bufmaxsize)

omit [DecidableEq R] [DecidableEq B] in
theorem box_init (k : K) : (init maxsize bufmaxsize : Client K R V B).box id k = .empty :=
  congrArg (Box.mk (.holding [])) (funext fun _ => ite_self none)

include hmaxsize hbufmaxsize in
/-- **Each task on its own**: as long as nothing is evicted, what there is for a task after a run
is what the calls for this task alone make of its slot, whatever was called for others. -/
theorem slot_of_run (id : R → K) (events : List (Event K R V B))
    (hfits : ∀ as e bs s, events = as ++ e :: bs →
      run id (init maxsize bufmaxsize) as = .ok s → s.Fits e) :
    ∃ s, run id (init maxsize bufmaxsize) events = .ok s ∧
      ∀ k, s.box id k = (callsFor id k events).foldl Box.step .empty := by
  obtain ⟨s, hs, -, hbox⟩ := (sound_init hmaxsize hbufmaxsize).box_run events hfits
  refine ⟨s, hs, fun k => ?_⟩
  rw [hbox, box_init]

end Client

/-! ## One object -/

namespace Box

variable [DecidableEq R]

/-- One object, which got the first of all metas, or waits for it. -/
def got (result : R) : List (Meta K V) → Box K R V
  | [] => ⟨.waiting result, fun _ => none⟩
  | first :: rest => ⟨.holding rest, Function.update (fun _ => none) result (some first)⟩

omit [DecidableEq K] in
/-- Metas that nobody waits for are held in the order of their arrival. -/
theorem foldl_onStateChange_of_holding (metas held : List (Meta K V))
    (cache : R → Option (Meta K V)) :
    (metas.map (Event.onStateChange (R := R) (B := B))).foldl step ⟨.holding held, cache⟩ =
      ⟨.holding (held ++ metas.filter Meta.ready), cache⟩ := by
  induction metas generalizing held with
  | nil => rw [List.filter_nil, List.append_nil]; rfl
  | cons meta_ metas ih =>
    rw [List.map_cons, List.foldl_cons, step_onStateChange_of_holding rfl]
    split
    next hready =>
      rw [ih, List.filter_cons_of_pos hready, List.append_assoc, List.singleton_append]
    next hready => rw [ih, List.filter_cons_of_neg hready]

omit [DecidableEq K] in
/-- Of the metas that arrive while an object waits, it gets the first. -/
theorem foldl_onStateChange_of_waiting (metas : List (Meta K V)) (result : R) :
    (metas.map (Event.onStateChange (R := R) (B := B))).foldl step
        ⟨.waiting result, fun _ => none⟩ = got result (metas.filter Meta.ready) := by
  induction metas with
  | nil => rfl
  | cons meta_ metas ih =>
    rw [List.map_cons, List.foldl_cons, step_onStateChange_of_waiting rfl, resolve]
    split
    next hready =>
      rw [Slot.free, foldl_onStateChange_of_holding, List.filter_cons_of_pos hready]
      rfl
    next hready => rw [ih, List.filter_cons_of_neg hready]

omit [DecidableEq K] in
/-- **An object that is added once** gets the first of all metas. -/
theorem foldl_addPendingResult (before after : List (Meta K V)) (result : R) (weak : Bool) :
    (before.map (Event.onStateChange (R := R) (B := B)) ++
        Event.addPendingResult result weak :: after.map Event.onStateChange).foldl step empty =
      got result ((before ++ after).filter Meta.ready) := by
  rw [List.foldl_append, List.foldl_cons, empty, foldl_onStateChange_of_holding, List.nil_append,
    List.filter_append]
  cases hheld : before.filter Meta.ready with
  | nil => exact foldl_onStateChange_of_waiting after result
  | cons first held =>
    have hready : first.ready = true :=
      (List.mem_filter.mp (hheld ▸ List.mem_cons_self)).2
    have hadd : step (B := B) ⟨.holding (first :: held), fun _ => none⟩
        (.addPendingResult result weak) =
          ⟨.holding held, Function.update (fun _ => none) result (some first)⟩ := if_pos hready
    rw [hadd, foldl_onStateChange_of_holding]
    rfl

end Box

namespace Client

variable [DecidableEq R] [DecidableEq B] {maxsize bufmaxsize : ℕ} (hmaxsize : 0 < maxsize)
  (hbufmaxsize : 0 < bufmaxsize)

include hmaxsize hbufmaxsize in
/-- **A result that is added once gets the first final meta of its task**, whether it arrives
before or after, and whatever happens to other tasks.  The others are held. -/
theorem first_of_run (id : R → K) {events : List (Event K R V B)}
    (hfits : ∀ as e bs s, events = as ++ e :: bs →
      run id (init maxsize bufmaxsize) as = .ok s → s.Fits e)
    {k : K} {result : R} {weak : Bool} (before after : List (Meta K V))
    (hcalls : callsFor id k events = before.map .onStateChange ++
      .addPendingResult result weak :: after.map .onStateChange) :
    ∃ s, run id (init maxsize bufmaxsize) events = .ok s ∧
      s.cache result = ((before ++ after).filter Meta.ready).head? ∧
      s.pendingMessages.messages k = ((before ++ after).filter Meta.ready).tail := by
  obtain ⟨t, ht, hsound, hbox⟩ := (sound_init hmaxsize hbufmaxsize).box_run events hfits
  refine ⟨t, ht, ?_⟩
  -- the call is for `k`
  have hk : id result = k := by
    have hmem : Event.addPendingResult result weak ∈ callsFor id k events := by
      rw [hcalls]
      exact List.mem_append_right _ List.mem_cons_self
    have hfor := (List.mem_filter.mp hmem).2
    simpa [Event.taskId] using hfor
  have hfold := hbox k
  have hcache : (t.box id k).cache result = t.cache result := if_pos hk
  rw [box_init, hcalls, Box.foldl_addPendingResult] at hfold
  rw [← hcache]
  cases hmetas : (before ++ after).filter Meta.ready with
  | nil =>
    rw [hmetas] at hfold
    rw [hfold]
    refine ⟨rfl, ?_⟩
    have hslot : t.slot k = .waiting result := congrArg Box.slot hfold
    exact hsound.messages_of_waiting hslot
  | cons first rest =>
    rw [hmetas] at hfold
    rw [hfold]
    have hgot : (Box.got result (first :: rest)).cache result = some first := by
      simp [Box.got]
    refine ⟨hgot, ?_⟩
    have hslot : t.slot k = .holding rest := congrArg Box.slot hfold
    exact messages_of_holding hslot

/-- Two tasks: of one a final meta comes before its result is added, and another one after; the
other one comes in between, with its result first. -/
def twice : List (Event ℕ ℕ Bool Unit) :=
  [.onStateChange ⟨.success, 0, true⟩, .addPendingResult 1 false, .addPendingResult 0 false,
    .onStateChange ⟨.failure, 1, true⟩, .onStateChange ⟨.success, 0, false⟩]

theorem fits_twice (as : List (Event ℕ ℕ Bool Unit)) (e : Event ℕ ℕ Bool Unit)
    (bs : List (Event ℕ ℕ Bool Unit)) (s : Client ℕ ℕ Bool Unit) (heq : twice = as ++ e :: bs)
    (hrun : run (fun r : ℕ => r) (init 8192 1000) as = .ok s) : s.Fits e := by
  simp only [twice] at heq
  match as with
  | [] =>
    obtain ⟨rfl, -⟩ := List.cons.inj heq
    obtain rfl := Except.ok.inj hrun
    exact fun _ _ => ⟨by decide, by decide⟩
  | [a] =>
    simp only [List.cons_append, List.nil_append, List.cons.injEq] at heq
    obtain ⟨rfl, rfl, -⟩ := heq
    exact trivial
  | [a, b] =>
    simp only [List.cons_append, List.nil_append, List.cons.injEq] at heq
    obtain ⟨rfl, rfl, rfl, -⟩ := heq
    exact trivial
  | [a, b, c] =>
    simp only [List.cons_append, List.nil_append, List.cons.injEq] at heq
    obtain ⟨rfl, rfl, rfl, rfl, -⟩ := heq
    obtain rfl := Except.ok.inj hrun
    exact fun _ _ => ⟨by decide, by decide⟩
  | [a, b, c, d] =>
    simp only [List.cons_append, List.nil_append, List.cons.injEq] at heq
    obtain ⟨rfl, rfl, rfl, rfl, rfl, -⟩ := heq
    obtain rfl := Except.ok.inj hrun
    exact fun _ _ => ⟨by decide, by decide⟩
  | _ :: _ :: _ :: _ :: _ :: as =>
    have hlength := congrArg List.length heq
    simp only [List.length_cons, List.length_nil, List.length_append] at hlength
    omega

theorem slot_of_twice : ∃ s, run (fun r : ℕ => r) (init 8192 1000) twice = .ok s ∧
    (∀ k, s.box (fun r => r) k = (callsFor (fun r => r) k twice).foldl Box.step .empty) ∧
      s.cache 1 = some ⟨.failure, 1, true⟩ := by
  obtain ⟨s, hrun, hbox⟩ :=
    slot_of_run (Nat.succ_pos 8191) (Nat.succ_pos 999) (fun r : ℕ => r) twice fits_twice
  exact ⟨s, hrun, hbox, congrFun (congrArg Box.cache (hbox 1)) 1⟩

theorem first_of_twice : ∃ s, run (fun r : ℕ => r) (init 8192 1000) twice = .ok s ∧
    s.cache 0 = some ⟨.success, 0, true⟩ ∧
    s.pendingMessages.messages 0 = [⟨.success, 0, false⟩] :=
  first_of_run (Nat.succ_pos 8191) (Nat.succ_pos 999) (fun r => r) fits_twice
    [⟨.success, 0, true⟩] [⟨.success, 0, false⟩] rfl

end Client

end AsyncBackend
end Celery
