/-
# `celery/backends/base.py`: `get_many` polls a store

`BaseKeyValueStoreBackend.get_key_for_task`, `_strip_prefix`, `_filter_ready`,
`_mget_to_results` and `get_many` (lines 1152-1256), without a timeout, a limit of iterations
and the callbacks.

One poll hands back the ids that are ready, whatever the kind of the reply is
(`mem_mgetToResults_iff`): a key is stripped to the id that it was made from, and an index of a
list is one of the keys.  So every id comes once, from the cache or from the first poll at which
it is ready, and the loop ends with the poll at which the last one is (`getMany_exactlyOnce`).
A task that is ready need not stay ready for that.  An empty id has no key: `get_key_for_task`
refuses it, unless the cache has it.
-/

import Celery.Library.OrderedDict
import Mathlib.Data.List.Perm.Basic

namespace Celery
namespace GetMany

variable {α R β M : Type}

/-- The type of the keys, strings or bytes, that `key_t` converts to, as sequences of `α`; a
client returns them as `R`. -/
structure KeyType (α R : Type) where
  /-- `key_t` of a string. -/
  ofStr : String → List α
  /-- `key_t` of a key in a reply. -/
  ofReply : R → List α
  /-- `bytes_to_str`. -/
  toStr : List α → String
  ofStr_empty : ofStr "" = []
  toStr_ofStr : ∀ s, toStr (ofStr s) = s

/-- `key_t = str` or `bytes_to_str`. -/
def strKeys : KeyType Char String where
  ofStr := String.toList
  ofReply := String.toList
  toStr := String.ofList
  ofStr_empty := rfl
  toStr_ofStr _ := String.ofList_toList

/-- The bytes of a string. -/
def strToBytes (s : String) : List UInt8 := s.toUTF8.data.toList

/-- The string of some bytes, with `replaced` for what is no UTF-8. -/
def bytesToStr (replaced : List UInt8 → String) (b : List UInt8) : String :=
  (String.fromUTF8? ⟨b.toArray⟩).getD (replaced b)

theorem bytesToStr_strToBytes (replaced : List UInt8 → String) (s : String) :
    bytesToStr replaced (strToBytes s) = s := by
  rw [bytesToStr, strToBytes, Array.toArray_toList, String.fromUTF8?]
  exact congrArg (fun o => Option.getD o _) (dif_pos s.isValidUTF8)

/-- `key_t = ensure_bytes`, with a client that returns bytes or strings. -/
def bytesKeys (replaced : List UInt8 → String) : KeyType UInt8 (List UInt8 ⊕ String) where
  ofStr := strToBytes
  ofReply := Sum.elim (fun b => b) strToBytes
  toStr := bytesToStr replaced
  ofStr_empty := rfl
  toStr_ofStr := bytesToStr_strToBytes replaced

/-- What `mget` returns. -/
inductive Reply (R β : Type) where
  | list (values : List (Option β))
  | dict (items : List (R × Option β))

/-- A backend: stored payloads `β`, and metas `M`, of which some have a status in
`READY_STATES`. -/
structure Backend (α R β M : Type) where
  keyType : KeyType α R
  taskKeyPrefix : String
  groupKeyPrefix : String
  decodeResult : β → M
  ready : M → Bool

namespace Backend

variable (b : Backend α R β M)

/-- `_get_key_for`. -/
def getKeyFor (start id key : String) : List α :=
  List.intercalate (b.keyType.ofStr "")
    [b.keyType.ofStr start, b.keyType.ofStr id, b.keyType.ofStr key]

/-- `get_key_for_task`; `none` is the `ValueError` for an empty id. -/
def getKeyForTask? (id : String) : Option (List α) :=
  if id = "" then none else some (b.getKeyFor b.taskKeyPrefix id "")

/-- `_filter_ready`. -/
def filterReady {κ : Type} (values : List (κ × Option β)) : List (κ × M) :=
  values.filterMap fun (k, value) => value.bind fun payload =>
    if b.ready (b.decodeResult payload) then some (k, b.decodeResult payload) else none

variable [DecidableEq α]

/-- `_strip_prefix`. -/
def stripPrefix (key : R) : String :=
  let key := b.keyType.ofReply key
  let taskKeyPrefix := b.keyType.ofStr b.taskKeyPrefix
  let groupKeyPrefix := b.keyType.ofStr b.groupKeyPrefix
  if taskKeyPrefix <+: key then b.keyType.toStr (key.drop taskKeyPrefix.length)
  else if groupKeyPrefix <+: key then b.keyType.toStr (key.drop groupKeyPrefix.length)
  else b.keyType.toStr key

/-- `enumerate`. -/
def enumerate (n : ℕ) : List (Option β) → List (ℕ × Option β)
  | [] => []
  | value :: values => (n, value) :: enumerate (n + 1) values

/-- `_mget_to_results`; `none` is an `IndexError`.  The ids are strings, which `bytes_to_str`
leaves as they are. -/
def mgetToResults? (keys : List String) : Reply R β → Option (OrderedDict String M)
  | .dict items =>
    some (OrderedDict.ofItems ((b.filterReady items).map fun (k, v) => (b.stripPrefix k, v)))
  | .list values =>
    ((b.filterReady (enumerate 0 values)).mapM fun item : ℕ × M =>
      keys[item.1]?.map fun k => (k, item.2)).map OrderedDict.ofItems

/-- One poll: the ids in the order of `list(ids)`, and the reply. -/
structure Poll (R β : Type) where
  keys : List String
  reply : Reply R β

/-- Where the generator is after some polls. -/
inductive Outcome where
  | returned
  | polling (ids : List String)
  | raised

/-- The loop over the polls: what it yields, and where it is then. -/
def pollLoop : List String → List (Poll R β) → List (String × M) × Outcome
  | [], _ => ([], .returned)
  | id :: ids, [] => ([], .polling (id :: ids))
  | id :: ids, poll :: polls =>
    match poll.keys.mapM b.getKeyForTask?, b.mgetToResults? poll.keys poll.reply with
    | some _, some r =>
      let (yielded, outcome) := pollLoop ((id :: ids).filter (· ∉ r.keys)) polls
      (r.items ++ yielded, outcome)
    | _, _ => ([], .raised)

omit [DecidableEq α] in
/-- The meta that the loop over the cache yields for an id. -/
def cached? (cache : String → Option M) (id : String) : Option M := (cache id).filter b.ready

/-- **`get_many`:** `ids` is the set in the order in which the first loop takes it, `cache` what
that loop finds in the cache for each of them, and `polls` are the first polls. -/
def getMany (ids : List String) (cache : String → Option M) (polls : List (Poll R β)) :
    List (String × M) × Outcome :=
  let cached := ids.filterMap fun id => (b.cached? cache id).map fun m => (id, m)
  let (yielded, outcome) := b.pollLoop (ids.filter (· ∉ cached.map Prod.fst)) polls
  (cached ++ yielded, outcome)

/-! ## The store -/

omit [DecidableEq α] in
/-- The key that an id has in the store. -/
def taskKey (id : String) : List α := b.getKeyFor b.taskKeyPrefix id ""

omit [DecidableEq α] in
/-- A meta that is ready is in the store. -/
def ReadyAt (store : List α → Option β) (id : String) (m : M) : Prop :=
  ∃ payload, store (b.taskKey id) = some payload ∧ b.decodeResult payload = m ∧ b.ready m

omit [DecidableEq α] in
/-- **`mget` answers from the store:** with a list in the order of the keys, or with a dict of
what is there under the keys. -/
inductive Answers (store : List α → Option β) (keys : List (List α)) : Reply R β → Prop where
  | list : Answers store keys (.list (keys.map store))
  | dict {items : List (R × Option β)}
    (nodup : (items.map fun item => b.keyType.ofReply item.1).Nodup)
    (sound : ∀ k v, (k, some v) ∈ items →
      b.keyType.ofReply k ∈ keys ∧ store (b.keyType.ofReply k) = some v)
    (complete : ∀ key ∈ keys, ∀ v, store key = some v →
      ∃ k, (k, some v) ∈ items ∧ b.keyType.ofReply k = key) :
    Answers store keys (.dict items)

/-- The polls ask for the ids that are left, in any order, and are answered from the store as it
is then. -/
def Follows : (ℕ → List α → Option β) → List String → List (Poll R β) → Prop
  | _, _, [] => True
  | store, ids, poll :: polls =>
    poll.keys.Perm ids ∧ b.Answers (store 0) (poll.keys.map b.taskKey) poll.reply ∧
      ∀ r, b.mgetToResults? poll.keys poll.reply = some r →
        Follows (fun n => store (n + 1)) (ids.filter (· ∉ r.keys)) polls

/-- **Each id exactly once:** what is yielded has ids of the set, once each, with a meta that is
ready, from the cache or the store; nothing is raised; the generator has returned exactly if each
id was in the cache or ready at one of the polls, and all have been yielded then. -/
structure ExactlyOnce (store : ℕ → List α → Option β) (ids : List String)
    (cache : String → Option M) (polls : List (Poll R β))
    (run : List (String × M) × Outcome) : Prop where
  nodup : (run.1.map Prod.fst).Nodup
  ready : ∀ id m, (id, m) ∈ run.1 →
    id ∈ ids ∧ b.ready m ∧ (cache id = some m ∨ ∃ n < polls.length, b.ReadyAt (store n) id m)
  not_raised : run.2 ≠ .raised
  returned_iff : run.2 = .returned ↔ ∀ id ∈ ids,
    (b.cached? cache id).isSome ∨ ∃ n < polls.length, ∃ m, b.ReadyAt (store n) id m
  all : run.2 = .returned → (run.1.map Prod.fst).Perm ids

variable {b} {store : List α → Option β} {id : String} {m : M}

/-! ## Keys -/

omit [DecidableEq α] in
theorem taskKey_eq (b : Backend α R β M) (id : String) :
    b.taskKey id = b.keyType.ofStr b.taskKeyPrefix ++ b.keyType.ofStr id := by
  rw [taskKey, getKeyFor, b.keyType.ofStr_empty]
  simp [List.intercalate]

omit [DecidableEq α] in
theorem getKeyForTask?_eq_some (h : id ≠ "") : b.getKeyForTask? id = some (b.taskKey id) :=
  if_neg h

/-- **A key is stripped to the id** that it was made from. -/
theorem stripPrefix_of_eq {k : R} (h : b.keyType.ofReply k = b.taskKey id) :
    b.stripPrefix k = id := by
  rw [stripPrefix, h, taskKey_eq, if_pos (List.prefix_append _ _), List.drop_left,
    b.keyType.toStr_ofStr]

/-! ## One poll -/

omit [DecidableEq α] in
/-- The meta that is ready, if there is one. -/
def readyMeta? (b : Backend α R β M) (store : List α → Option β) (id : String) : Option M :=
  (store (b.taskKey id)).bind fun payload =>
    if b.ready (b.decodeResult payload) then some (b.decodeResult payload) else none

omit [DecidableEq α] in
theorem readyMeta?_eq_some_iff : b.readyMeta? store id = some m ↔ b.ReadyAt store id m := by
  rw [readyMeta?, ReadyAt, Option.bind_eq_some_iff]
  refine exists_congr fun payload => and_congr_right fun _ => ?_
  constructor
  · intro h
    obtain ⟨hready, heq⟩ := Option.ite_none_right_eq_some.mp h
    obtain rfl := Option.some_inj.mp heq
    exact ⟨rfl, hready⟩
  · rintro ⟨rfl, hready⟩
    exact if_pos hready

omit [DecidableEq α] in
theorem mem_filterReady_iff {κ : Type} {values : List (κ × Option β)} {k : κ} :
    (k, m) ∈ b.filterReady values ↔
      ∃ payload, (k, some payload) ∈ values ∧ b.decodeResult payload = m ∧ b.ready m := by
  rw [filterReady, List.mem_filterMap]
  constructor
  · rintro ⟨⟨k', _ | payload⟩, hmem, h⟩
    · cases h
    · obtain ⟨hready, heq⟩ := Option.ite_none_right_eq_some.mp h
      obtain ⟨rfl, rfl⟩ := Prod.mk.inj (Option.some_inj.mp heq)
      exact ⟨payload, hmem, rfl, hready⟩
  · rintro ⟨payload, hmem, rfl, hready⟩
    exact ⟨(k, some payload), hmem, if_pos hready⟩

omit [DecidableEq α] in
theorem map_filterReady_sublist {κ γ : Type} (f : κ → γ) (values : List (κ × Option β)) :
    ((b.filterReady values).map fun item => f item.1).Sublist
      (values.map fun item => f item.1) := by
  induction values with
  | nil => exact List.Sublist.slnil
  | cons item values ih =>
    rw [filterReady, List.filterMap_cons]
    split
    · exact ih.cons _
    next k m heq =>
      obtain ⟨payload, -, hif⟩ := Option.bind_eq_some_iff.mp heq
      obtain ⟨-, heq⟩ := Option.ite_none_right_eq_some.mp hif
      obtain rfl := Option.some_inj.mp heq
      exact ih.cons_cons _

omit [DecidableEq α] in
/-- What a list of values in the order of the keys comes to. -/
theorem mapM_filterReady_enumerate (b : Backend α R β M) (store : List α → Option β)
    (pre keys : List String) :
    ((b.filterReady (enumerate pre.length (keys.map fun id => store (b.taskKey id)))).mapM
      fun item : ℕ × M => (pre ++ keys)[item.1]?.map fun k => (k, item.2)) =
      some (keys.filterMap fun id => (b.readyMeta? store id).map fun m => (id, m)) := by
  induction keys generalizing pre with
  | nil => rfl
  | cons id keys ih =>
    have htail := ih (pre ++ [id])
    rw [List.length_append, List.length_singleton, List.append_assoc, List.singleton_append]
      at htail
    have hat : (pre ++ id :: keys)[pre.length]? = some id := by simp
    rw [List.map_cons, enumerate, filterReady, List.filterMap_cons, List.filterMap_cons]
    rcases hstore : store (b.taskKey id) with _ | payload
    · have hmeta : b.readyMeta? store id = none := by rw [readyMeta?, hstore, Option.bind_none]
      rw [hmeta]
      exact htail
    · by_cases hready : b.ready (b.decodeResult payload) = true
      · have hmeta : b.readyMeta? store id = some (b.decodeResult payload) :=
          readyMeta?_eq_some_iff.mpr ⟨payload, hstore, rfl, hready⟩
        rw [hmeta]
        dsimp only [Option.bind_some]
        rw [if_pos hready, List.mapM_cons, hat]
        dsimp only [Option.map_some]
        rw [← filterReady, htail]
        rfl
      · have hmeta : b.readyMeta? store id = none := by
          rw [readyMeta?, hstore, Option.bind_some, if_neg hready]
        rw [hmeta]
        dsimp only [Option.bind_some]
        rw [if_neg hready]
        exact htail

omit [DecidableEq α] in
theorem nodup_filterMap {keys : List String} (h : keys.Nodup) (f : String → Option M) :
    ((keys.filterMap fun id => (f id).map fun m => (id, m)).map Prod.fst).Nodup := by
  have hsub : (keys.filterMap fun id => (f id).map fun m => (id, m)).map Prod.fst =
      keys.filter fun id => (f id).isSome := by
    rw [List.map_filterMap, ← List.filterMap_eq_filter]
    refine congrArg (fun g => keys.filterMap g) (funext fun id => ?_)
    cases hf : f id <;> simp [Option.guard, hf]
  rw [hsub]
  exact h.filter _

/-- **One poll** hands back the ids that are ready, with what is in the store for them. -/
theorem mem_mgetToResults_iff {keys : List String} {reply : Reply R β} (hnodup : keys.Nodup)
    (h : b.Answers store (keys.map b.taskKey) reply) :
    ∃ r, b.mgetToResults? keys reply = some r ∧
      ∀ id m, (id, m) ∈ r.items ↔ id ∈ keys ∧ b.ReadyAt store id m := by
  cases h with
  | list =>
    rw [mgetToResults?, List.map_map]
    have hvalues := mapM_filterReady_enumerate b store [] keys
    rw [List.nil_append, List.length_nil] at hvalues
    refine ⟨_, congrArg _ hvalues, fun id m => ?_⟩
    rw [OrderedDict.items_ofItems (nodup_filterMap hnodup _), List.mem_filterMap]
    constructor
    · rintro ⟨id', hmem, hmap⟩
      obtain ⟨m', hmeta, heq⟩ := Option.map_eq_some_iff.mp hmap
      obtain ⟨rfl, rfl⟩ := Prod.mk.inj heq
      exact ⟨hmem, readyMeta?_eq_some_iff.mp hmeta⟩
    · rintro ⟨hmem, hready⟩
      exact ⟨id, hmem, by rw [readyMeta?_eq_some_iff.mpr hready, Option.map_some]⟩
  | @dict items nodup sound complete =>
    refine ⟨_, rfl, ?_⟩
    have hid : ∀ k m, (k, m) ∈ b.filterReady items →
        ∃ id ∈ keys, b.keyType.ofReply k = b.taskKey id ∧ b.ReadyAt store id m := by
      intro k m hmem
      obtain ⟨payload, hitem, hdecode, hready⟩ := mem_filterReady_iff.mp hmem
      obtain ⟨hkey, hstore⟩ := sound k payload hitem
      obtain ⟨id, hmem, hkeyid⟩ := List.mem_map.mp hkey
      exact ⟨id, hmem, hkeyid.symm, payload, by rw [hkeyid, hstore], hdecode, hready⟩
    have hkeys : ((b.filterReady items).map fun item => b.keyType.ofReply item.1).Nodup :=
      (map_filterReady_sublist b.keyType.ofReply items).nodup nodup
    have htaskKey : (((b.filterReady items).map fun item => (b.stripPrefix item.1, item.2)).map
        Prod.fst).map b.taskKey =
        (b.filterReady items).map fun item => b.keyType.ofReply item.1 := by
      rw [List.map_map, List.map_map]
      refine List.map_congr_left fun item hmem => ?_
      obtain ⟨id, -, hkey, -⟩ := hid item.1 item.2 hmem
      exact (congrArg b.taskKey (stripPrefix_of_eq hkey)).trans hkey.symm
    have hstripped : (((b.filterReady items).map fun item => (b.stripPrefix item.1, item.2)).map
        Prod.fst).Nodup := List.Nodup.of_map b.taskKey (htaskKey ▸ hkeys)
    intro id m
    rw [OrderedDict.items_ofItems hstripped, List.mem_map]
    constructor
    · rintro ⟨⟨k, m'⟩, hmem, heq⟩
      obtain ⟨rfl, rfl⟩ := Prod.mk.inj heq
      obtain ⟨id, hid, hkey, hready⟩ := hid k m' hmem
      rw [stripPrefix_of_eq hkey]
      exact ⟨hid, hready⟩
    · rintro ⟨hmem, payload, hstore, hdecode, hready⟩
      obtain ⟨k, hitem, hkey⟩ := complete _ (List.mem_map_of_mem hmem) payload hstore
      refine ⟨(k, m), mem_filterReady_iff.mpr ⟨payload, hitem, hdecode, hready⟩, ?_⟩
      rw [stripPrefix_of_eq hkey]

/-! ## Runs -/

/-- What has been handed back, and what is left of the set. -/
theorem perm_append_filter {keys ids : List String} (hkeys : keys.Nodup) (hids : ids.Nodup)
    (hsub : ∀ id ∈ keys, id ∈ ids) : (keys ++ ids.filter (· ∉ keys)).Perm ids := by
  have hdisjoint : keys.Disjoint (ids.filter (· ∉ keys)) := by
    intro id hmem hleft
    exact absurd hmem (of_decide_eq_true (List.mem_filter.mp hleft).2)
  refine (List.perm_ext_iff_of_nodup (hkeys.append (hids.filter _) hdisjoint) hids).mpr fun id => ?_
  rw [List.mem_append, List.mem_filter, decide_eq_true_iff]
  constructor
  · rintro (hmem | ⟨hmem, -⟩)
    · exact hsub id hmem
    · exact hmem
  · intro hmem
    by_cases hkey : id ∈ keys
    · exact .inl hkey
    · exact .inr ⟨hmem, hkey⟩

theorem mem_left_iff {keys ids : List String} {id : String} :
    id ∈ ids.filter (· ∉ keys) ↔ id ∈ ids ∧ id ∉ keys := by
  rw [List.mem_filter, decide_eq_true_iff]

omit [DecidableEq α] in
/-- What is handed back first, and then by a run for the ids that are left. -/
theorem ExactlyOnce.append {ids : List String} {store : ℕ → List α → Option β}
    {cache : String → Option M} {polls : List (Poll R β)} {run : List (String × M) × Outcome}
    {first : List (String × M)} (hfirst : (first.map Prod.fst).Nodup) (hids : ids.Nodup)
    (hsub : ∀ id m, (id, m) ∈ first → id ∈ ids)
    (h : b.ExactlyOnce store (ids.filter (· ∉ first.map Prod.fst)) cache polls run) :
    ((first ++ run.1).map Prod.fst).Nodup ∧
      (run.2 = .returned → ((first ++ run.1).map Prod.fst).Perm ids) := by
  rw [List.map_append]
  refine ⟨hfirst.append h.nodup fun id hid hid' => ?_, fun hreturned => ?_⟩
  · obtain ⟨⟨id, m⟩, hitem, rfl⟩ := List.mem_map.mp hid'
    exact (mem_left_iff.mp (h.ready id m hitem).1).2 hid
  · refine ((h.all hreturned).append_left _).trans (perm_append_filter hfirst hids ?_)
    intro id hid
    obtain ⟨⟨id, m⟩, hitem, rfl⟩ := List.mem_map.mp hid
    exact hsub id m hitem

omit [DecidableEq α] in
/-- Every poll has keys to ask for, where no id is empty. -/
theorem mapM_getKeyForTask? {ids : List String} (h : ∀ id ∈ ids, id ≠ "") :
    ids.mapM b.getKeyForTask? = some (ids.map b.taskKey) := by
  induction ids with
  | nil => rfl
  | cons id ids ih =>
    obtain ⟨hid, hids⟩ := List.forall_mem_cons.mp h
    rw [List.mapM_cons, getKeyForTask?_eq_some hid, ih hids]
    rfl

/-- **The loop** from a set of ids that are not empty. -/
theorem exactlyOnce_pollLoop {store : ℕ → List α → Option β} {ids : List String}
    {polls : List (Poll R β)} (hnodup : ids.Nodup) (hids : ∀ id ∈ ids, id ≠ "")
    (hfollows : b.Follows store ids polls) :
    b.ExactlyOnce store ids (fun _ => none) polls (b.pollLoop ids polls) := by
  induction polls generalizing store ids with
  | nil =>
    cases ids with
    | nil => exact ⟨List.nodup_nil, nofun, nofun, iff_of_true rfl nofun, fun _ => .refl _⟩
    | cons id ids =>
      refine ⟨List.nodup_nil, nofun, nofun, iff_of_false nofun fun h => ?_, nofun⟩
      rcases h id List.mem_cons_self with hcached | ⟨n, hn, -⟩
      · cases hcached
      · exact absurd hn (Nat.not_lt_zero n)
  | cons poll polls ih =>
    cases ids with
    | nil => exact ⟨List.nodup_nil, nofun, nofun, iff_of_true rfl nofun, fun _ => .refl _⟩
    | cons id₀ ids₀ =>
      set ids := id₀ :: ids₀ with hidsdef
      obtain ⟨hperm, hanswers, hfollows⟩ := hfollows
      obtain ⟨r, hr, hmem⟩ :=
        mem_mgetToResults_iff (hperm.nodup_iff.mpr hnodup) hanswers
      have hkeys : poll.keys.mapM b.getKeyForTask? = some (poll.keys.map b.taskKey) :=
        mapM_getKeyForTask? fun id hid => hids id (hperm.mem_iff.mp hid)
      have hloop : b.pollLoop ids (poll :: polls) =
          (r.items ++ (b.pollLoop (ids.filter (· ∉ r.keys)) polls).1,
            (b.pollLoop (ids.filter (· ∉ r.keys)) polls).2) := by
        rw [hidsdef, pollLoop, hkeys, hr]
      have hleft : ∀ id ∈ ids.filter (· ∉ r.keys), id ∈ ids ∧ id ∉ r.keys :=
        fun _ hid => mem_left_iff.mp hid
      have hrkeys : ∀ id ∈ r.keys, id ∈ ids ∧ ∃ m, b.ReadyAt (store 0) id m := by
        intro id hid
        obtain ⟨⟨id, m⟩, hitem, rfl⟩ := List.mem_map.mp hid
        obtain ⟨hkey, hready⟩ := (hmem id m).mp hitem
        exact ⟨hperm.mem_iff.mp hkey, m, hready⟩
      have hrest := ih (hnodup.filter _) (fun id hid => hids id (hleft id hid).1) (hfollows r hr)
      obtain ⟨hnodupAll, hpermAll⟩ := hrest.append r.nodup hnodup fun id m hitem =>
        hperm.mem_iff.mp ((hmem id m).mp hitem).1
      rw [hloop]
      refine ⟨hnodupAll, ?_, hrest.not_raised, hrest.returned_iff.trans ?_, hpermAll⟩
      · intro id m hitem
        rcases List.mem_append.mp hitem with hitem | hitem
        · obtain ⟨hkey, hready⟩ := (hmem id m).mp hitem
          have ⟨_, _, _, hm⟩ := hready
          exact ⟨hperm.mem_iff.mp hkey, hm, .inr ⟨0, Nat.succ_pos _, hready⟩⟩
        · obtain ⟨hid, hm, hcached | ⟨n, hn, hready⟩⟩ := hrest.ready id m hitem
          · cases hcached
          · exact ⟨(hleft id hid).1, hm, .inr ⟨n + 1, Nat.succ_lt_succ hn, hready⟩⟩
      · constructor
        · intro h id hid
          by_cases hkey : id ∈ r.keys
          · exact .inr ⟨0, Nat.succ_pos _, (hrkeys id hkey).2⟩
          · have hin : id ∈ ids.filter (· ∉ r.keys) :=
              List.mem_filter.mpr ⟨hid, decide_eq_true hkey⟩
            rcases h id hin with hcached | ⟨n, hn, hready⟩
            · cases hcached
            · exact .inr ⟨n + 1, Nat.succ_lt_succ hn, hready⟩
        · intro h id hid
          obtain ⟨hin, hkey⟩ := hleft id hid
          rcases h id hin with hcached | ⟨n, hn, m, hready⟩
          · cases hcached
          · cases n with
            | zero =>
              have hitem : (id, m) ∈ r.items := (hmem id m).mpr ⟨hperm.mem_iff.mpr hin, hready⟩
              exact absurd (List.mem_map_of_mem hitem) hkey
            | succ n => exact .inr ⟨n, Nat.lt_of_succ_lt_succ hn, m, hready⟩

omit [DecidableEq α] in
theorem cached?_eq_some_iff {cache : String → Option M} :
    b.cached? cache id = some m ↔ cache id = some m ∧ b.ready m :=
  Option.filter_eq_some_iff

/-- **`get_many` yields each id exactly once**, from any cache and any store, whatever the kinds
of the replies are, if no id is empty that the cache does not have. -/
theorem getMany_exactlyOnce (b : Backend α R β M) (store : ℕ → List α → Option β)
    {ids : List String} (cache : String → Option M) {polls : List (Poll R β)}
    (hnodup : ids.Nodup) (hids : ∀ id ∈ ids, id = "" → (b.cached? cache id).isSome)
    (hfollows : b.Follows store (ids.filter fun id => !(b.cached? cache id).isSome) polls) :
    b.ExactlyOnce store ids cache polls (b.getMany ids cache polls) := by
  set cached := ids.filterMap fun id => (b.cached? cache id).map fun m => (id, m) with hcached
  have hmem : ∀ id m, (id, m) ∈ cached ↔ id ∈ ids ∧ b.cached? cache id = some m := by
    intro id m
    rw [hcached, List.mem_filterMap]
    constructor
    · rintro ⟨id', hmem, hmap⟩
      obtain ⟨m', hm, heq⟩ := Option.map_eq_some_iff.mp hmap
      obtain ⟨rfl, rfl⟩ := Prod.mk.inj heq
      exact ⟨hmem, hm⟩
    · rintro ⟨hmem, hm⟩
      exact ⟨id, hmem, by rw [hm, Option.map_some]⟩
  have hkeys : (cached.map Prod.fst).Nodup := nodup_filterMap hnodup _
  have hmemkeys : ∀ id ∈ ids, (id ∈ cached.map Prod.fst ↔ (b.cached? cache id).isSome) := by
    intro id hid
    rw [Option.isSome_iff_exists, List.mem_map]
    constructor
    · rintro ⟨⟨id, m⟩, hitem, rfl⟩
      exact ⟨m, ((hmem id m).mp hitem).2⟩
    · rintro ⟨m, hm⟩
      exact ⟨(id, m), (hmem id m).mpr ⟨hid, hm⟩, rfl⟩
  have hleft : (ids.filter fun id => !(b.cached? cache id).isSome) =
      ids.filter (· ∉ cached.map Prod.fst) := by
    refine List.filter_congr fun id hid => ?_
    simp only [decide_not, hmemkeys id hid, Bool.decide_eq_true]
  rw [hleft] at hfollows
  have hin : ∀ id ∈ ids.filter (· ∉ cached.map Prod.fst),
      id ∈ ids ∧ id ∉ cached.map Prod.fst := fun _ hid => mem_left_iff.mp hid
  have hrest := exactlyOnce_pollLoop (hnodup.filter _) (fun id hid hempty =>
    (hin id hid).2 ((hmemkeys id (hin id hid).1).mpr (hids id (hin id hid).1 hempty))) hfollows
  obtain ⟨hnodupAll, hpermAll⟩ := hrest.append hkeys hnodup fun id m hitem =>
    ((hmem id m).mp hitem).1
  rw [getMany, ← hcached]
  refine ⟨hnodupAll, ?_, hrest.not_raised, hrest.returned_iff.trans ?_, hpermAll⟩
  · intro id m hitem
    rcases List.mem_append.mp hitem with hitem | hitem
    · obtain ⟨hid, hm⟩ := (hmem id m).mp hitem
      obtain ⟨hcache, hready⟩ := cached?_eq_some_iff.mp hm
      exact ⟨hid, hready, .inl hcache⟩
    · obtain ⟨hid, hready, hnone | hpoll⟩ := hrest.ready id m hitem
      · cases hnone
      · exact ⟨(hin id hid).1, hready, .inr hpoll⟩
  · constructor
    · intro h id hid
      by_cases hkey : id ∈ cached.map Prod.fst
      · exact .inl ((hmemkeys id hid).mp hkey)
      · rcases h id (List.mem_filter.mpr ⟨hid, decide_eq_true hkey⟩) with hnone | hpoll
        · cases hnone
        · exact .inr hpoll
    · intro h id hid
      obtain ⟨hid, hnot⟩ := hin id hid
      exact .inr ((h id hid).resolve_left fun hsome => hnot ((hmemkeys id hid).mpr hsome))

/-- String keys, and metas that are ready exactly if they are not `0`. -/
def plainBackend : Backend Char String ℕ ℕ where
  keyType := strKeys
  taskKeyPrefix := "celery-task-meta-"
  groupKeyPrefix := "celery-taskset-meta-"
  decodeResult payload := payload
  ready m := m ≠ 0

/-- A cache with a result of `a`. -/
def cacheOfA (id : String) : Option ℕ := if id = "a" then some 3 else none

theorem cached_and_polled_exactlyOnce :
    plainBackend.ExactlyOnce (fun _ _ => some 5) ["a", "b"] cacheOfA [⟨["b"], .list [some 5]⟩]
      (plainBackend.getMany ["a", "b"] cacheOfA [⟨["b"], .list [some 5]⟩]) :=
  getMany_exactlyOnce plainBackend _ _ (by decide) (by decide)
    ⟨by decide, .list, fun _ _ => trivial⟩

/-- **An empty id:** `get_many` raises, and `a`, which is ready, does not come back. -/
theorem empty_id_raises :
    plainBackend.Follows (fun _ _ => some 5) ["", "a"] [⟨["", "a"], .list [some 5, some 5]⟩] ∧
      ¬ plainBackend.ExactlyOnce (fun _ _ => some 5) ["", "a"] (fun _ => none)
        [⟨["", "a"], .list [some 5, some 5]⟩]
        (plainBackend.getMany ["", "a"] (fun _ => none)
          [⟨["", "a"], .list [some 5, some 5]⟩]) :=
  ⟨⟨by decide, .list, fun _ _ => trivial⟩, fun h => h.not_raised rfl⟩

end Backend
end GetMany
end Celery
