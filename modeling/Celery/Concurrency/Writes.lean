/-
# `celery/concurrency/asynpool.py`: what a pipe is sent

`Good` is what holds of a pipe: the jobs that were written to it, then less than a frame, and with
the fair strategy not more than one job that the process has to report.  `Sound` is what holds of a
pool.  Both are kept as jobs are written: `_write_job` (lines 897-946) keeps them at each send
(`Sound.progress`), and `schedule_writes` (lines 804-875) for each pipe (`Sound.visit`).
-/

import Celery.Concurrency.AsynPool
import Mathlib.Data.List.Infix
import Mathlib.Data.List.Nodup
import Mathlib.Data.List.Perm.Basic

namespace Celery
namespace AsynPool

variable {J P : Type} {e : Env J P}

/-! ## One write -/

namespace Writing

variable {w : Writing J P} {n : ℕ}

/-- The bytes that were sent. -/
def emitted (e : Env J P) (w : Writing J P) : List UInt8 :=
  (w.header e).take w.hw ++ (e.body w.job).take w.bw

/-- The header is sent before the body, and no more than there is. -/
structure Well (e : Env J P) (w : Writing J P) : Prop where
  hw : w.hw ≤ 4
  bw : w.bw ≤ (e.body w.job).length
  order : w.hw < 4 → w.bw = 0

@[simp] theorem length_header : (w.header e).length = 4 := length_toBytes ..

@[simp] theorem job_advance : (w.advance n).job = w.job := by
  rw [advance]
  split <;> rfl

@[simp] theorem proc_advance : (w.advance n).proc = w.proc := by
  rw [advance]
  split <;> rfl

theorem Well.advance (h : w.Well e) (hn : n ≤ w.wanted e) : (w.advance n).Well e := by
  obtain ⟨hhw, hbw, horder⟩ := h
  rw [wanted] at hn
  rw [Writing.advance]
  split at hn
  next hlt =>
    rw [if_pos hlt]
    exact ⟨by dsimp only; omega, hbw, fun _ => horder hlt⟩
  next hge =>
    rw [if_neg hge]
    exact ⟨hhw, by dsimp only; omega, fun hlt => absurd hlt hge⟩

theorem emitted_advance (h : w.Well e) :
    (w.advance n).emitted e = w.emitted e ++ w.chunk e n := by
  rw [advance, chunk]
  split
  next hlt =>
    rw [emitted, emitted, h.order hlt, List.take_zero, List.append_nil, List.append_nil,
      List.take_add]
    rfl
  next hge =>
    rw [emitted, emitted, List.append_assoc, List.take_add]
    rfl

theorem emitted_of_finished (hf : w.Finished e) :
    w.emitted e = frame 4 (e.body w.job) := by
  rw [emitted, List.take_of_length_le (by rw [length_header]; exact hf.1),
    List.take_of_length_le hf.2]
  rfl

theorem emitted_cut (h : w.Well e) (hf : ¬ w.Finished e)
    (hsize : (e.body w.job).length < 2 ^ 32) : Cut 4 (w.emitted e) := by
  by_cases hlt : w.hw < 4
  · refine .inl ?_
    rw [emitted, h.order hlt, List.take_zero, List.append_nil, List.length_take, length_header]
    omega
  · have hsmall : w.bw < (e.body w.job).length := by
      rw [Finished] at hf
      omega
    have hheader : (w.header e).take w.hw = w.header e :=
      List.take_of_length_le (by rw [length_header]; omega)
    refine .inr ?_
    rw [emitted, hheader, List.take_left' length_header, header,
      ofBytes_toBytes (Nat.lt_of_lt_of_le hsize (by decide)), List.length_append, length_toBytes,
      List.length_take]
    omega

/-- What `next(cor)` does to a `_write_job`. -/
structure Moved (e : Env J P) (w : Writing J P) (p : Progress J P) : Prop where
  job : p.writing.job = w.job
  well : p.writing.Well e
  emitted : p.writing.emitted e = w.emitted e ++ p.bytes
  finished : p.writing.Finished e ↔ p.status = .returned

theorem next_spec {sends : List Send} {p : Progress J P} (h : w.Well e) (hf : ¬ w.Finished e)
    (hp : w.next e sends = some p) : Moved e w p := by
  induction sends generalizing w p with
  | nil => cases hp
  | cons send sends ih =>
    cases send with
    | sent n =>
      rw [next] at hp
      split at hp
      next hn =>
        have hmoved := emitted_advance h (n := n)
        split at hp
        next hfinished =>
          split at hp
          · obtain rfl := Option.some.inj hp
            exact ⟨job_advance, h.advance hn, hmoved, fun _ => rfl, fun _ => hfinished⟩
          · cases hp
        next hmore =>
          obtain ⟨q, hq, rfl⟩ := Option.map_eq_some_iff.mp hp
          obtain ⟨hjob, hwell, hemitted, hfinished⟩ := ih (h.advance hn) hmore hq
          refine ⟨hjob.trans job_advance, hwell, ?_, hfinished⟩
          rw [hemitted, hmoved, List.append_assoc]
      next => cases hp
    | unavail =>
      rw [next] at hp
      split at hp
      · obtain rfl := Option.some.inj hp
        refine ⟨rfl, ⟨h.hw, h.bw, h.order⟩, (List.append_nil _).symm, fun hfin => absurd hfin hf,
          fun hret => ?_⟩
        dsimp only at hret
        split at hret <;> cases hret
      · cases hp
    | raised err =>
      rw [next] at hp
      split at hp
      · obtain rfl := Option.some.inj hp
        exact ⟨rfl, h, (List.append_nil _).symm, fun hfin => absurd hfin hf, fun hret => by
          cases hret⟩
      · cases hp

end Writing

/-! ## One pipe -/

variable [DecidableEq J] {s t : Pool J P} {todo : J → Prop} {fd : ℕ} {job : J}

/-- What there is for a pipe. -/
structure Inqueue (J P : Type) where
  owner : Option P
  active : Bool
  busy : Bool
  writer : Option (Writing J P)
  pipe : List UInt8
  written : List J
  torn : List J
  givenUp : Bool
  behind : Bool

def Pool.inqueue (s : Pool J P) (fd : ℕ) : Inqueue J P where
  owner := s.filenoToInq fd
  active := fd ∈ s.activeWrites
  busy := fd ∈ s.busyWorkers
  writer := s.writers fd
  pipe := s.pipe fd
  written := s.written fd
  torn := s.torn fd
  givenUp := fd ∈ s.givenUp
  behind := fd ∈ s.behind

namespace Inqueue

variable {q : Inqueue J P} {cache : List J}

/-- The jobs that a process has, wholly or in part, and has not reported. -/
def load (q : Inqueue J P) (cache : List J) : List J :=
  q.written.filter (· ∈ cache) ++ q.writer.toList.map Writing.job ++ q.torn

theorem mem_load_iff : job ∈ q.load cache ↔
    (job ∈ q.written ∧ job ∈ cache) ∨ (∃ w, q.writer = some w ∧ w.job = job) ∨ job ∈ q.torn := by
  rw [load, List.mem_append, List.mem_append, List.mem_filter, decide_eq_true_iff, List.mem_map,
    or_assoc]
  simp only [Option.mem_toList]

/-- The bytes behind the last job that was written to the pipe. -/
def rest (e : Env J P) (q : Inqueue J P) : List UInt8 :=
  q.pipe.drop (stream 4 (q.written.map e.body)).length

/-- A pipe holds the jobs that were written to it and less than a frame, the first part of the
job that is being written. -/
structure Framed (e : Env J P) (q : Inqueue J P) : Prop where
  pipe : q.pipe = stream 4 (q.written.map e.body) ++ q.rest e
  cut : Cut 4 (q.rest e)
  writer : ∀ w, q.writer = some w → q.torn = [] ∧ q.rest e = w.emitted e
  idle : q.writer = none → q.torn = [] → q.rest e = []

/-- What holds of a pipe. -/
structure Good (e : Env J P) (s : Pool J P) (fd : ℕ) (q : Inqueue J P) : Prop where
  owner : ∀ p, q.owner = some p → e.inqW p = fd ∧ p ∈ s.pool ∧ s.dead p = false
  writing : ∀ w, q.writer = some w → q.active ∧ w.Well e ∧ ¬ w.Finished e
  load : ∀ j ∈ q.load s.cache,
    j ∈ s.cache ∧ j ∉ s.outboundBuffer ∧ q.owner ≠ none ∧ s.writeTo j = q.owner
  nodup : (q.load s.cache).Nodup
  busy : e.isFairStrategy → q.load s.cache ≠ [] → q.busy
  single : e.isFairStrategy → (q.load s.cache).length ≤ 1
  front : e.isFairStrategy → q.behind = false
  sent : ∀ j ∈ q.written, j ∈ s.sent
  framed : q.givenUp = false → q.behind = false → q.Framed e

omit [DecidableEq J] in
theorem Framed.of_eq {b : List UInt8}
    (hpipe : q.pipe = stream 4 (q.written.map e.body) ++ b) (hcut : Cut 4 b)
    (hwriter : ∀ w, q.writer = some w → q.torn = [] ∧ b = w.emitted e)
    (hidle : q.writer = none → q.torn = [] → b = []) : q.Framed e := by
  have hrest : q.rest e = b := by rw [rest, hpipe, List.drop_left]
  exact ⟨hrest.symm ▸ hpipe, hrest.symm ▸ hcut, hrest.symm ▸ hwriter, hrest.symm ▸ hidle⟩

/-- A pipe to which nothing happens. -/
theorem Good.congr (h : q.Good e s fd) (hload : q.load t.cache = q.load s.cache)
    (howner : ∀ p, q.owner = some p → p ∈ t.pool ∧ t.dead p = false)
    (hjobs : ∀ j ∈ q.load s.cache,
      j ∈ t.cache ∧ j ∉ t.outboundBuffer ∧ t.writeTo j = s.writeTo j)
    (hsent : ∀ j ∈ s.sent, j ∈ t.sent) : q.Good e t fd where
  owner p hp := ⟨(h.owner p hp).1, howner p hp⟩
  writing := h.writing
  load j hj := by
    rw [hload] at hj
    obtain ⟨hcache, hbuffer, hto⟩ := hjobs j hj
    exact ⟨hcache, hbuffer, (h.load j hj).2.2.1, hto.trans (h.load j hj).2.2.2⟩
  nodup := hload ▸ h.nodup
  busy := hload ▸ h.busy
  single := hload ▸ h.single
  front := h.front
  sent j hj := hsent j (h.sent j hj)
  framed := h.framed

/-- At most the buffer loses jobs. -/
theorem Good.of_subset (h : q.Good e s fd) (hcache : t.cache = s.cache)
    (hbuffer : t.outboundBuffer ⊆ s.outboundBuffer) (hto : t.writeTo = s.writeTo)
    (hpool : t.pool = s.pool) (hdead : t.dead = s.dead) (hsent : t.sent = s.sent) :
    q.Good e t fd := by
  refine h.congr (by rw [hcache]) (fun p hp => ?_) (fun j hj => ?_) (by rw [hsent]; exact fun _ => id)
  · rw [hpool, hdead]
    exact (h.owner p hp).2
  · have hin := h.load j hj
    rw [hcache, hto]
    exact ⟨hin.1, fun hmem => hin.2.1 (hbuffer hmem), rfl⟩

/-- Nothing was written to a pipe that no process has. -/
theorem Good.load_eq_nil (h : q.Good e s fd) (howner : q.owner = none) : q.load s.cache = [] :=
  List.eq_nil_iff_forall_not_mem.mpr fun j hj => (h.load j hj).2.2.1 howner

/-- No job is added. -/
theorem Good.of_subperm {q' : Inqueue J P} (h : q.Good e s fd)
    (hload : (q'.load s.cache).Subperm (q.load s.cache)) (howner : q'.owner = q.owner)
    (hbusy : q'.busy = q.busy) (hbehind : q'.behind = q.behind)
    (hwriting : ∀ w, q'.writer = some w → q'.active ∧ w.Well e ∧ ¬ w.Finished e)
    (hsent : ∀ j ∈ q'.written, j ∈ s.sent)
    (hframed : q'.givenUp = false → q'.behind = false → q'.Framed e) : q'.Good e s fd where
  owner := howner ▸ h.owner
  writing := hwriting
  load j hj := howner ▸ h.load j (hload.subset hj)
  nodup := by
    obtain ⟨l, hperm, hsublist⟩ := hload
    exact hperm.nodup_iff.mp (h.nodup.sublist hsublist)
  busy hfair hne := hbusy ▸ h.busy hfair fun hnil =>
    hne (List.eq_nil_of_subset_nil (hnil ▸ hload.subset))
  single hfair := hload.length_le.trans (h.single hfair)
  front := hbehind ▸ h.front
  sent := hsent
  framed := hframed

/-- Nothing is said of a pipe's jobs where there are none. -/
theorem Good.of_nil {q' : Inqueue J P} (h : q.Good e s fd) (hnil : q.load s.cache = [])
    (hframe : q' = { q with owner := q'.owner, active := q'.active, busy := q'.busy })
    (howner : ∀ p, q'.owner = some p → e.inqW p = fd ∧ p ∈ s.pool ∧ s.dead p = false) :
    q'.Good e s fd := by
  have hnil' : q'.load s.cache = [] := by
    rw [hframe]
    exact hnil
  refine ⟨howner, fun w hw => ?_, fun j hj => ?_, ?_, fun _ hne => absurd hnil' hne, fun _ => ?_,
    ?_, ?_, ?_⟩
  · have hmem : w.job ∈ q'.load s.cache := mem_load_iff.mpr (.inr (.inl ⟨w, hw, rfl⟩))
    rw [hnil'] at hmem
    cases hmem
  · rw [hnil'] at hj
    cases hj
  · rw [hnil']
    exact List.nodup_nil
  · rw [hnil']
    exact Nat.zero_le 1
  · rw [hframe]
    exact h.front
  · rw [hframe]
    exact h.sent
  · rw [hframe]
    exact fun hgivenUp hbehind =>
      have hframed := h.framed hgivenUp hbehind
      ⟨hframed.pipe, hframed.cut, hframed.writer, hframed.idle⟩

/-- A new job is not in a pipe. -/
theorem load_append_singleton (hjob : job ∉ q.written) :
    q.load (cache ++ [job]) = q.load cache := by
  have hfilter : q.written.filter (· ∈ cache ++ [job]) = q.written.filter (· ∈ cache) := by
    refine List.filter_congr fun j hj => decide_eq_decide.mpr ?_
    rw [List.mem_append, List.mem_singleton]
    exact or_iff_left fun heq => hjob (heq ▸ hj)
  rw [load, load, hfilter]

theorem load_erase (hload : job ∉ q.load cache) : q.load (cache.erase job) = q.load cache := by
  have hfilter : q.written.filter (· ∈ cache.erase job) = q.written.filter (· ∈ cache) := by
    refine List.filter_congr fun j hj => ?_
    by_cases hjob : j = job
    · subst hjob
      have hcache : j ∉ cache := fun hcache => hload (mem_load_iff.mpr (.inl ⟨hj, hcache⟩))
      rw [List.erase_of_not_mem hcache]
    · rw [decide_eq_decide, List.mem_erase_of_ne hjob]
  rw [load, load, hfilter]

end Inqueue

namespace Pool

/-- What the process of a pipe has. -/
def load (s : Pool J P) (fd : ℕ) : List J := (s.inqueue fd).load s.cache

/-- What holds in every pool that is reached.  Some jobs may have no place for the moment. -/
structure Sound (e : Env J P) (todo : J → Prop) (s : Pool J P) : Prop where
  outbound : s.outboundBuffer.Nodup
  queued : ∀ j ∈ s.outboundBuffer, j ∈ s.cache ∨ s.accepted j
  buffered : ∀ j ∈ s.outboundBuffer, j ∈ s.sent
  cache : s.cache.Nodup
  sent : ∀ j ∈ s.cache, j ∈ s.sent
  size : ∀ j ∈ s.sent, (e.body j).length < 2 ^ 32
  pool : (s.pool.map e.inqW).Nodup
  exited : ∀ p, s.dead p → s.exited p
  scheduled : s.scheduledFor = s.writeTo
  assigned : ∀ j ∈ s.cache, ∀ p, s.writeTo j = some p → p ∈ s.pool ∨ s.dead p
  fresh : ∀ j, s.writeTo j ≠ none → j ∈ s.sent
  inqueues : ∀ fd, (s.inqueue fd).Good e s fd
  placed : ∀ j ∈ s.cache, s.accepted j = false →
    j ∈ s.outboundBuffer ∨ (∃ fd, j ∈ s.load fd) ∨ todo j

theorem sound_init : (init : Pool J P).Sound e fun _ => False := by
  constructor <;> try simp [init]
  intro fd
  constructor <;> simp [inqueue, Inqueue.load]
  exact .of_eq rfl (cut_nil (by decide)) (by simp) fun _ _ => rfl

theorem Sound.mono {todo' : J → Prop} (h : s.Sound e todo)
    (htodo : ∀ j ∈ s.cache, todo j → todo' j) : s.Sound e todo' :=
  { h with placed := fun j hj hacc => (h.placed j hj hacc).imp_right (.imp_right (htodo j hj)) }

/-- What is said of the jobs and of the processes apart from the pipes is the same. -/
structure Alike (s t : Pool J P) : Prop where
  cache : t.cache = s.cache
  accepted : t.accepted = s.accepted
  outboundBuffer : t.outboundBuffer = s.outboundBuffer
  sent : t.sent = s.sent
  pool : t.pool = s.pool
  exited : t.exited = s.exited
  dead : t.dead = s.dead
  scheduledFor : t.scheduledFor = s.scheduledFor
  writeTo : t.writeTo = s.writeTo

/-- A job is with one process. -/
theorem Sound.fd_unique (h : s.Sound e todo) {fd' : ℕ} (hfd : job ∈ s.load fd)
    (hfd' : job ∈ s.load fd') : fd = fd' := by
  obtain ⟨-, -, howner, hto⟩ := (h.inqueues fd).load job hfd
  obtain ⟨-, -, -, hto'⟩ := (h.inqueues fd').load job hfd'
  obtain ⟨p, hp⟩ := Option.ne_none_iff_exists'.mp howner
  rw [← ((h.inqueues fd).owner p hp).1, ((h.inqueues fd').owner p (hto'.symm.trans (hto.trans hp))).1]

theorem Sound.writers_eq_none (h : s.Sound e todo) (hactive : fd ∉ s.activeWrites) :
    s.writers fd = none := by
  by_contra hne
  obtain ⟨w, hw⟩ := Option.ne_none_iff_exists'.mp hne
  exact hactive (of_decide_eq_true ((h.inqueues fd).writing w hw).1)

omit [DecidableEq J] in
theorem Alike.trans {u : Pool J P} (h : Alike s t) (h' : Alike t u) : Alike s u where
  cache := h'.cache.trans h.cache
  accepted := h'.accepted.trans h.accepted
  outboundBuffer := h'.outboundBuffer.trans h.outboundBuffer
  sent := h'.sent.trans h.sent
  pool := h'.pool.trans h.pool
  exited := h'.exited.trans h.exited
  dead := h'.dead.trans h.dead
  scheduledFor := h'.scheduledFor.trans h.scheduledFor
  writeTo := h'.writeTo.trans h.writeTo

/-- Something happens to one pipe. -/
theorem Sound.update {todo' : J → Prop} (h : s.Sound e todo) (halike : Alike s t) (fd : ℕ)
    (hother : ∀ fd', fd' ≠ fd → t.inqueue fd' = s.inqueue fd')
    (hgood : (t.inqueue fd).Good e s fd)
    (hload : ∀ j ∈ s.load fd, j ∈ t.load fd ∨ todo' j) (htodo : ∀ j, todo j → todo' j) :
    t.Sound e todo' := by
  obtain ⟨hcache, haccepted, houtbound, hsent, hpool, hexited, hdead, hscheduled, hwriteTo⟩ :=
    halike
  have hinqueue : ∀ fd', (t.inqueue fd').Good e s fd' := fun fd' => by
    by_cases heq : fd' = fd
    · exact heq ▸ hgood
    · exact hother fd' heq ▸ h.inqueues fd'
  refine ⟨houtbound ▸ h.outbound, ?_, ?_, hcache ▸ h.cache, ?_, ?_, hpool ▸ h.pool, ?_, ?_, ?_, ?_,
    fun fd' => ?_, fun j hj hacc => ?_⟩
  · rw [houtbound, hcache, haccepted]
    exact h.queued
  · rw [houtbound, hsent]
    exact h.buffered
  · rw [hcache, hsent]
    exact h.sent
  · rw [hsent]
    exact h.size
  · rw [hdead, hexited]
    exact h.exited
  · rw [hscheduled, hwriteTo]
    exact h.scheduled
  · rw [hcache, hwriteTo, hpool, hdead]
    exact h.assigned
  · rw [hwriteTo, hsent]
    exact h.fresh
  · exact (hinqueue fd').of_subset hcache (houtbound ▸ List.Subset.refl _) hwriteTo hpool hdead hsent
  · rw [hcache] at hj
    rw [haccepted] at hacc
    rw [houtbound]
    refine (h.placed j hj hacc).imp_right fun hplace => ?_
    rcases hplace with ⟨fd', hfd'⟩ | hj
    · by_cases heq : fd' = fd
      · exact (hload j (heq ▸ hfd')).imp_left fun hj => ⟨fd, hj⟩
      · refine .inl ⟨fd', ?_⟩
        rw [load, hother fd' heq, hcache]
        exact hfd'
    · exact .inr (htodo j hj)

/-- The jobs of one pipe stay there. -/
theorem Sound.rearrange (h : s.Sound e todo) (halike : Alike s t) (fd : ℕ)
    (hother : ∀ fd', fd' ≠ fd → t.inqueue fd' = s.inqueue fd')
    (hload : ((t.inqueue fd).load s.cache).Perm (s.load fd))
    (howner : t.filenoToInq fd = s.filenoToInq fd)
    (hbusy : (t.inqueue fd).busy = (s.inqueue fd).busy)
    (hbehind : (t.inqueue fd).behind = (s.inqueue fd).behind)
    (hwriting : ∀ w, t.writers fd = some w → fd ∈ t.activeWrites ∧ w.Well e ∧ ¬ w.Finished e)
    (hsent : ∀ j ∈ t.written fd, j ∈ s.sent)
    (hframed : fd ∉ t.givenUp → fd ∉ t.behind → (t.inqueue fd).Framed e) : t.Sound e todo := by
  have hgood : (t.inqueue fd).Good e s fd :=
    (h.inqueues fd).of_subperm hload.subperm howner hbusy hbehind
      (fun w hw => (hwriting w hw).imp_left decide_eq_true) hsent fun hgivenUp hfront =>
        hframed (of_decide_eq_false hgivenUp) (of_decide_eq_false hfront)
  refine h.update halike fd hother hgood (fun j hj => .inl ?_) fun _ => id
  rw [load, halike.cache]
  exact hload.mem_iff.mpr hj

/-- A job without a place is put back, or set terminated. -/
theorem Sound.putBack (h : s.Sound e todo) (hjob : job ∈ s.cache)
    (hload : ∀ fd, job ∉ s.load fd) :
    (s.putBack job).Sound e fun j => todo j ∧ j ≠ job := by
  rw [Pool.putBack]
  split
  next =>
    have hcache : ∀ j, j ∈ s.cache.erase job ↔ j ≠ job ∧ j ∈ s.cache := fun j =>
      h.cache.mem_erase_iff
    have hsame : ∀ fd, (s.inqueue fd).load (s.cache.erase job) = (s.inqueue fd).load s.cache :=
      fun fd => Inqueue.load_erase (hload fd)
    refine { h with
      queued := fun j hj => ?_
      cache := h.cache.erase job
      sent := fun j hj => h.sent j ((hcache j).mp hj).2
      assigned := fun j hj => h.assigned j ((hcache j).mp hj).2
      inqueues := fun fd => ?_
      placed := fun j hj hacc => ?_ }
    · by_cases hne : j = job
      · exact .inr (by dsimp only; rw [hne, Function.update_self])
      · exact (h.queued j hj).imp (fun hj => (hcache j).mpr ⟨hne, hj⟩)
          (Function.update_of_ne hne true s.accepted).trans
    · refine (h.inqueues fd).congr (hsame fd) (fun p hp => ((h.inqueues fd).owner p hp).2)
        (fun j hj => ?_) fun _ => id
      have hne : j ≠ job := fun heq => hload fd (heq ▸ hj)
      have hin := (h.inqueues fd).load j hj
      exact ⟨(hcache j).mpr ⟨hne, hin.1⟩, hin.2.1, rfl⟩
    · obtain ⟨hne, hj⟩ := (hcache j).mp hj
      dsimp only at hacc
      rw [Function.update_of_ne hne] at hacc
      exact (h.placed j hj hacc).imp_right
        (.imp (Exists.imp fun fd hfd => (congrArg (j ∈ ·) (hsame fd)).mpr hfd) fun hj => ⟨hj, hne⟩)
  next =>
    split
    next hmem =>
      refine { h with placed := fun j hj hacc => ?_ }
      by_cases hne : j = job
      · exact .inl (hne ▸ hmem)
      · exact (h.placed j hj hacc).imp_right (.imp_right fun hj => ⟨hj, hne⟩)
    next hmem =>
      refine { h with
        outbound := List.nodup_cons.mpr ⟨hmem, h.outbound⟩
        queued := fun j hj => ?_
        buffered := fun j hj => ?_
        inqueues := fun fd => ?_
        placed := fun j hj hacc => ?_ }
      · rcases List.mem_cons.mp hj with rfl | hj
        · exact .inl hjob
        · exact h.queued j hj
      · rcases List.mem_cons.mp hj with rfl | hj
        · exact h.sent j hjob
        · exact h.buffered j hj
      · refine (h.inqueues fd).congr rfl (fun p hp => ((h.inqueues fd).owner p hp).2)
          (fun j hj => ?_) fun _ => id
        have hin := (h.inqueues fd).load j hj
        refine ⟨hin.1, fun hmem => ?_, rfl⟩
        rcases List.mem_cons.mp hmem with rfl | hmem
        · exact hload fd hj
        · exact hin.2.1 hmem
      · by_cases hne : j = job
        · exact .inl (hne ▸ .head _)
        · exact (h.placed j hj hacc).imp (.tail _) (.imp_right fun hj => ⟨hj, hne⟩)

/-- **A write goes on.** -/
theorem Sound.progress {w : Writing J P} {sends : List Send} {p : Progress J P}
    (h : s.Sound e todo) (hw : s.writers fd = some w) (hp : w.next e sends = some p) :
    (s.progress fd p).Sound e todo := by
  have hgood := h.inqueues fd
  obtain ⟨hactive, hwell, hopen⟩ := hgood.writing w hw
  obtain ⟨hjob, hwell', hemitted, hfinished⟩ := Writing.next_spec hwell hopen hp
  have hmem : w.job ∈ s.load fd := Inqueue.mem_load_iff.mpr (.inr (.inl ⟨w, hw, rfl⟩))
  have hcache : w.job ∈ s.cache := (hgood.load w.job hmem).1
  have hcut : ¬ p.writing.Finished e → Cut 4 (p.writing.emitted e) := fun hopen' =>
    Writing.emitted_cut hwell' hopen' (hjob ▸ h.size w.job (h.sent w.job hcache))
  have hbytes : (s.inqueue fd).Framed e → (s.inqueue fd).torn = [] ∧
      s.pipe fd ++ p.bytes = stream 4 ((s.written fd).map e.body) ++ p.writing.emitted e :=
    fun hframed => by
      obtain ⟨htorn, hrest⟩ := hframed.writer w hw
      have hpipe : s.pipe fd = stream 4 ((s.written fd).map e.body) ++ w.emitted e :=
        hrest ▸ hframed.pipe
      exact ⟨htorn, by rw [hpipe, List.append_assoc, hemitted]⟩
  have hsent : ∀ j ∈ s.written fd, j ∈ s.sent := hgood.sent
  rw [Pool.progress]
  cases hstatus : p.status with
  | yielded =>
    dsimp only [endWrite]
    have hopen' : ¬ p.writing.Finished e := fun hf => by
      rw [hfinished, hstatus] at hf
      cases hf
    refine h.rearrange (by constructor <;> rfl) fd (fun fd' hne => by simp [inqueue, hne]) ?_ rfl
      rfl rfl ?_ hsent fun hgivenUp hbehind => ?_
    · simp [inqueue, Inqueue.load, load, hw, hjob]
    · simpa using ⟨of_decide_eq_true hactive, hwell', hopen'⟩
    · obtain ⟨htorn, hpipe⟩ :=
        hbytes (hgood.framed (decide_eq_false hgivenUp) (decide_eq_false hbehind))
      refine .of_eq (by simpa [inqueue] using hpipe) (hcut hopen') ?_ ?_
      · simpa [inqueue] using htorn
      · simp [inqueue]
  | returned =>
    dsimp only [endWrite]
    have hframe : p.writing.emitted e = frame 4 (e.body p.writing.job) :=
      Writing.emitted_of_finished (hfinished.mpr hstatus)
    refine h.rearrange (by constructor <;> rfl) fd (fun fd' hne => by simp [inqueue, hne]) ?_ rfl
      rfl rfl ?_ ?_ fun hgivenUp hbehind => ?_
    · simp [inqueue, Inqueue.load, load, hw, hjob, hcache]
    · simp
    · intro j hj
      dsimp only at hj
      rw [Function.update_self, List.mem_append, List.mem_singleton] at hj
      rcases hj with hj | rfl
      · exact hsent j hj
      · exact hjob ▸ h.sent w.job hcache
    · obtain ⟨htorn, hpipe⟩ :=
        hbytes (hgood.framed (decide_eq_false hgivenUp) (decide_eq_false hbehind))
      refine .of_eq (b := []) ?_ (cut_nil (by decide)) (by simp [inqueue])
        fun _ _ => rfl
      simp [inqueue, hpipe, hframe, stream_append]
  | raised err =>
    dsimp only [endWrite]
    have hopen' : ¬ p.writing.Finished e := fun hf => by
      rw [hfinished, hstatus] at hf
      cases hf
    refine h.rearrange (by constructor <;> rfl) fd
      (fun fd' hne => by simp [inqueue, hne]) ?_ rfl
      rfl rfl (by simp) hsent fun hgivenUp hbehind => ?_
    · simp only [inqueue, Inqueue.load, load, Function.update_self, hw, hjob,
        Option.toList_none, Option.toList_some, List.map_nil, List.map_cons, List.append_nil,
        List.append_assoc, List.singleton_append]
      exact (List.perm_append_singleton ..).append_left _
    · obtain ⟨htorn, hpipe⟩ :=
        hbytes (hgood.framed (decide_eq_false hgivenUp) (decide_eq_false hbehind))
      refine .of_eq (by simpa [inqueue] using hpipe) (hcut hopen') ?_ ?_
      · simp [inqueue]
      · simp [inqueue]
  | notRecovering =>
    have hother : ∀ fd', fd' ≠ fd → (s.giveUp fd p.bytes).inqueue fd' = s.inqueue fd' :=
      fun fd' hne => by
        dsimp only [inqueue, giveUp, endWrite]
        simp [hne]
    have hload : (s.load fd).Perm (w.job :: (s.giveUp fd p.bytes).load fd) := by
      simp only [inqueue, Inqueue.load, load, giveUp, endWrite, Function.update_self, hw,
        Option.toList_none, Option.toList_some, List.map_nil, List.map_cons, List.append_nil,
        List.append_assoc, List.singleton_append]
      exact List.perm_middle
    have hnot : ∀ fd', w.job ∉ (s.giveUp fd p.bytes).load fd' := fun fd' hmem => by
      by_cases heq : fd' = fd
      · have hnodup := hload.nodup_iff.mp hgood.nodup
        exact (List.nodup_cons.mp hnodup).1 (heq ▸ hmem)
      · have hmem' : w.job ∈ s.load fd' := by
          rw [load, ← hother fd' heq]
          exact hmem
        exact heq (h.fd_unique hmem' (hload.symm.subset (.head _)))
    have hgood' : ((s.giveUp fd p.bytes).inqueue fd).Good e s fd := by
      refine hgood.of_subperm ?_ rfl rfl rfl (by simp [inqueue, giveUp, endWrite]) hsent
        (by simp [inqueue, giveUp])
      exact (List.sublist_cons_self ..).subperm.trans hload.symm.subperm
    have hc : (s.giveUp fd p.bytes).Sound e fun j => todo j ∨ j = w.job := by
      refine h.update (by constructor <;> rfl) fd hother hgood' (fun j hj => ?_) fun _ => .inl
      exact (List.mem_cons.mp (hload.subset hj)).symm.imp_right .inr
    exact hjob.symm ▸ (hc.putBack hcache hnot).mono fun j _ hj => hj.1.resolve_right hj.2

/-- A write begins. -/
theorem Sound.begin_ {proc : P} (h : s.Sound e todo) (howner : s.filenoToInq fd = some proc)
    (hactive : fd ∉ s.activeWrites) (hbusy : e.isFairStrategy → fd ∉ s.busyWorkers)
    (hcache : job ∈ s.cache) (hbuffer : job ∉ s.outboundBuffer) (hload : ∀ fd, job ∉ s.load fd) :
    (s.begin_ fd proc job).Sound e fun j => todo j ∧ j ≠ job := by
  have hgood := h.inqueues fd
  have hwriter : s.writers fd = none := h.writers_eq_none hactive
  have hempty : e.isFairStrategy → s.load fd = [] := fun hfair => by
    by_contra hne
    exact hbusy hfair (of_decide_eq_true (hgood.busy hfair hne))
  have hother : ∀ fd', fd' ≠ fd → (s.begin_ fd proc job).inqueue fd' = s.inqueue fd' :=
    fun fd' hne => by
      dsimp only [inqueue, Pool.begin_]
      split <;> simp [hne]
  have hperm : ((s.begin_ fd proc job).load fd).Perm (job :: s.load fd) := by
    simp only [load, inqueue, Inqueue.load, Pool.begin_, Function.update_self, hwriter,
      Option.toList_none, Option.toList_some, List.map_nil, List.map_cons, List.append_nil,
      List.append_assoc, List.singleton_append]
    exact List.perm_middle
  have hne : ∀ fd', ∀ j ∈ s.load fd', j ≠ job := fun fd' j hj heq => hload fd' (heq ▸ hj)
  have hself : (s.begin_ fd proc job).writers fd = some ⟨job, proc, 0, 0, 0⟩ := by
    dsimp only [Pool.begin_]
    rw [Function.update_self]
  have hto : ∀ j, j ≠ job → (s.begin_ fd proc job).writeTo j = s.writeTo j := fun j hj => by
    dsimp only [Pool.begin_]
    rw [Function.update_of_ne hj]
  refine { h with
    scheduled := by dsimp only [Pool.begin_]; rw [h.scheduled]
    assigned := fun j hj p hp => ?_
    fresh := fun j hj => ?_
    inqueues := fun fd' => ?_
    placed := fun j hj hacc => ?_ }
  · by_cases heq : j = job
    · rw [Pool.begin_, heq] at hp
      dsimp only at hp
      rw [Function.update_self] at hp
      obtain rfl := Option.some.inj hp
      exact .inl (hgood.owner proc howner).2.1
    · exact h.assigned j hj p ((hto j heq).symm.trans hp)
  · by_cases heq : j = job
    · exact heq ▸ h.sent job hcache
    · exact h.fresh j ((hto j heq).symm ▸ hj)
  · by_cases heq : fd' = fd
    · subst heq
      refine ⟨hgood.owner, fun w hw => ?_, fun j hj => ?_, ?_, fun _ _ => ?_, fun hfair => ?_,
        fun hfair => ?_, hgood.sent, fun hgivenUp hbehind => ?_⟩
      · obtain rfl := Option.some.inj (hself.symm.trans hw)
        refine ⟨by simp [inqueue, Pool.begin_], ⟨Nat.zero_le _, Nat.zero_le _, fun _ => rfl⟩, ?_⟩
        rintro ⟨h4, -⟩
        cases h4
      · rcases List.mem_cons.mp (hperm.subset hj) with rfl | hj
        · exact ⟨hcache, hbuffer, by simp [inqueue, Pool.begin_, howner],
            by simp [inqueue, Pool.begin_, howner]⟩
        · have hin := hgood.load j hj
          exact ⟨hin.1, hin.2.1, hin.2.2.1, (hto j (hne fd' j hj)).trans hin.2.2.2⟩
      · exact hperm.nodup_iff.mpr (List.nodup_cons.mpr ⟨hload fd', hgood.nodup⟩)
      · simp [inqueue, Pool.begin_]
      · have hlength := hperm.length_eq
        rw [hempty hfair] at hlength
        exact hlength.le
      · have htorn : s.torn fd' = [] :=
          (List.append_eq_nil_iff.mp (hempty hfair)).2
        have hfront := hgood.front hfair
        simpa [inqueue, Pool.begin_, htorn] using hfront
      · have htorn : s.torn fd' = [] := by
          by_contra htorn
          simp [inqueue, Pool.begin_, htorn] at hbehind
        have hfront : (s.inqueue fd').behind = false := by
          simpa [inqueue, Pool.begin_, htorn] using hbehind
        have hframed := hgood.framed hgivenUp hfront
        have hrest := hframed.idle hwriter htorn
        refine .of_eq (b := []) (hrest ▸ hframed.pipe) (cut_nil (by decide)) (fun w hw => ?_)
          fun _ _ => rfl
        obtain rfl := Option.some.inj (hself.symm.trans hw)
        exact ⟨htorn, by simp [Writing.emitted]⟩
    · rw [hother fd' heq]
      refine (h.inqueues fd').congr rfl (fun p hp => ((h.inqueues fd').owner p hp).2)
        (fun j hj => ?_) fun _ => id
      have hin := (h.inqueues fd').load j hj
      exact ⟨hin.1, hin.2.1, hto j (hne fd' j hj)⟩
  · by_cases heq : j = job
    · exact .inr (.inl ⟨fd, hperm.symm.subset (heq ▸ .head _)⟩)
    · refine (h.placed j hj hacc).imp_right (.imp (Exists.imp fun fd' hfd' => ?_)
        fun htodo => ⟨htodo, heq⟩)
      by_cases hfd : fd' = fd
      · subst hfd
        exact hperm.symm.subset (.tail _ hfd')
      · rw [load, hother fd' hfd]
        exact hfd'

omit [DecidableEq J] in
theorem removeWriters_of_idle {fds : Finset ℕ} (h : ∀ fd ∈ fds, s.writers fd = none) :
    s.removeWriters fds = s := by
  have hwriters : (fun fd => if fd ∈ fds then none else s.writers fd) = s.writers := by
    funext fd
    split
    next hfd => exact (h fd hfd).symm
    next => rfl
  have htorn : (fun fd => if fd ∈ fds then s.torn fd ++ (s.writers fd).toList.map Writing.job
      else s.torn fd) = s.torn := by
    funext fd
    split
    next hfd => rw [h fd hfd, Option.toList_none, List.map_nil, List.append_nil]
    next => rfl
  rw [removeWriters, hwriters, htorn]

/-- The hub has no `_write_job` for a pipe that is not active. -/
theorem Sound.removeWriters_eq (h : s.Sound e todo) {fds : Finset ℕ}
    (hfds : ∀ fd ∈ fds, fd ∉ s.activeWrites) : s.removeWriters fds = s :=
  removeWriters_of_idle fun fd hfd => h.writers_eq_none (hfds fd hfd)

/-- Jobs leave the buffer, or change their places there. -/
theorem Sound.setBuffer {jobs : List J} (h : s.Sound e todo) (hnodup : jobs.Nodup)
    (hsubset : jobs ⊆ s.outboundBuffer) :
    ({ s with outboundBuffer := jobs } : Pool J P).Sound e fun j =>
      todo j ∨ j ∈ s.outboundBuffer ∧ j ∉ jobs :=
  { h with
    outbound := hnodup
    queued := fun j hj => h.queued j (hsubset hj)
    buffered := fun j hj => h.buffered j (hsubset hj)
    inqueues := fun fd => (h.inqueues fd).of_subset rfl hsubset rfl rfl rfl rfl
    placed := fun j hj hacc => by
      rcases h.placed j hj hacc with hbuffer | hload | htodo
      · by_cases hmem : j ∈ jobs
        · exact .inl hmem
        · exact .inr (.inr (.inr ⟨hbuffer, hmem⟩))
      · exact .inr (.inl hload)
      · exact .inr (.inr (.inl htodo)) }

/-- Jobs that have been accepted need no place. -/
theorem Sound.of_accepted {todo' : J → Prop} (h : s.Sound e todo')
    (htodo : ∀ j, todo' j → s.accepted j = true ∨ todo j) : s.Sound e todo :=
  { h with
    placed := fun j hj hacc => (h.placed j hj hacc).imp_right (.imp_right fun hj' =>
      (htodo j hj').resolve_left (by rw [hacc]; exact Bool.false_ne_true)) }

/-- **A pipe can be written to.** -/
theorem Sound.visit {sends : List Send} {stop : Bool} (h : s.Sound e todo)
    (hvisit : s.visit e fd sends = some (t, stop)) : t.Sound e todo := by
  rw [Pool.visit] at hvisit
  split at hvisit
  next =>
    obtain rfl := congrArg Prod.fst (Option.some.inj hvisit)
    exact h
  next hactive =>
  split at hvisit
  next =>
    obtain rfl := congrArg Prod.fst (Option.some.inj hvisit)
    exact h
  next hbusy =>
  split at hvisit
  next =>
    obtain rfl := congrArg Prod.fst (Option.some.inj hvisit)
    rw [h.removeWriters_eq fun fd' hfd' => Finset.mem_singleton.mp hfd' ▸ hactive]
    exact h
  next =>
  split at hvisit
  next =>
    obtain rfl := congrArg Prod.fst (Option.some.inj hvisit)
    rw [h.removeWriters_eq fun fd' hfd' => (Finset.mem_sdiff.mp hfd').2]
    exact h
  next job jobs hbuffer =>
    have hnodup : job ∉ jobs ∧ jobs.Nodup := List.nodup_cons.mp (hbuffer ▸ h.outbound)
    have hjob : job ∈ s.outboundBuffer := hbuffer ▸ .head _
    have hpop := h.setBuffer hnodup.2 (hbuffer ▸ List.subset_cons_self ..)
    have htodo : ∀ j, todo j ∨ j ∈ s.outboundBuffer ∧ j ∉ jobs → todo j ∨ j = job := fun j hj =>
      hj.imp_right fun hj => (List.mem_cons.mp (hbuffer ▸ hj.1)).resolve_right hj.2
    dsimp only at hvisit
    split at hvisit
    next haccepted =>
      obtain rfl := congrArg Prod.fst (Option.some.inj hvisit)
      refine hpop.of_accepted fun j hj => (htodo j hj).symm.imp_left ?_
      rintro rfl
      exact haccepted
    next haccepted =>
      have hcache : job ∈ s.cache := (h.queued job hjob).resolve_right haccepted
      split at hvisit
      next =>
        obtain rfl := congrArg Prod.fst (Option.some.inj hvisit)
        have hperm : (jobs ++ [job]).Perm s.outboundBuffer :=
          (List.perm_append_singleton job jobs).trans (.of_eq hbuffer.symm)
        refine (h.setBuffer (hperm.nodup_iff.mpr h.outbound) hperm.subset).mono fun j _ hj => ?_
        exact hj.resolve_right fun hj => hj.2 (hperm.symm.subset hj.1)
      next proc howner =>
        obtain ⟨p, hp, heq⟩ := Option.map_eq_some_iff.mp hvisit
        obtain rfl := congrArg Prod.fst heq
        have hbegin := (hpop.mono fun j _ => htodo j).begin_ howner hactive
          (fun hfair hfd => hbusy ⟨hfair, hfd⟩) hcache hnodup.1
          fun fd' hfd' => ((h.inqueues fd').load job hfd').2.1 hjob
        refine Sound.progress (w := ⟨job, proc, 0, 0, 0⟩)
          (hbegin.mono fun j _ hj => hj.1.resolve_right hj.2) ?_ hp
        exact Function.update_self ..

/-- `schedule_writes`. -/
theorem Sound.scheduleWrites {ready : List (ℕ × List Send)} (h : s.Sound e todo)
    (hready : s.scheduleWrites e ready = some t) : t.Sound e todo := by
  induction ready generalizing s with
  | nil => exact Option.some.inj hready ▸ h
  | cons r ready ih =>
    obtain ⟨u, hu, hrest⟩ := Option.bind_eq_some_iff.mp hready
    have hsound := h.visit hu
    split at hrest
    · exact Option.some.inj hrest ▸ hsound
    · exact ih hsound hrest

end Pool

end AsynPool
end Celery
