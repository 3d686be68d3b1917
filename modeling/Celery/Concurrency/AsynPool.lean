/-
# `celery/concurrency/asynpool.py`: jobs on their way to the pool processes

`send_job` puts jobs into `outbound_buffer`, and `schedule_writes` (lines 804-875) takes them out
again, one for each process whose pipe can be written to.  `_write_job` (lines 897-946) writes the
job behind its length, and is suspended where the pipe is full.  While it is, the pipe is in
`active_writes`, and until the process reports the job, it is in `_busy_workers`.  When processes
exit, the jobs that they were given go back to the buffer (`on_job_process_down`,
`on_partial_read`), and pipes with part of a job in them are replaced.

What follows a call, up to its next `yield`, is told by what each `send_job_offset` in it comes to.
`_join_exited_workers`, which calls `on_job_process_down` for the jobs and then `on_process_down`
for the processes, is `billiard`'s.  Acks for `synack` and the queues that a process writes to are
left out.

As the consumer reconnects it calls `flush` (lines 999-1105), which discards the jobs that are not
accepted, as the broker delivers them again, and ends the writes that were begun.  It is that of a
pool in the state `RUN`, where no process exits that is not joined.
-/

import Celery.Library.Frame
import Mathlib.Data.Finset.Basic
import Mathlib.Data.Finset.Card
import Mathlib.Logic.Function.Basic

namespace Celery
namespace AsynPool

/-! ## Writing a job -/

/-- What `send_job_offset` raises, other than that the pipe is full: `EBADF`, or another error. -/
inductive SendError where
  | badFd
  | other
  deriving DecidableEq

/-- What `send_job_offset` comes to: some bytes were sent, the pipe is full, or it raised. -/
inductive Send where
  | sent (n : ℕ)
  | unavail
  | raised (e : SendError)

/-- The jobs as they are written, the pipes of the processes, and the strategy. -/
structure Env (J P : Type) where
  body : J → List UInt8
  inqW : P → ℕ
  isFairStrategy : Bool

/-- A `_write_job`: `Hw`, `Bw` and `errors`. -/
structure Writing (J P : Type) where
  job : J
  proc : P
  hw : ℕ
  bw : ℕ
  errors : ℕ

/-- How `next(cor)` ends. -/
inductive Status where
  | yielded
  | returned
  | raised (e : SendError)
  | notRecovering
  deriving DecidableEq

/-- A `_write_job` after `next(cor)`, and the bytes that were sent. -/
structure Progress (J P : Type) where
  writing : Writing J P
  bytes : List UInt8
  status : Status

variable {J P : Type}

namespace Writing

variable (e : Env J P)

def header (w : Writing J P) : List UInt8 := toBytes 4 (e.body w.job).length

/-- How many bytes are left of what it is at, the header or the body. -/
def wanted (w : Writing J P) : ℕ :=
  if w.hw < 4 then 4 - w.hw else (e.body w.job).length - w.bw

/-- The bytes that a `send` of `n` bytes takes. -/
def chunk (w : Writing J P) (n : ℕ) : List UInt8 :=
  if w.hw < 4 then ((w.header e).drop w.hw).take n else ((e.body w.job).drop w.bw).take n

def advance (w : Writing J P) (n : ℕ) : Writing J P :=
  if w.hw < 4 then { w with hw := w.hw + n, errors := 0 }
  else { w with bw := w.bw + n, errors := 0 }

def Finished (w : Writing J P) : Prop := 4 ≤ w.hw ∧ (e.body w.job).length ≤ w.bw

instance (w : Writing J P) : Decidable (w.Finished e) := instDecidableAnd

/-- `next(cor)`, if its sends come to these. -/
def next (w : Writing J P) : List Send → Option (Progress J P)
  | [] => none
  | .sent n :: sends =>
    if n ≤ w.wanted e then
      if (w.advance n).Finished e then
        if sends.isEmpty then some ⟨w.advance n, w.chunk e n, .returned⟩ else none
      else
        ((w.advance n).next sends).map fun p => { p with bytes := w.chunk e n ++ p.bytes }
    else none
  | .unavail :: sends =>
    if sends.isEmpty then
      some ⟨{ w with errors := w.errors + 1 }, [],
        if w.errors + 1 > 100 then .notRecovering else .yielded⟩
    else none
  | .raised e :: sends => if sends.isEmpty then some ⟨w, [], .raised e⟩ else none

end Writing

/-! ## The pool -/

/-- The pool.  The last fields are for the theorems: all jobs that were sent, the processes that
have reported that they are up, and for each pipe the jobs that were written to it, those whose
write was broken off, and whether a write was given up, or begun behind one that had been broken
off. -/
structure Pool (J P : Type) where
  cache : List J
  accepted : J → Bool
  terminated : J → Bool
  scheduledFor : J → Option P
  writeTo : J → Option P
  outboundBuffer : List J
  pool : List P
  exited : P → Bool
  dead : P → Bool
  filenoToInq : ℕ → Option P
  allInqueues : Finset ℕ
  activeWrites : Finset ℕ
  busyWorkers : Finset ℕ
  writers : ℕ → Option (Writing J P)
  pipe : ℕ → List UInt8
  sent : List J
  up : P → Bool
  written : ℕ → List J
  torn : ℕ → List J
  givenUp : Finset ℕ
  behind : Finset ℕ

/-- What happens to a pool. -/
inductive Event (J P : Type) where
  | sendJob (job : J)
  | accept (job : J)
  | terminate (job : J)
  | onPollStart (stale : Finset ℕ)
  | scheduleWrites (ready : List (ℕ × List Send))
  | next (fd : ℕ) (sends : List Send)
  | onJobReady (job : J) (fd : ℕ)
  | onProcessUp (proc : P)
  | onProcessAlive (proc : P)
  | exit (proc : P)
  | joinExitedWorkers
  | flush (writes : List (ℕ × List Send))

def Event.isFlush : Event J P → Bool
  | .flush _ => true
  | _ => false

namespace Pool

variable [DecidableEq J] [DecidableEq P] (e : Env J P)

/-- No process yet, and no job. -/
def init : Pool J P where
  cache := []
  accepted _ := false
  terminated _ := false
  scheduledFor _ := none
  writeTo _ := none
  outboundBuffer := []
  pool := []
  exited _ := false
  dead _ := false
  filenoToInq _ := none
  allInqueues := ∅
  activeWrites := ∅
  busyWorkers := ∅
  writers _ := none
  pipe _ := []
  sent := []
  up _ := false
  written _ := []
  torn _ := []
  givenUp := ∅
  behind := ∅

/-- `hub.remove_writer` for some pipes: a `_write_job` that the hub has is not called again. -/
def removeWriters (s : Pool J P) (fds : Finset ℕ) : Pool J P :=
  { s with
    writers := fun fd => if fd ∈ fds then none else s.writers fd
    torn := fun fd =>
      if fd ∈ fds then s.torn fd ++ (s.writers fd).toList.map Writing.job else s.torn fd }

/-- `_put_back`.  A job that is set terminated leaves `_cache`. -/
def putBack (s : Pool J P) (job : J) : Pool J P :=
  if s.terminated job then
    { s with accepted := Function.update s.accepted job true, cache := s.cache.erase job }
  else if job ∈ s.outboundBuffer then s
  else { s with outboundBuffer := job :: s.outboundBuffer }

/-- The `finally` of a `_write_job`, after its last bytes. -/
def endWrite (s : Pool J P) (fd : ℕ) (bytes : List UInt8) : Pool J P :=
  { s with
    pipe := Function.update s.pipe fd (s.pipe fd ++ bytes)
    writers := Function.update s.writers fd none
    activeWrites := s.activeWrites.erase fd }

/-- The pipe is given up in `on_not_recovering`. -/
def giveUp (s : Pool J P) (fd : ℕ) (bytes : List UInt8) : Pool J P :=
  { s.endWrite fd bytes with givenUp := insert fd s.givenUp }

/-- What comes of `next(cor)` for the `_write_job` of a pipe: the hub keeps it, or it ends, maybe
with `on_not_recovering`. -/
def progress (s : Pool J P) (fd : ℕ) (p : Progress J P) : Pool J P :=
  let job := p.writing.job
  let t := s.endWrite fd p.bytes
  match p.status with
  | .yielded =>
    { s with
      pipe := Function.update s.pipe fd (s.pipe fd ++ p.bytes)
      writers := Function.update s.writers fd (some p.writing) }
  | .returned => { t with written := Function.update s.written fd (s.written fd ++ [job]) }
  | .raised _ => { t with torn := Function.update s.torn fd (s.torn fd ++ [job]) }
  | .notRecovering => (s.giveUp fd p.bytes).putBack job

/-- A `_write_job` for a pipe, before the first `next`. -/
def begin_ (s : Pool J P) (fd : ℕ) (proc : P) (job : J) : Pool J P :=
  { s with
    scheduledFor := Function.update s.scheduledFor job (some proc)
    writeTo := Function.update s.writeTo job (some proc)
    activeWrites := insert fd s.activeWrites
    busyWorkers := insert fd s.busyWorkers
    writers := Function.update s.writers fd (some ⟨job, proc, 0, 0, 0⟩)
    behind := if s.torn fd = [] then s.behind else insert fd s.behind }

/-- The body of the loop of `schedule_writes`, and if the loop ends: no jobs are left, or an
exception gets through. -/
def visit (s : Pool J P) (fd : ℕ) (sends : List Send) : Option (Pool J P × Bool) :=
  if fd ∈ s.activeWrites then some (s, false)
  else if e.isFairStrategy ∧ fd ∈ s.busyWorkers then some (s, false)
  else if fd ∉ s.allInqueues then some (s.removeWriters {fd}, false)
  else
    match s.outboundBuffer with
    | [] => some (s.removeWriters (s.allInqueues \ s.activeWrites), true)
    | job :: jobs =>
      let t := { s with outboundBuffer := jobs }
      if s.accepted job then some (t, false)
      else
        match s.filenoToInq fd with
        | none => some ({ t with outboundBuffer := jobs ++ [job] }, false)
        | some proc =>
          (Writing.next e ⟨job, proc, 0, 0, 0⟩ sends).map fun p =>
            ((t.begin_ fd proc job).progress fd p,
              p.status = .raised .other ∨ p.status = .notRecovering)

/-- `schedule_writes`. -/
def scheduleWrites (s : Pool J P) : List (ℕ × List Send) → Option (Pool J P)
  | [] => some s
  | (fd, sends) :: ready =>
    (s.visit e fd sends).bind fun t => if t.2 then some t.1 else t.1.scheduleWrites ready

/-- `send_job`, and its place in `_cache`. -/
def sendJob (s : Pool J P) (job : J) : Pool J P :=
  { s with
    cache := s.cache ++ [job]
    outboundBuffer := s.outboundBuffer ++ [job]
    sent := s.sent ++ [job] }

/-- `on_job_ready`, after which the job leaves `_cache`. -/
def onJobReady (s : Pool J P) (job : J) (fd : ℕ) : Pool J P :=
  { s with busyWorkers := s.busyWorkers.erase fd, cache := s.cache.erase job }

/-- `on_poll_start`, where the hub refuses some stale pipes. -/
def onPollStart (s : Pool J P) (stale : Finset ℕ) : Pool J P :=
  let inactive := s.allInqueues \ s.activeWrites
  let t :=
    if s.outboundBuffer ≠ [] ∧
        (e.isFairStrategy → s.busyWorkers.card < s.allInqueues.card) then s
    else s.removeWriters inactive
  { t with allInqueues := s.allInqueues \ (inactive ∩ stale) }

/-- `on_process_up`: jobs of the process that had the pipe before. -/
def onProcessUp (s : Pool J P) (proc : P) : Pool J P :=
  let moved := fun (old : Option P) =>
    if (old.map e.inqW) = some (e.inqW proc) then some proc else old
  { s with
    pool := s.pool ++ [proc]
    writeTo := fun job => if job ∈ s.cache then moved (s.writeTo job) else s.writeTo job
    scheduledFor := fun job =>
      if job ∈ s.cache then moved (s.scheduledFor job) else s.scheduledFor job }

/-- `on_process_alive`.  Its assertions may fail. -/
def onProcessAlive (s : Pool J P) (proc : P) : Option (Pool J P) :=
  if proc ∉ s.pool then some s
  else if s.filenoToInq (e.inqW proc) ≠ none ∨ e.inqW proc ∈ s.allInqueues then none
  else
    some { s with
      up := Function.update s.up proc true
      filenoToInq := Function.update s.filenoToInq (e.inqW proc) (some proc)
      allInqueues := insert (e.inqW proc) s.allInqueues }

/-- `on_inqueue_close`. -/
def onInqueueClose (s : Pool J P) (fd : ℕ) (proc : P) : Pool J P :=
  let t := { s with busyWorkers := s.busyWorkers.erase fd }
  if s.filenoToInq fd = some proc then
    { t with
      filenoToInq := Function.update s.filenoToInq fd none
      activeWrites := s.activeWrites.erase fd
      allInqueues := s.allInqueues.erase fd }
  else t

/-- `destroy_queues`: the pipe is closed, and a new one may get its number. -/
def destroyQueues (s : Pool J P) (proc : P) : Pool J P :=
  let fd := e.inqW proc
  let t := (s.onInqueueClose fd proc).removeWriters {fd}
  { t with
    pipe := Function.update t.pipe fd []
    written := Function.update t.written fd []
    torn := Function.update t.torn fd []
    givenUp := t.givenUp.erase fd
    behind := t.behind.erase fd }

/-- The queues of a dead process are replaced, to avoid reuse. -/
def replaceQueues (s : Pool J P) (proc : P) : Pool J P :=
  { s with dead := Function.update s.dead proc true }.destroyQueues e proc

/-- `on_partial_read`. -/
def onPartialRead (s : Pool J P) (job : J) (proc : P) : Pool J P :=
  let t := if s.accepted job then s else s.putBack job
  if t.dead proc then t else t.replaceQueues e proc

/-- `on_job_process_down`. -/
def onJobProcessDown (s : Pool J P) (job : J) : Pool J P :=
  match (s.writeTo job).filter s.exited, (s.scheduledFor job).filter s.exited with
  | some proc, _ => s.onPartialRead e job proc
  | none, some _ => s.putBack job
  | none, none => s

/-- `_remove_from_index` for the pipe that jobs are written to. -/
def removeFromIndex (s : Pool J P) (fd : ℕ) (proc : P) : Pool J P :=
  match s.filenoToInq fd with
  | none => s
  | some owner =>
    { s.removeWriters {fd} with
      filenoToInq :=
        if owner = proc then Function.update s.filenoToInq fd none else s.filenoToInq
      allInqueues := s.allInqueues.erase fd }

/-- `on_process_down`. -/
def onProcessDown (s : Pool J P) (proc : P) : Pool J P :=
  if s.dead proc then s
  else
    let t := s.removeFromIndex (e.inqW proc) proc
    { t.removeWriters {e.inqW proc} with
      busyWorkers := t.busyWorkers.erase (e.inqW proc)
      activeWrites := t.activeWrites.erase (e.inqW proc) }

/-- `_join_exited_workers`. -/
def joinExitedWorkers (s : Pool J P) : Pool J P :=
  let t := s.cache.foldl (onJobProcessDown e) s
  let u := (t.pool.filter t.exited).foldl (onProcessDown e) t
  { u with pool := u.pool.filter fun proc => !u.exited proc }

/-- The jobs that were not accepted are discarded in `flush`, and so are those that wait. -/
def discardUnaccepted (s : Pool J P) (buffer : List J) : Pool J P :=
  { s with cache := s.cache.filter s.accepted, outboundBuffer := buffer }

/-- The loop of `flush`, by the pipes that it writes to.  It ends when nothing is being written, or
with an exception that is no `OSError`: the one after a hundred errors, or another one. -/
def flushWriters (s : Pool J P) : List (ℕ × List Send) → Option (Pool J P)
  | [] => if ∀ fd ∈ s.activeWrites, s.writers fd = none then some s else none
  | (fd, sends) :: writes =>
    (s.writers fd).bind fun w => (w.next e sends).bind fun p =>
      let t := s.progress fd p
      match p.status with
      | .notRecovering => if writes.isEmpty then some t else none
      | .raised .other => if writes.isEmpty then some t else t.flushWriters writes
      | _ => t.flushWriters writes

/-- `still_busy`. -/
def stillBusy (s : Pool J P) : List ℕ :=
  (s.cache.filter s.accepted).filterMap fun job =>
    (((s.writeTo job).or (s.scheduledFor job)).filter fun proc => !s.exited proc).map e.inqW

/-- The `finally` of `flush`.  What is still being written is not gone on with. -/
def endFlush (s : Pool J P) : Pool J P :=
  { s.removeWriters s.activeWrites with
    outboundBuffer := []
    activeWrites := ∅
    busyWorkers := s.busyWorkers.filter (· ∈ s.stillBusy e) }

/-- `flush`.  Its later calls of `maintain_pool` do nothing, as no process exits meanwhile. -/
def flush (s : Pool J P) (writes : List (ℕ × List Send)) : Option (Pool J P) :=
  (((s.discardUnaccepted []).joinExitedWorkers e).flushWriters e writes).map (endFlush e)

/-- A job is new, and `pack` takes its size.  A process is new, and its pipe is not another's, it
reports once that it is up, and reports a job that was written to its pipe.  `flush` finds no
process that exited. -/
def step (s : Pool J P) : Event J P → Option (Pool J P)
  | .sendJob job =>
    if job ∉ s.sent ∧ (e.body job).length < 2 ^ 32 then some (s.sendJob job) else none
  | .accept job => some { s with accepted := Function.update s.accepted job true }
  | .terminate job => some { s with terminated := Function.update s.terminated job true }
  | .onPollStart stale => some (s.onPollStart e stale)
  | .scheduleWrites ready => s.scheduleWrites e ready
  | .next fd sends => (s.writers fd).bind fun w => (w.next e sends).map (s.progress fd)
  | .onJobReady job fd =>
    if job ∈ s.cache ∧ job ∈ s.written fd then some (s.onJobReady job fd) else none
  | .onProcessUp proc =>
    if proc ∉ s.pool ∧ s.exited proc = false ∧ e.inqW proc ∉ s.pool.map e.inqW then
      some (s.onProcessUp e proc)
    else none
  | .onProcessAlive proc => if s.up proc then none else s.onProcessAlive e proc
  | .exit proc => some { s with exited := Function.update s.exited proc true }
  | .joinExitedWorkers => some (s.joinExitedWorkers e)
  | .flush writes =>
    if ∀ proc ∈ s.pool, s.exited proc = false then s.flush e writes else none

def run (s : Pool J P) : List (Event J P) → Option (Pool J P)
  | [] => some s
  | event :: events => (s.step e event).bind fun t => t.run events

/-- No `flush` of a run leaves a write broken off. -/
def whole (s : Pool J P) : List (Event J P) → Bool
  | [] => true
  | event :: events => (s.step e event).all fun t =>
      (event.isFlush → ∀ proc ∈ t.pool, t.torn (e.inqW proc) = []) && t.whole events

end Pool
end AsynPool
end Celery
