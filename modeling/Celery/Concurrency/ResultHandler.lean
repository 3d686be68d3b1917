/-
# `celery/concurrency/asynpool.py`: messages from the pool processes

A pool process writes its messages to a pipe, each behind four bytes with its length.  The event
loop calls `on_result_readable` (lines 328-342) when there is something to read, which starts a
`_recv_message` (lines 263-318).  This reads what there is, and is suspended where nothing is left,
to go on when the pipe is readable again.

However the bytes come, in chunks of any length and with any number of suspensions in between,
the messages that are handed on are those whose frames have been read to the end
(`framed_of_run`).  So what a process sent arrives once and in order, each message as soon as its
last byte is read (`delivered_of_run`).

`_billiard.read` is there, so that `readcanbuf` holds.  `_flush_outqueue` and
`process_flush_queues`, which read whole messages as the pool shuts down, are left out.
-/

import Celery.Library.Frame
import Mathlib.Data.List.Basic
import Mathlib.Data.List.Induction
import Mathlib.Data.List.Infix

namespace Celery
namespace ResultHandler

/-- What one `__read__` comes to: some bytes, none at the end of file, or an `OSError`. -/
inductive Read where
  | chunk (bytes : List UInt8)
  | unavail
  | error

/-- The bytes that were read. -/
def Read.bytes : Read → List UInt8
  | .chunk bytes => bytes
  | _ => []

/-- There is something to read, or nothing yet. -/
def Read.Calm : Read → Prop
  | .chunk bytes => bytes ≠ []
  | .unavail => True
  | .error => False

/-- What `_recv_message` raises. -/
inductive RecvError (E : Type) where
  | endOfFile
  | endOfFileDuringMessage
  | osError
  | negativeSize
  | load (e : E)

/-- Where a `_recv_message` is: it has some bytes of the header, or of a body of some size. -/
inductive Reading where
  | header (got : List UInt8)
  | body (size : ℕ) (got : List UInt8)

namespace Reading

/-- What `Hr` or `Br` counts. -/
def got : Reading → List UInt8
  | header got => got
  | body _ got => got

/-- How many bytes it asks for. -/
def wanted : Reading → ℕ
  | header got => 4 - got.length
  | body size got => size - got.length

end Reading

/-- How a `_recv_message` goes on: with another read, by a `yield`, with the whole body, or it
raises. -/
inductive Outcome (E : Type) where
  | more (it : Reading)
  | yielded (it : Reading)
  | complete (body : List UInt8)
  | raised (e : RecvError E)

variable {M E : Type}

/-- `unpack_from('>i', bufv)` and what follows up to the first read of the body. -/
def unpackSize (header : List UInt8) : Outcome E :=
  let size := ofBytes header
  if size < 2 ^ 31 then
    if size = 0 then .complete [] else .more (.body size [])
  else .raised .negativeSize

/-- One `__read__`, up to the next one. -/
def Reading.read (it : Reading) : Read → Outcome E
  | .unavail => .yielded it
  | .error => .raised .osError
  | .chunk [] => .raised (if it.got = [] then .endOfFile else .endOfFileDuringMessage)
  | .chunk (b :: bs) =>
    match it with
    | .header got =>
      if (got ++ (b :: bs)).length < 4 then .more (.header (got ++ (b :: bs)))
      else unpackSize (got ++ (b :: bs))
    | .body size got =>
      if (got ++ (b :: bs)).length < size then .more (.body size (got ++ (b :: bs)))
      else .complete (got ++ (b :: bs))

/-- `next(it)`, if its reads come to these. -/
def Reading.next (it : Reading) : List Read → Option (Outcome E)
  | [] => none
  | r :: reads =>
    if r.bytes.length ≤ it.wanted then
      match it.read r with
      | .more it' => it'.next reads
      | outcome => if reads.isEmpty then some outcome else none
    else none

/-- What the hub calls when the pipe is readable: `handle_event`, a `_recv_message`, or nothing.
An exception may have got through to the hub. -/
inductive Handler (E : Type) where
  | handleEvent
  | coroutine (it : Reading)
  | removed
  | raised (e : RecvError E)

/-- A pipe: what the hub calls for it, and what `on_state_change` was called with. -/
structure Outq (M E : Type) where
  handler : Handler E
  delivered : List M

/-- The pipe is readable, and these are the reads that follow.  The process may be gone. -/
structure Readable where
  present : Bool
  reads : List Read

/-- `load` of `pickle`, its errors that are an `OSError` or an `EOFError`, and the messages that
are true. -/
structure Pickle (M E : Type) where
  load : List UInt8 → Except E M
  isOSError : E → Bool
  truthy : M → Bool

/-- The errors that `on_result_readable` catches: `except (OSError, EOFError)`. -/
def RecvError.caught (p : Pickle M E) : RecvError E → Bool
  | .endOfFile | .endOfFileDuringMessage | .osError => true
  | .negativeSize => false
  | .load e => p.isOSError e

namespace Outq

variable (p : Pickle M E)

def init : Outq M E := ⟨.handleEvent, []⟩

/-- An exception in `on_result_readable`, or in a coroutine that the hub calls. -/
def raise (s : Outq M E) (resumed : Bool) (e : RecvError E) : Outq M E :=
  { s with handler := if e.caught p && !resumed then .removed else .raised e }

/-- What follows a `next` of `_recv_message`, in `on_result_readable` or in the hub. -/
def resolve (s : Outq M E) (resumed : Bool) : Outcome E → Outq M E
  | .more it | .yielded it => { s with handler := .coroutine it }
  | .complete body =>
    match p.load body with
    | .ok message =>
      { handler := .handleEvent
        delivered := if p.truthy message then s.delivered ++ [message] else s.delivered }
    | .error e => s.raise p resumed (.load e)
  | .raised e => s.raise p resumed e

/-- The hub finds the pipe readable. -/
def readable (s : Outq M E) (c : Readable) : Option (Outq M E) :=
  match s.handler with
  | .handleEvent =>
    if c.present then (Reading.header []).next c.reads |>.map (s.resolve p false)
    else if c.reads.isEmpty then some { s with handler := .removed }
    else none
  | .coroutine it => it.next c.reads |>.map (s.resolve p true)
  | .removed | .raised _ => none

/-- The hub finds the pipe readable again and again. -/
def run (s : Outq M E) : List Readable → Option (Outq M E)
  | [] => some s
  | c :: calls => (s.readable p c).bind fun t => t.run calls

end Outq

/-! ## Frames that were read -/

/-- The bytes of the message that a `_recv_message` has. -/
def Reading.bytes : Reading → List UInt8
  | header got => got
  | body size got => toBytes 4 size ++ got

/-- It waits for some more bytes. -/
def Reading.Open : Reading → Prop
  | header got => got.length < 4
  | body size got => got.length < size ∧ size < 2 ^ 31

/-- A header whose size is negative. -/
def Negative (bytes : List UInt8) : Prop := bytes.length = 4 ∧ 2 ^ 31 ≤ ofBytes bytes

/-- What is read by then: less than a frame, or just a frame.  Where the reads are calm, only a
negative size is an error. -/
def Outcome.Holds (calm : Prop) (bytes : List UInt8) : Outcome E → Prop
  | more it | yielded it => it.Open ∧ it.bytes = bytes
  | complete body => bytes = frame 4 body ∧ body.length < 2 ^ 31
  | raised _ => Cut 4 bytes ∧ (calm → Negative bytes)

theorem Reading.Open.cut {it : Reading} (h : it.Open) : Cut 4 it.bytes := by
  cases it with
  | header got => exact .inl h
  | body size got =>
    have hsize : ofBytes (toBytes 4 size) = size :=
      ofBytes_toBytes (Nat.lt_of_lt_of_le h.2 (by decide))
    refine .inr ?_
    rw [Reading.bytes, List.take_left' (length_toBytes 4 size), hsize, List.length_append,
      length_toBytes]
    exact Nat.add_lt_add_left h.1 4

theorem unpackSize_holds {header : List UInt8} (h : header.length = 4) (calm : Prop) :
    (unpackSize header : Outcome E).Holds calm header := by
  have hheader : toBytes 4 (ofBytes header) = header := h ▸ toBytes_ofBytes header
  rw [unpackSize]
  split
  next hlt =>
    split
    next hzero =>
      refine ⟨?_, by decide⟩
      rw [frame, List.length_nil, List.append_nil, ← hzero, hheader]
    next hne =>
      exact ⟨⟨Nat.pos_of_ne_zero hne, hlt⟩, by rw [Reading.bytes, hheader, List.append_nil]⟩
  next hge =>
    refine ⟨.inr ?_, fun _ => ⟨h, Nat.not_lt.mp hge⟩⟩
    rw [List.take_of_length_le h.le]
    omega

/-- Some bytes arrive. -/
theorem Reading.read_chunk {it : Reading} (h : it.Open) {b : UInt8} {bs : List UInt8}
    (hwanted : (b :: bs).length ≤ it.wanted) (calm : Prop) :
    (it.read (.chunk (b :: bs)) : Outcome E).Holds calm (it.bytes ++ (b :: bs)) := by
  cases it with
  | header got =>
    rw [Reading.read]
    split
    next hlt => exact ⟨hlt, rfl⟩
    next hge =>
      have hlength : (got ++ (b :: bs)).length = 4 := by
        rw [Reading.wanted] at hwanted
        rw [List.length_append] at hge ⊢
        have hopen : got.length < 4 := h
        omega
      exact unpackSize_holds hlength calm
  | body size got =>
    have hopen : got.length < size ∧ size < 2 ^ 31 := h
    rw [Reading.read]
    split
    next hlt => exact ⟨⟨hlt, hopen.2⟩, (List.append_assoc ..).symm⟩
    next hge =>
      have hlength : (got ++ (b :: bs)).length = size := by
        rw [Reading.wanted] at hwanted
        rw [List.length_append] at hge ⊢
        omega
      exact ⟨by rw [Reading.bytes, frame, hlength, List.append_assoc], hlength ▸ hopen.2⟩

/-- **One read.** -/
theorem Reading.read_holds {it : Reading} (h : it.Open) {r : Read}
    (hwanted : r.bytes.length ≤ it.wanted) :
    (it.read r : Outcome E).Holds r.Calm (it.bytes ++ r.bytes) := by
  cases r with
  | unavail => exact ⟨h, (List.append_nil _).symm⟩
  | error => exact ⟨(List.append_nil it.bytes).symm ▸ h.cut, False.elim⟩
  | chunk bytes =>
    cases bytes with
    | nil => exact ⟨(List.append_nil it.bytes).symm ▸ h.cut, fun hcalm => absurd rfl hcalm⟩
    | cons b bs => exact read_chunk h hwanted _

theorem Outcome.Holds.mono {calm calm' : Prop} {bytes : List UInt8} {o : Outcome E}
    (h : o.Holds calm bytes) (hcalm : calm' → calm) : o.Holds calm' bytes := by
  cases o with
  | more it => exact h
  | yielded it => exact h
  | complete body => exact h
  | raised e => exact ⟨h.1, fun hc => h.2 (hcalm hc)⟩

/-- **Reads up to a `yield`, the end or an exception.** -/
theorem Reading.next_holds {it : Reading} (h : it.Open) {reads : List Read} {o : Outcome E}
    (hnext : it.next reads = some o) :
    o.Holds (∀ r ∈ reads, r.Calm) (it.bytes ++ reads.flatMap Read.bytes) := by
  induction reads generalizing it with
  | nil => cases hnext
  | cons r reads ih =>
    rw [Reading.next] at hnext
    split at hnext
    next hwanted =>
      have hread : (it.read r : Outcome E).Holds r.Calm (it.bytes ++ r.bytes) :=
        read_holds h hwanted
      rw [List.flatMap_cons, ← List.append_assoc]
      split at hnext
      next it' heq =>
        rw [heq] at hread
        rw [← hread.2]
        exact (ih hread.1 hnext).mono fun hcalm r' hr' => hcalm r' (.tail _ hr')
      next =>
        split at hnext
        next hreads =>
          obtain rfl := List.isEmpty_iff.mp hreads
          rw [← Option.some.inj hnext, List.flatMap_nil, List.append_nil]
          exact hread.mono fun hcalm => hcalm r (.head _)
        next => cases hnext
    next => cases hnext

/-! ## Messages of a run -/

/-- What the handler has of a frame. -/
def Handler.Rest (calm : Prop) (rest : List UInt8) : Handler E → Prop
  | handleEvent => rest = []
  | coroutine it => it.Open ∧ it.bytes = rest
  | removed | raised _ => Cut 4 rest ∧ (calm → Negative rest)

/-- The pipe is read from. -/
def Handler.Live : Handler E → Prop
  | handleEvent | coroutine _ => True
  | removed | raised _ => False

theorem Handler.Rest.cut {calm : Prop} {rest : List UInt8} {handler : Handler E}
    (h : handler.Rest calm rest) : Cut 4 rest := by
  cases handler with
  | handleEvent => exact (show rest = [] from h) ▸ cut_nil (by decide)
  | coroutine it => exact h.2 ▸ h.1.cut
  | removed => exact h.1
  | raised e => exact h.1

theorem Handler.Rest.live {calm : Prop} {rest : List UInt8} {handler : Handler E}
    (h : handler.Rest calm rest) (hcalm : calm) (hrest : ¬ Negative rest) : handler.Live := by
  cases handler with
  | handleEvent => trivial
  | coroutine it => trivial
  | removed => exact hrest (h.2 hcalm)
  | raised e => exact hrest (h.2 hcalm)

/-- The sizes of the frames that were sent are not negative. -/
theorem not_negative_of_le {bodies : List (List UInt8)} {rest : List UInt8}
    (hlength : ∀ b ∈ bodies, b.length < 2 ^ 31) (h : rest <+: stream 4 bodies) :
    ¬ Negative rest := by
  rintro ⟨hfour, hnegative⟩
  cases bodies with
  | nil =>
    rw [stream_nil, List.prefix_nil] at h
    rw [h] at hfour
    cases hfour
  | cons b bodies =>
    have hb : b.length < 2 ^ 31 := hlength b (.head _)
    have hrest : rest = toBytes 4 b.length := by
      rw [stream_cons, frame, List.append_assoc] at h
      rw [List.prefix_iff_eq_take.mp h, hfour, List.take_left' (length_toBytes 4 _)]
    rw [hrest, ofBytes_toBytes (Nat.lt_of_lt_of_le hb (by decide))] at hnegative
    omega

/-- The bytes that are read in a call. -/
def Readable.bytes (c : Readable) : List UInt8 := c.reads.flatMap Read.bytes

/-- The process is there, and so is what it writes. -/
def Readable.Calm (c : Readable) : Prop := c.present ∧ ∀ r ∈ c.reads, r.Calm

namespace Outq

variable {p : Pickle M E} {s t : Outq M E} {bytes : List UInt8} {bodies : List (List UInt8)}
  {calm : Prop}

/-- What is handed on of a body. -/
def message (p : Pickle M E) (body : List UInt8) : Option M :=
  match p.load body with
  | .ok message => if p.truthy message then some message else none
  | .error _ => none

/-- The bodies can be loaded. -/
def Loads (p : Pickle M E) (bodies : List (List UInt8)) : Prop :=
  ∀ b ∈ bodies, ∃ message, p.load b = .ok message

/-- What was read is frames with these bodies, of which the messages were handed on, and what the
handler has of the next one. -/
structure Framed (p : Pickle M E) (calm : Prop) (s : Outq M E) (bytes : List UInt8)
    (bodies : List (List UInt8)) : Prop where
  length : ∀ b ∈ bodies, b.length < 2 ^ 31
  delivered : s.delivered = bodies.filterMap (message p)
  rest : ∃ rest, bytes = stream 4 bodies ++ rest ∧ s.handler.Rest (calm ∧ Loads p bodies) rest

theorem raise_rest {rest : List UInt8} (resumed : Bool) (e : RecvError E)
    (h : Cut 4 rest ∧ (calm → Negative rest)) : (s.raise p resumed e).handler.Rest calm rest := by
  rw [raise]
  split <;> exact h

theorem resolve_framed {rest : List UInt8} {o : Outcome E} (resumed : Bool)
    (hlength : ∀ b ∈ bodies, b.length < 2 ^ 31)
    (hdelivered : s.delivered = bodies.filterMap (message p))
    (hbytes : bytes = stream 4 bodies ++ rest) (ho : o.Holds calm rest) :
    ∃ bodies', Framed p calm (s.resolve p resumed o) bytes bodies' := by
  cases o with
  | more it => exact ⟨bodies, hlength, hdelivered, rest, hbytes, ho⟩
  | yielded it => exact ⟨bodies, hlength, hdelivered, rest, hbytes, ho⟩
  | raised e =>
    exact ⟨bodies, hlength, hdelivered, rest, hbytes,
      raise_rest resumed e ⟨ho.1, fun h => ho.2 h.1⟩⟩
  | complete body =>
    have hlength' : ∀ b ∈ bodies ++ [body], b.length < 2 ^ 31 := fun b hb =>
      (List.mem_append.mp hb).elim (hlength b) fun hb => List.mem_singleton.mp hb ▸ ho.2
    have hbytes' : bytes = stream 4 (bodies ++ [body]) ++ [] := by
      rw [stream_append_singleton, List.append_nil, hbytes, ho.1]
    have hmessages : (bodies ++ [body]).filterMap (message p) =
        s.delivered ++ (message p body).toList := by
      rw [List.filterMap_append, ← hdelivered, List.filterMap_cons]
      cases message p body <;> rfl
    refine ⟨bodies ++ [body], hlength', ?_, [], hbytes', ?_⟩
    · rw [hmessages, resolve, message]
      cases p.load body with
      | ok m =>
        dsimp only
        split
        · rfl
        · exact (List.append_nil _).symm
      | error e => exact (List.append_nil _).symm
    · rw [resolve]
      cases hload : p.load body with
      | ok m => rfl
      | error e =>
        refine raise_rest resumed _ ⟨cut_nil (by decide), fun h => ?_⟩
        obtain ⟨m, hm⟩ := h.2 body (List.mem_append_right _ (.head _))
        rw [hload] at hm
        cases hm

/-- **One call.** -/
theorem readable_framed (h : Framed p calm s bytes bodies) {c : Readable}
    (hc : s.readable p c = some t) :
    ∃ bodies', Framed p (calm ∧ c.Calm) t (bytes ++ c.bytes) bodies' := by
  obtain ⟨hlength, hdelivered, rest, hbytes, hrest⟩ := h
  have hbytes' : bytes ++ c.bytes = stream 4 bodies ++ (rest ++ c.bytes) := by
    rw [hbytes, List.append_assoc]
  rw [readable] at hc
  split at hc
  next heq =>
    rw [heq] at hrest
    obtain rfl : rest = [] := hrest
    split at hc
    next hpresent =>
      obtain ⟨o, ho, rfl⟩ := Option.map_eq_some_iff.mp hc
      have hopen : (Reading.header []).Open := Nat.zero_lt_succ 3
      exact resolve_framed false hlength hdelivered hbytes'
        ((Reading.next_holds hopen ho).mono fun hcalm => hcalm.2.2)
    next hpresent =>
      split at hc
      next hreads =>
        have hnone : c.bytes = [] := by rw [Readable.bytes, List.isEmpty_iff.mp hreads]; rfl
        obtain rfl := Option.some.inj hc
        refine ⟨bodies, hlength, hdelivered, [], by rw [hbytes', hnone]; rfl, cut_nil (by decide),
          fun hcalm => absurd hcalm.1.2.1 hpresent⟩
      next => cases hc
  next it heq =>
    rw [heq] at hrest
    obtain ⟨o, ho, rfl⟩ := Option.map_eq_some_iff.mp hc
    have hnext := Reading.next_holds hrest.1 ho
    rw [hrest.2] at hnext
    exact resolve_framed true hlength hdelivered hbytes' (hnext.mono fun hcalm => hcalm.2.2)
  next => cases hc
  next => cases hc

theorem run_framed {calls : List Readable} (h : Framed p calm s bytes bodies)
    (hrun : s.run p calls = some t) :
    ∃ bodies', Framed p (calm ∧ ∀ c ∈ calls, c.Calm) t (bytes ++ calls.flatMap Readable.bytes)
      bodies' := by
  induction calls generalizing s calm bytes bodies with
  | nil =>
    obtain rfl := Option.some.inj hrun
    obtain ⟨hlength, hdelivered, rest, hbytes, hrest⟩ := h
    refine ⟨bodies, hlength, hdelivered, rest, (List.append_nil bytes).trans hbytes, ?_⟩
    have hcalm : (calm ∧ ∀ c ∈ ([] : List Readable), c.Calm) = calm := by simp
    rwa [hcalm]
  | cons c calls ih =>
    obtain ⟨u, hu, hrun⟩ := Option.bind_eq_some_iff.mp hrun
    obtain ⟨_, hframed⟩ := readable_framed h hu
    obtain ⟨bodies', hframed⟩ := ih hframed hrun
    rw [List.flatMap_cons, ← List.append_assoc]
    refine ⟨bodies', ?_⟩
    have hcalm : (calm ∧ ∀ c' ∈ c :: calls, c'.Calm) =
        ((calm ∧ c.Calm) ∧ ∀ c' ∈ calls, c'.Calm) := by simp [and_assoc]
    rwa [hcalm]

/-- **A message is handed on where its frame is read.** -/
theorem framed_of_run {calls : List Readable} (hrun : init.run p calls = some s) :
    ∃ bodies, Framed p (∀ c ∈ calls, c.Calm) s (calls.flatMap Readable.bytes) bodies := by
  have hinit : Framed p True init [] [] := ⟨by simp, rfl, [], rfl, rfl⟩
  have h := run_framed hinit hrun
  rwa [true_and, List.nil_append] at h

/-- **What a process sends arrives.**  However its bytes come, a message is handed on once its
last byte is read, in the order in which they were sent, and the pipe is read from until the
process or its end of the pipe is gone. -/
theorem delivered_of_run {sent : List M} {dumps : M → List UInt8} {calls : List Readable}
    (hsent : ∀ m ∈ sent, p.load (dumps m) = .ok m ∧ p.truthy m ∧ (dumps m).length < 2 ^ 31)
    (hbytes : calls.flatMap Readable.bytes <+: stream 4 (sent.map dumps))
    (hrun : init.run p calls = some s) :
    ∃ n, s.delivered = sent.take n ∧
      (∀ k ≤ sent.length,
        stream 4 ((sent.take k).map dumps) <+: calls.flatMap Readable.bytes ↔ k ≤ n) ∧
      ((∀ c ∈ calls, c.Calm) → s.handler.Live) := by
  obtain ⟨bodies, hlength, hdelivered, rest, heq, hrest⟩ := framed_of_run hrun
  have hsizes : ∀ b ∈ sent.map dumps, b.length < 256 ^ 4 := fun b hb => by
    obtain ⟨m, hm, rfl⟩ := List.mem_map.mp hb
    exact Nat.lt_of_lt_of_le (hsent m hm).2.2 (by decide)
  have hsizes' : ∀ b ∈ bodies, b.length < 256 ^ 4 := fun b hb =>
    Nat.lt_of_lt_of_le (hlength b hb) (by decide)
  have hprefix_ : bodies <+: sent.map dumps := by
    refine le_of_stream_le hsizes' hsizes (cut_nil (by decide)) ?_
    rw [List.append_nil]
    exact (heq ▸ List.prefix_append ..).trans hbytes
  have htake : bodies = (sent.take bodies.length).map dumps := by
    rw [List.map_take]
    exact List.prefix_iff_eq_take.mp hprefix_
  have hle : bodies.length ≤ sent.length := by
    rw [← List.length_map (f := dumps)]
    exact hprefix_.length_le
  refine ⟨bodies.length, ?_, fun k hk => ⟨fun h => ?_, fun h => ?_⟩, fun hcalm => ?_⟩
  · rw [hdelivered, htake, List.filterMap_map, List.length_map, List.length_take,
      Nat.min_eq_left hle]
    have hloads : ∀ m ∈ sent.take bodies.length, (message p ∘ dumps) m = some m := fun m hm => by
      obtain ⟨hload, htruthy, -⟩ := hsent m (List.mem_of_mem_take hm)
      rw [Function.comp_apply, message, hload]
      exact if_pos htruthy
    rw [List.filterMap_congr hloads, List.filterMap_some]
  · have h' := le_of_stream_le (fun b hb => hsizes b ?_) hsizes' hrest.cut (heq ▸ h)
    · have := h'.length_le
      rwa [List.length_map, List.length_take, Nat.min_eq_left hk] at this
    · rw [List.map_take] at hb
      exact List.mem_of_mem_take hb
  · rw [heq, htake]
    refine (stream_mono 4 ?_).trans (List.prefix_append ..)
    exact (List.take_prefix_take_left h).map dumps
  · refine hrest.live ⟨hcalm, fun b hb => ?_⟩ fun hneg => ?_
    · obtain ⟨m, hm, rfl⟩ := List.mem_map.mp (hprefix_.subset hb)
      exact ⟨m, (hsent m hm).1⟩
    · obtain ⟨more, hmore⟩ := hprefix_
      rw [heq, ← hmore, stream_append, List.prefix_append_right_inj] at hbytes
      refine not_negative_of_le (fun b hb => ?_) hbytes hneg
      obtain ⟨m, hm, rfl⟩ := List.mem_map.mp (hmore ▸ List.mem_append_right bodies hb)
      exact (hsent m hm).2.2

/-- A message in three pieces, its header among them, and the first half of the next header. -/
def pieces : List Readable :=
  [⟨true, [.chunk [0, 0], .unavail]⟩, ⟨true, [.chunk [0, 2], .chunk [7], .unavail]⟩,
    ⟨true, [.chunk [8]]⟩, ⟨true, [.chunk [0, 0], .unavail]⟩]

/-- Two messages. -/
def two : List (List UInt8) := [[7, 8], [9]]

theorem delivered_of_pieces :
    ∃ n, [[7, 8]] = two.take n ∧
      (∀ k ≤ 2, stream 4 ((two.take k).map id) <+: pieces.flatMap Readable.bytes ↔ k ≤ n) ∧
      ((∀ c ∈ pieces, c.Calm) → (Handler.coroutine (.header [0, 0]) : Handler Unit).Live) :=
  let p : Pickle (List UInt8) Unit := ⟨.ok, fun _ => false, fun _ => true⟩
  have hsent : ∀ m ∈ two, p.load (id m) = .ok m ∧ p.truthy m ∧ (id m).length < 2 ^ 31 :=
    fun m hm => ⟨rfl, rfl, (by decide : ∀ m ∈ two, m.length < 2 ^ 31) m hm⟩
  have hrun : init.run p pieces = some ⟨.coroutine (.header [0, 0]), [[7, 8]]⟩ := rfl
  delivered_of_run hsent (by decide) hrun

end Outq

end ResultHandler
end Celery
