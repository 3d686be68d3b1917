/-
# `celery/platforms.py`: pidfiles

`create_pidlock` and `Pidfile` (lines 134–279), for processes that start, exit and crash at any
time.  A process that finds a pidfile reads the pid in it, removes the file if no process has that
pid, creates a file of its own, writes its pid, and reads the file once more.  Each of these is a
step of its own, so that any two processes can interleave anywhere between them.

Reading and removing are different steps, and what is removed may be another file than the one that
was read.  As long as this does not happen, and no process releases the lock twice, as a worker
does in `on_stopped` and once more at exit, at most one process holds the lock, and the pidfile has
its pid (`guarded_of_run`).  That the file is read once more is needed for this: another process may
have removed it as a broken one before the pid was written.  A process that runs alone takes the
lock exactly if no other one that is running, and that it may send a signal to, has the pid in the
pidfile (`alone_eq`).

A file is read at the moment it is opened, and is only written by `write_pid`.
-/

import Celery.Library.Transition
import Mathlib.Logic.Function.Basic
import Mathlib.Tactic.Common

namespace Celery
namespace Platforms

open Transition

/-- How far a process is in `create_pidlock`, by what it does next. -/
inductive Stage where
  | idle
  /-- `is_locked`. -/
  | begun
  /-- `read_pid`. -/
  | found
  /-- `os.kill`, with the pid that was read. -/
  | read (pid : ℕ)
  /-- `remove`. -/
  | stale
  /-- `os.open` in `write_pid`. -/
  | unlocked
  /-- `pidfile.write`. -/
  | opened
  /-- `rfh.read`. -/
  | wrote
  | held
  /-- `SystemExit`. -/
  | refused
  /-- `LockFailed`. -/
  | failed
  | released
  | exited
  deriving DecidableEq

section Model

variable {ι : Type} [DecidableEq ι]

/-- What the system says of the processes: their pids, whom they may send a signal to, and
whether they may remove a file. -/
structure Env (ι : Type) where
  pid : ι → ℕ
  pid_pos : ∀ i, 0 < pid i
  mayKill : ι → ι → Bool
  mayUnlink : ι → Bool

/-- The processes and the file.  A process creates one file at most, so `path` is the process that
has created the one that is there, and `written` tells of each file whether the pid is in it. -/
structure Sys (ι : Type) where
  running : List ι
  stage : ι → Stage
  path : Option ι
  written : ι → Bool

/-- What a process does. -/
inductive Action (ι : Type) where
  | start (i : ι)
  | isLocked (i : ι)
  | readPid (i : ι)
  | kill (i : ι)
  | remove (i : ι)
  | open_ (i : ι)
  | write (i : ι)
  | reread (i : ι)
  | release (i : ι)
  | exit (i : ι)

/-- Nothing has started, and there is no file. -/
def Sys.init : Sys ι where
  running := []
  stage _ := .idle
  path := none
  written _ := false

/-- A process gets somewhere. -/
def Sys.move (s : Sys ι) (i : ι) (p : Stage) : Sys ι :=
  { s with stage := Function.update s.stage i p }

variable (e : Env ι)

/-- `os.kill(pid, 0)` raises nothing.  `EPERM` is taken for `ESRCH`. -/
def Sys.answers (s : Sys ι) (i : ι) (pid : ℕ) : Bool :=
  s.running.any fun j => e.pid j == pid && e.mayKill i j

/-- `read_pid`, as `remove_if_stale` calls it.  Where the file is gone it returns `None`, and where
there is no line in it it raises a `ValueError`. -/
def Sys.readPid (s : Sys ι) (i : ι) : Stage :=
  match s.path with
  | none => .stale
  | some j =>
    if s.written j then if e.pid j = e.pid i then .stale else .read (e.pid j) else .stale

/-- `Pidfile.remove`, of whatever file is there. -/
def Sys.remove (s : Sys ι) (i : ι) : Sys ι :=
  if e.mayUnlink i then { s with path := none } else s

/-- The file that is there has the pid of the process in it. -/
def Sys.rereads (s : Sys ι) (i : ι) : Bool :=
  s.path.any fun j => s.written j && e.pid j == e.pid i

/-- **The steps of `create_pidlock`**, and those around it.  No two processes that are running
have the same pid. -/
def step (s : Sys ι) : Action ι → Option (Sys ι)
  | .start i =>
    if s.stage i = .idle ∧ ∀ j ∈ s.running, e.pid j ≠ e.pid i then
      some { s.move i .begun with running := i :: s.running }
    else none
  | .isLocked i =>
    if s.stage i = .begun then some (s.move i (if s.path.isSome then .found else .unlocked))
    else none
  | .readPid i => if s.stage i = .found then some (s.move i (s.readPid e i)) else none
  | .kill i =>
    match s.stage i with
    | .read pid => some (s.move i (if s.answers e i pid then .refused else .stale))
    | _ => none
  | .remove i => if s.stage i = .stale then some ((s.remove e i).move i .unlocked) else none
  | .open_ i =>
    if s.stage i = .unlocked then
      some (if s.path.isSome then s.move i .failed else { s.move i .opened with path := some i })
    else none
  | .write i =>
    if s.stage i = .opened then
      some { s.move i .wrote with written := Function.update s.written i true }
    else none
  | .reread i =>
    if s.stage i = .wrote then some (s.move i (if s.rereads e i then .held else .failed))
    else none
  | .release i =>
    if s.stage i = .held ∨ s.stage i = .released then some ((s.remove e i).move i .released)
    else none
  | .exit i =>
    if i ∈ s.running then
      some { s.move i .exited with running := s.running.filter (· ≠ i) }
    else none

/-! ## Who holds the lock -/

/-- `remove_if_stale` would remove the file that is there. -/
def Sys.isStale (s : Sys ι) (i : ι) : Bool :=
  match s.readPid e i with
  | .read pid => !s.answers e i pid
  | _ => true

/-- What is removed is still stale, and who releases the lock holds it. -/
def Sys.timely (s : Sys ι) : Action ι → Bool
  | .remove i => s.isStale e i
  | .release i => s.stage i == .held
  | _ => true

/-- The steps that are timely. -/
def timelyStep (s : Sys ι) (a : Action ι) : Option (Sys ι) :=
  if s.timely e a then step e s a else none

/-- **The lock is guarded**: who holds it has the file that is there, with its pid. -/
def Sys.Guarded (s : Sys ι) : Prop := ∀ i, s.stage i = .held → s.path = some i ∧ s.written i

/-- The process has created a file and not given it up. -/
def Stage.HasFile (p : Stage) : Prop := p = .opened ∨ p = .wrote ∨ p = .held

instance : DecidablePred Stage.HasFile := fun p =>
  inferInstanceAs (Decidable (p = .opened ∨ p = .wrote ∨ p = .held))

/-- What holds of a process that is at `p`. -/
structure Sys.Fine (s : Sys ι) (i : ι) (p : Stage) : Prop where
  running : p ≠ .idle → p ≠ .exited → i ∈ s.running
  written : p = .wrote ∨ p = .held → s.written i
  own : p.HasFile → ∀ j, s.path = some j → e.pid j = e.pid i → j = i
  held : p = .held → s.path = some i

/-- What holds of the processes and the file. -/
structure Sys.Sound (s : Sys ι) : Prop where
  distinct : ∀ i ∈ s.running, ∀ j ∈ s.running, e.pid i = e.pid j → i = j
  fine : ∀ i, s.Fine e i (s.stage i)

variable {e} {s t : Sys ι} {i j : ι}

theorem Sys.stage_move_self (p : Stage) : (s.move i p).stage i = p := Function.update_self ..

omit [DecidableEq ι] in
theorem Sys.not_hasFile_readPid : ¬ (s.readPid e i).HasFile := by
  rw [Sys.readPid]
  split
  · decide
  split
  · split
    · decide
    · rintro (h | h | h) <;> cases h
  · decide

omit [DecidableEq ι] in
theorem Sys.readPid_eq (h : s.path = some j) : s.readPid e i =
    if s.written j = true ∧ e.pid j ≠ e.pid i then .read (e.pid j) else .stale := by
  rw [Sys.readPid, h]
  by_cases hwritten : s.written j = true <;> by_cases hpid : e.pid j = e.pid i <;>
    simp [hwritten, hpid]

omit [DecidableEq ι] in
theorem Sys.sound_init : (Sys.init : Sys ι).Sound e where
  distinct i hi := absurd hi List.not_mem_nil
  fine i := by
    show Sys.Fine e Sys.init i .idle
    exact ⟨fun h => absurd rfl h, fun h => absurd h (by decide), fun h => absurd h (by decide),
      fun h => absurd h (by decide)⟩

namespace Sys.Sound

/-- A step that one process takes. -/
theorem of_step {p : Stage} (h : s.Sound e) (hstage : t.stage = Function.update s.stage i p)
    (hdistinct : ∀ j ∈ t.running, ∀ k ∈ t.running, e.pid j = e.pid k → j = k)
    (hi : t.Fine e i p) (hne : ∀ j ≠ i, s.Fine e j (s.stage j) → t.Fine e j (s.stage j)) :
    t.Sound e := by
  refine ⟨hdistinct, fun j => ?_⟩
  rw [hstage]
  by_cases hj : j = i
  · subst hj
    rwa [Function.update_self]
  · rw [Function.update_of_ne hj]
    exact hne j hj (h.fine j)

/-- A step that leaves the file as it is. -/
theorem move {p : Stage} (h : s.Sound e) (hi : s.Fine e i p) : (s.move i p).Sound e :=
  h.of_step rfl h.distinct ⟨hi.running, hi.written, hi.own, hi.held⟩
    fun _ _ hj => ⟨hj.running, hj.written, hj.own, hj.held⟩

omit [DecidableEq ι] in
/-- A process that has no file. -/
theorem fine_of_not_hasFile {p : Stage} (hi : i ∈ s.running) (hp : ¬ p.HasFile) :
    s.Fine e i p where
  running _ _ := hi
  written h := absurd (.inr h) hp
  own h := absurd h hp
  held h := absurd (.inr (.inr h)) hp

omit [DecidableEq ι] in
/-- Who is somewhere is running. -/
theorem mem_running (h : s.Sound e) {p : Stage} (hi : s.stage i = p) (hidle : p ≠ .idle)
    (hexited : p ≠ .exited) : i ∈ s.running := by
  subst hi
  exact (h.fine i).running hidle hexited

omit [DecidableEq ι] in
/-- **The file of a holder is not stale** to others, who may send a signal to it. -/
theorem not_held_of_isStale (h : s.Sound e) (hkill : ∀ i j, e.mayKill i j = true)
    (hi : i ∈ s.running) (hstale : s.isStale e i = true) (hj : j ≠ i) : s.stage j ≠ .held := by
  intro hheld
  have hrun : j ∈ s.running := h.mem_running hheld (by decide) (by decide)
  have hpath := (h.fine j).held hheld
  have hwritten := (h.fine j).written (.inr hheld)
  have hpid : e.pid j ≠ e.pid i := fun heq => hj (h.distinct j hrun i hi heq)
  have hread : s.readPid e i = .read (e.pid j) := by
    rw [Sys.readPid_eq hpath, if_pos ⟨hwritten, hpid⟩]
  have hanswers : s.answers e i (e.pid j) = true := by
    rw [Sys.answers, List.any_eq_true]
    exact ⟨j, hrun, by rw [hkill, beq_self_eq_true]; rfl⟩
  rw [Sys.isStale, hread] at hstale
  dsimp only at hstale
  rw [hanswers] at hstale
  exact absurd hstale (by decide)

/-- A file is removed, and no other process holds the lock. -/
theorem remove {p : Stage} (h : s.Sound e) (hi : i ∈ s.running) (hp : ¬ p.HasFile)
    (hothers : ∀ j ≠ i, s.stage j ≠ .held) : ((s.remove e i).move i p).Sound e := by
  rw [Sys.remove]
  split
  · refine h.of_step rfl h.distinct (fine_of_not_hasFile hi hp) fun j hj hfine => ?_
    exact ⟨hfine.running, hfine.written, fun _ _ hpath => absurd hpath (by simp [Sys.move]),
      fun hheld => absurd hheld (hothers j hj)⟩
  · exact h.move (fine_of_not_hasFile hi hp)

/-- A file is created where there is none. -/
theorem create (h : s.Sound e) (hi : i ∈ s.running) (hpath : s.path = none) :
    ({ s.move i .opened with path := some i } : Sys ι).Sound e := by
  refine h.of_step rfl h.distinct ⟨fun _ _ => hi, fun hp => absurd hp (by decide),
    fun _ j hj _ => ?_, fun hp => absurd hp (by decide)⟩ fun j hj hfine => ?_
  · exact (Option.some_inj.mp hj).symm
  · refine ⟨hfine.running, hfine.written, fun hfile k hk hpid => ?_, fun hheld => ?_⟩
    · have hrun : j ∈ s.running := by
        refine hfine.running ?_ ?_ <;> rintro hp <;> rw [hp] at hfile <;>
          rcases hfile with hp | hp | hp <;> exact absurd hp (by decide)
      obtain rfl : i = k := Option.some_inj.mp hk
      exact absurd (h.distinct j hrun i hi hpid.symm) hj
    · exact absurd ((hfine.held hheld).symm.trans hpath) (by simp)

/-- The pid is written. -/
theorem write (h : s.Sound e) (hi : s.stage i = .opened) :
    ({ s.move i .wrote with written := Function.update s.written i true } : Sys ι).Sound e := by
  have hrun : i ∈ s.running := h.mem_running hi (by decide) (by decide)
  refine h.of_step rfl h.distinct ⟨fun _ _ => hrun, fun _ => ?_, fun _ => ?_, ?_⟩
    fun j hj hfine => ⟨hfine.running, fun hp => ?_, hfine.own, hfine.held⟩
  · show Function.update s.written i true i = true
    rw [Function.update_self]
  · exact (h.fine i).own (.inl hi)
  · exact fun hp => absurd hp (by decide)
  · show Function.update s.written i true j = true
    rw [Function.update_of_ne hj]
    exact hfine.written hp

omit [DecidableEq ι] in
/-- **Who reads its own pid has its own file.** -/
theorem path_of_rereads (h : s.Sound e) (hi : s.stage i = .wrote) (hread : s.rereads e i = true) :
    s.path = some i := by
  obtain ⟨j, hj, hpid⟩ := (Option.any_eq_true _ _).mp hread
  rw [Bool.and_eq_true, beq_iff_eq] at hpid
  obtain rfl := (h.fine i).own (.inr (.inl hi)) j hj hpid.2
  exact hj

end Sys.Sound

theorem timelyStep_eq_some {a : Action ι} :
    timelyStep e s a = some t ↔ s.timely e a = true ∧ step e s a = some t :=
  Option.ite_none_right_eq_some

/-- **What a timely step keeps.** -/
theorem Sys.Sound.preserved (hkill : ∀ i j, e.mayKill i j = true) (h : s.Sound e) {a : Action ι}
    (hstep : timelyStep e s a = some t) : t.Sound e := by
  obtain ⟨htimely, hstep⟩ := timelyStep_eq_some.mp hstep
  rcases a with i | i | i | i | i | i | i | i | i | i <;>
    simp only [step, Option.ite_none_right_eq_some, Option.some_inj] at hstep
  case start =>
    obtain ⟨⟨-, hpid⟩, rfl⟩ := hstep
    refine h.of_step rfl (fun j hj k hk heq => ?_) ?_ fun j _ hfine => ?_
    · rcases List.mem_cons.mp hj with hji | hj' <;> rcases List.mem_cons.mp hk with hki | hk'
      · exact hji.trans hki.symm
      · exact absurd (hji ▸ heq).symm (hpid k hk')
      · exact absurd (hki ▸ heq) (hpid j hj')
      · exact h.distinct j hj' k hk' heq
    · exact Sys.Sound.fine_of_not_hasFile List.mem_cons_self (by decide)
    · exact ⟨fun hidle hexited => List.mem_cons_of_mem _ (hfine.running hidle hexited),
        hfine.written, hfine.own, hfine.held⟩
  case isLocked =>
    obtain ⟨hi, rfl⟩ := hstep
    have hrun := h.mem_running hi (by decide) (by decide)
    refine h.move (Sys.Sound.fine_of_not_hasFile hrun ?_)
    split <;> decide
  case readPid =>
    obtain ⟨hi, rfl⟩ := hstep
    have hrun := h.mem_running hi (by decide) (by decide)
    exact h.move (Sys.Sound.fine_of_not_hasFile hrun Sys.not_hasFile_readPid)
  case kill =>
    split at hstep
    next pid hi =>
      obtain rfl := Option.some_inj.mp hstep
      have hrun := h.mem_running hi (by simp) (by simp)
      refine h.move (Sys.Sound.fine_of_not_hasFile hrun ?_)
      split <;> decide
    next => exact absurd hstep (by simp)
  case remove =>
    obtain ⟨hi, rfl⟩ := hstep
    have hrun := h.mem_running hi (by decide) (by decide)
    refine h.remove hrun (by decide) fun j hj => ?_
    exact h.not_held_of_isStale hkill hrun htimely hj
  case open_ =>
    obtain ⟨hi, rfl⟩ := hstep
    have hrun := h.mem_running hi (by decide) (by decide)
    split
    · exact h.move (Sys.Sound.fine_of_not_hasFile hrun (by decide))
    next hpath => exact h.create hrun (by simpa using hpath)
  case write =>
    obtain ⟨hi, rfl⟩ := hstep
    exact h.write hi
  case reread =>
    obtain ⟨hi, rfl⟩ := hstep
    have hrun := h.mem_running hi (by decide) (by decide)
    split
    next hread =>
      have hpath := h.path_of_rereads hi hread
      refine h.move ⟨fun _ _ => hrun, fun _ => (h.fine i).written (.inl hi), fun _ => ?_,
        fun _ => hpath⟩
      exact (h.fine i).own (.inr (.inl hi))
    next => exact h.move (Sys.Sound.fine_of_not_hasFile hrun (by decide))
  case release =>
    obtain ⟨-, rfl⟩ := hstep
    have hi : s.stage i = .held := beq_iff_eq.mp htimely
    have hrun := h.mem_running hi (by decide) (by decide)
    refine h.remove hrun (by decide) fun j hj hheld => ?_
    have hpath := ((h.fine j).held hheld).symm.trans ((h.fine i).held hi)
    exact hj (Option.some_inj.mp hpath)
  case exit =>
    obtain ⟨-, rfl⟩ := hstep
    have hsub : ∀ j ∈ s.running.filter (· ≠ i), j ∈ s.running :=
      fun j hj => (List.mem_filter.mp hj).1
    refine h.of_step rfl (fun j hj k hk => h.distinct j (hsub j hj) k (hsub k hk)) ?_
      fun j hj hfine => ?_
    · exact ⟨fun _ hexited => absurd rfl hexited, fun hp => absurd hp (by decide),
        fun hp => absurd hp (by decide), fun hp => absurd hp (by decide)⟩
    · refine ⟨fun hidle hexited => ?_, hfine.written, hfine.own, hfine.held⟩
      exact List.mem_filter.mpr ⟨hfine.running hidle hexited, by simpa using hj⟩

/-- **At most one process holds the lock**, whatever processes start, exit and crash and however
their steps interleave, if every process may send a signal to every other one, what is removed as
stale is still stale, and no process releases the lock twice.  The pidfile is then that of the
process that holds it, and has its pid. -/
theorem guarded_of_run (hkill : ∀ i j, e.mayKill i j = true) {as : List (Action ι)}
    (h : Run (fun s a t => timelyStep e s a = some t) Sys.init as s) :
    s.Guarded ∧ ∀ i j, s.stage i = .held → s.stage j = .held → i = j := by
  have hsound : s.Sound e := h.invariant (P := fun _ => True) (I := fun s => s.Sound e)
    (fun hs _ hstep => hs.preserved hkill hstep) Sys.sound_init fun _ _ => trivial
  refine ⟨fun i hi => ⟨(hsound.fine i).held hi, (hsound.fine i).written (.inr hi)⟩,
    fun i j hi hj => ?_⟩
  exact Option.some_inj.mp (((hsound.fine i).held hi).symm.trans ((hsound.fine j).held hj))

end Model

/-- The processes of one user. -/
def sameUser : Env ℕ where
  pid i := i + 1
  pid_pos _ := Nat.succ_pos _
  mayKill _ _ := true
  mayUnlink _ := true

/-- A process takes the lock that no one has. -/
def takes (i : ℕ) : List (Action ℕ) :=
  [.start i, .isLocked i, .open_ i, .write i, .reread i]

/-- A process finds a pidfile, and goes as far as `remove`. -/
def finds (i : ℕ) : List (Action ℕ) := [.start i, .isLocked i, .readPid i, .kill i]

/-- A process removes the pidfile, and takes the lock. -/
def replaces (i : ℕ) : List (Action ℕ) := [.remove i, .open_ i, .write i, .reread i]

/-- The lock of a process that has crashed. -/
theorem guarded_of_crashed : ∃ s : Sys ℕ, s.stage 1 = .held ∧ s.Guarded := by
  obtain ⟨s, hs, hheld⟩ : ∃ s : Sys ℕ,
      (takes 0 ++ [Action.exit 0] ++ finds 1 ++ replaces 1).foldlM (timelyStep sameUser) Sys.init =
        some s ∧ s.stage 1 = .held := ⟨_, rfl, by decide⟩
  exact ⟨s, hheld, (guarded_of_run (e := sameUser) (fun _ _ => rfl) (Run.of_foldlM hs)).1⟩

/-- **Late removal.**  Two processes find the same stale pidfile, and both take the lock. -/
theorem two_hold_of_late : ∃ s : Sys ℕ,
    (takes 0 ++ [Action.exit 0] ++ finds 1 ++ finds 2 ++ replaces 1 ++ replaces 2).foldlM
      (step sameUser) Sys.init = some s ∧ s.stage 1 = .held ∧ s.stage 2 = .held :=
  ⟨_, rfl, by decide, by decide⟩

/-- **Releasing twice.**  The second time the pidfile of another process goes. -/
theorem two_hold_of_released_twice : ∃ s : Sys ℕ,
    (takes 0 ++ [Action.release 0] ++ takes 1 ++ [Action.release 0] ++ takes 2).foldlM
      (step sameUser) Sys.init = some s ∧ s.stage 1 = .held ∧ s.stage 2 = .held :=
  ⟨_, rfl, by decide, by decide⟩

/-! ## A process that runs alone -/

section Alone

variable {ι : Type} [DecidableEq ι] {e : Env ι} {s t : Sys ι} {i j : ι}

/-- What `create_pidlock` does next. -/
def Stage.next (i : ι) : Stage → Option (Action ι)
  | .begun => some (.isLocked i)
  | .found => some (.readPid i)
  | .read _ => some (.kill i)
  | .stale => some (.remove i)
  | .unlocked => some (.open_ i)
  | .opened => some (.write i)
  | .wrote => some (.reread i)
  | _ => none

variable (e i) in
/-- `create_pidlock` of one process, for so many steps. -/
def alone : ℕ → Sys ι → Sys ι
  | 0, s => s
  | n + 1, s =>
    match (s.stage i).next i with
    | none => s
    | some a => alone n ((step e s a).getD s)

variable (e s i) in
/-- Some process that is running, and that `i` may send a signal to, has the pid in the pidfile,
and this is not the pid of `i` itself. -/
def Sys.Locked : Prop :=
  ∃ j, s.path = some j ∧ s.written j ∧ e.pid j ≠ e.pid i ∧ s.answers e i (e.pid j) = true

theorem alone_of_next {a : Action ι} (hnext : (s.stage i).next i = some a)
    (hstep : step e s a = some t) (n : ℕ) : alone e i (n + 1) s = alone e i n t := by
  rw [alone, hnext]
  dsimp only
  rw [hstep, Option.getD_some]

theorem alone_of_done (hnext : (s.stage i).next i = none) (n : ℕ) : alone e i n s = s := by
  rcases n with - | n
  · rfl
  · rw [alone, hnext]

/-- Where there is no file, the lock is taken. -/
theorem alone_unlocked (hi : s.stage i = .unlocked) (hpath : s.path = none) (n : ℕ) :
    (alone e i (n + 3) s).stage i = .held ∧ (alone e i (n + 3) s).path = some i := by
  have hopen : step e s (.open_ i) = some { s.move i .opened with path := some i } := by
    simp [step, hi, hpath]
  have hopened : ({ s.move i .opened with path := some i } : Sys ι).stage i = .opened :=
    Sys.stage_move_self _
  have hwrite : step e { s.move i .opened with path := some i } (.write i) =
      some { Sys.move { s.move i .opened with path := some i } i .wrote with
        written := Function.update s.written i true } := by
    rw [step, if_pos hopened]
    rfl
  have hwrote : ({ Sys.move { s.move i .opened with path := some i } i .wrote with
      written := Function.update s.written i true } : Sys ι).stage i = .wrote :=
    Sys.stage_move_self _
  have hreread : ({ Sys.move { s.move i .opened with path := some i } i .wrote with
      written := Function.update s.written i true } : Sys ι).rereads e i = true := by
    simp [Sys.rereads, Sys.move]
  rw [alone_of_next (by rw [hi]; rfl) hopen, alone_of_next (by rw [hopened]; rfl) hwrite,
    alone_of_next (by rw [hwrote]; rfl) (by rw [step, if_pos hwrote, if_pos hreread]),
    alone_of_done (by rw [Sys.stage_move_self]; rfl)]
  exact ⟨Sys.stage_move_self _, rfl⟩

/-- Where the pidfile is stale, it is removed and the lock is taken. -/
theorem alone_stale (hi : s.stage i = .stale) (hunlink : e.mayUnlink i = true) (n : ℕ) :
    (alone e i (n + 4) s).stage i = .held ∧ (alone e i (n + 4) s).path = some i := by
  have hremove : step e s (.remove i) = some ((s.remove e i).move i .unlocked) := by
    rw [step, if_pos hi]
  rw [alone_of_next (by rw [hi]; rfl) hremove]
  refine alone_unlocked (Sys.stage_move_self _) ?_ n
  rw [Sys.remove, if_pos hunlink]
  rfl

/-- **A process that runs alone** is refused if the pidfile is locked, and leaves it; else it takes
the lock, whatever has crashed before and wherever. -/
theorem alone_eq (hi : s.stage i = .begun) (hunlink : e.mayUnlink i = true) :
    (s.Locked e i → (alone e i 7 s).stage i = .refused ∧ (alone e i 7 s).path = s.path) ∧
      (¬ s.Locked e i → (alone e i 7 s).stage i = .held ∧ (alone e i 7 s).path = some i) := by
  have hlocked : step e s (.isLocked i) =
      some (s.move i (if s.path.isSome then .found else .unlocked)) := by
    rw [step, if_pos hi]
  rw [alone_of_next (by rw [hi]; rfl) hlocked]
  rcases hpath : s.path with - | j
  · refine ⟨?_, fun _ => alone_unlocked (Sys.stage_move_self _) hpath 3⟩
    rintro ⟨j, hj, -⟩
    exact absurd (hpath.symm.trans hj) (by simp)
  have hfound : (s.move i .found).stage i = .found := Sys.stage_move_self _
  have hread : step e (s.move i .found) (.readPid i) =
      some ((s.move i .found).move i ((s.move i .found).readPid e i)) := by
    rw [step, if_pos hfound]
  rw [Option.isSome_some, if_pos rfl, alone_of_next (by rw [hfound]; rfl) hread]
  have hstage : (s.move i .found).readPid e i = if s.written j = true ∧ e.pid j ≠ e.pid i then
      .read (e.pid j) else .stale := Sys.readPid_eq hpath
  rw [hstage]
  by_cases hother : s.written j = true ∧ e.pid j ≠ e.pid i
  · rw [if_pos hother]
    have hkill : step e ((s.move i .found).move i (.read (e.pid j))) (.kill i) =
        some (((s.move i .found).move i (.read (e.pid j))).move i
          (if s.answers e i (e.pid j) then .refused else .stale)) := by
      rw [step, Sys.stage_move_self]
      rfl
    rw [alone_of_next (by rw [Sys.stage_move_self]; rfl) hkill]
    by_cases hanswers : s.answers e i (e.pid j) = true
    · rw [if_pos hanswers, alone_of_done (by rw [Sys.stage_move_self]; rfl)]
      exact ⟨fun _ => ⟨Sys.stage_move_self _, hpath⟩,
        fun h => absurd ⟨j, hpath, hother.1, hother.2, hanswers⟩ h⟩
    · rw [if_neg hanswers]
      refine ⟨?_, fun _ => alone_stale (Sys.stage_move_self _) hunlink 0⟩
      rintro ⟨k, hk, -, -, hk'⟩
      obtain rfl : j = k := Option.some_inj.mp (hpath.symm.trans hk)
      exact absurd hk' hanswers
  · rw [if_neg hother]
    refine ⟨?_, fun _ => alone_stale (Sys.stage_move_self _) hunlink 1⟩
    rintro ⟨k, hk, hwritten, hpid, -⟩
    obtain rfl : j = k := Option.some_inj.mp (hpath.symm.trans hk)
    exact absurd ⟨hwritten, hpid⟩ hother

end Alone

/-- A process whose pidfile is there, and has crashed before it was written. -/
def broken : Sys ℕ where
  running := [1]
  stage := Function.update (fun _ => .exited) 1 .begun
  path := some 0
  written _ := false

/-- A broken pidfile does not keep a process from the lock. -/
theorem alone_broken : (alone sameUser 1 7 broken).stage 1 = .held :=
  ((alone_eq (e := sameUser) (i := 1) (s := broken) rfl rfl).2 (by
    rintro ⟨j, -, hwritten, -⟩
    simp [broken] at hwritten)).1

end Platforms
end Celery
