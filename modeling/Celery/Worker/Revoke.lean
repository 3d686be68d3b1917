/-
# `celery/worker/control.py`: revoking by stamped headers

`revoke_by_stamped_headers` (lines 164-219) adds the stamps of a command to
`revoked_stamps`, and with `terminate` it goes through the active requests and terminates
those one of whose headers has one of these stamps.  `Request.revoked` asks the same
question of a request that is about to run, against all that has been revoked so far.

What is in `revoked_stamps` under a header is what the commands have listed under it
(`mem_revokedUnder_iff`).  But the loop of `revoked` ends with the first stamped header
that is in `revoked_stamps` at all, whether it matches or not.  So the answer is the right
one, and the same in any order of the headers, exactly if all stamped headers that have
been named by a command match, or none does (`revoked_as_due_iff`).
-/

import Celery.Canvas.Dict
import Celery.Worker.Request
import Mathlib.Data.List.Induction
import Mathlib.Data.List.Perm.Basic

namespace Celery
namespace Worker

open Canvas

variable {V : Type}

@[simp]
theorem StampValue.maybeList_one (stamp : String) : (one stamp).maybeList = [stamp] := rfl

@[simp]
theorem StampValue.maybeList_many (stamps : List String) : (many stamps).maybeList = stamps := rfl

/-! ## The command -/

/-- The argument `headers`: a dict, or a list of texts `key=value`. -/
inductive Headers where
  | dict (entries : List (String × StampValue))
  | list (items : List String)

/-- `h.split('=')[0]` and `h.split('=')[1]`; without a `=` the latter raises. -/
def splitItem (item : String) : Option (String × StampValue) :=
  match item.splitOn "=" with
  | key :: value :: _ => some (key, .one value)
  | _ => none

/-- `headers` as a dict. -/
def Headers.entries : Headers → Option (List (String × StampValue))
  | dict entries => some entries
  | list items => (items.mapM splitItem).map (dictUpdate [])

/-- What is revoked under a header. -/
def revokedUnder (revokedStamps : List (String × StampValue)) (header : String) : List String :=
  (revokedStamps.lookup header).elim [] StampValue.maybeList

/-- The stamps of one entry of `headers` are added to those revoked before. -/
def addRevoked (revokedStamps : List (String × StampValue)) (entry : String × StampValue) :
    List (String × StampValue) :=
  dictSet entry.1 (.many (revokedUnder revokedStamps entry.1 ++ entry.2.maybeList)) revokedStamps

/-- `matching_stamps_for_request`: the stamps of a request that an entry of `headers` has. -/
def matchingStamps (stamps : List (String × StampValue)) (entry : String × StampValue) :
    List String :=
  (stamps.lookup entry.1).elim [] fun actual =>
    actual.maybeList.filter (· ∈ entry.2.maybeList)

/-- The loop over `headers` for one active request, which is terminated at every entry
that matches. -/
def terminateMatching (entries : List (String × StampValue)) (r : Request V) : Request V :=
  entries.foldl (fun r entry => if matchingStamps r.stamps entry = [] then r else r.terminate) r

/-- What the command answers. -/
inductive Reply where
  | flagged
  | notTerminated
  | revoked (stamps : List (String × List String))

/-- `revoke_by_stamped_headers`: the revoked stamps and the active requests after it, and
the answer.  Where an item of the list has no `=`, it raises and does nothing. -/
def revokeByStampedHeaders (headers : Headers) (terminate : Bool)
    (revokedStamps : List (String × StampValue)) (activeRequests : List (Request V)) :
    Option (List (String × StampValue) × List (Request V) × Reply) :=
  headers.entries.map fun entries =>
    let revokedStamps := entries.foldl addRevoked revokedStamps
    if terminate then
      let terminated := activeRequests.flatMap fun r =>
        (entries.map fun entry => (entry.1, matchingStamps r.stamps entry)).filter (·.2 ≠ [])
      (revokedStamps, activeRequests.map (terminateMatching entries),
        if terminated = [] then .notTerminated else .revoked terminated)
    else (revokedStamps, activeRequests, .flagged)

/-- `revoked_stamps` after some commands. -/
def revokedAfter (commands : List Headers) : List (String × StampValue) :=
  commands.foldl (fun revokedStamps headers =>
    (headers.entries.getD []).foldl addRevoked revokedStamps) []

/-! ## What is revoked under a header -/

section Revoked

variable {header : String} {stamp : String}

/-- An entry names a header, with a stamp. -/
def Names (entries : List (String × StampValue)) (header : String) : Prop :=
  ∃ entry ∈ entries, entry.1 = header

/-- An entry lists a stamp under a header. -/
def Lists (entries : List (String × StampValue)) (header stamp : String) : Prop :=
  ∃ entry ∈ entries, entry.1 = header ∧ stamp ∈ entry.2.maybeList

theorem isSome_lookup_addRevoked_foldl (entries revokedStamps : List (String × StampValue)) :
    ((entries.foldl addRevoked revokedStamps).lookup header).isSome ↔
      (revokedStamps.lookup header).isSome ∨ Names entries header := by
  induction entries generalizing revokedStamps with
  | nil => simp [Names]
  | cons entry entries ih =>
    rw [List.foldl_cons, ih, addRevoked, lookup_dictSet]
    simp only [Names, List.exists_mem_cons_iff]
    by_cases hkey : header = entry.1
    · simp [hkey]
    · simp [hkey, Ne.symm hkey]

theorem mem_revokedUnder_foldl (entries revokedStamps : List (String × StampValue)) :
    stamp ∈ revokedUnder (entries.foldl addRevoked revokedStamps) header ↔
      stamp ∈ revokedUnder revokedStamps header ∨ Lists entries header stamp := by
  induction entries generalizing revokedStamps with
  | nil => simp [Lists]
  | cons entry entries ih =>
    rw [List.foldl_cons, ih]
    simp only [Lists, List.exists_mem_cons_iff, ← or_assoc]
    refine or_congr_left ?_
    rw [revokedUnder, addRevoked, lookup_dictSet]
    by_cases hkey : header = entry.1
    · subst hkey
      simp
    · simp [hkey, Ne.symm hkey, revokedUnder]

/-- The stamps that the commands of a worker have listed under a header. -/
def RevokedBy (commands : List Headers) (header stamp : String) : Prop :=
  ∃ headers ∈ commands, Lists (headers.entries.getD []) header stamp

/-- The headers that the commands have named. -/
def NamedBy (commands : List Headers) (header : String) : Prop :=
  ∃ headers ∈ commands, Names (headers.entries.getD []) header

/-- **Under a header is what has been listed under it**, by whatever command. -/
theorem mem_revokedUnder_iff (commands : List Headers) :
    stamp ∈ revokedUnder (revokedAfter commands) header ↔ RevokedBy commands header stamp := by
  induction commands using List.reverseRecOn with
  | nil => simp [revokedAfter, revokedUnder, RevokedBy]
  | append_singleton commands headers ih =>
    rw [revokedAfter, List.foldl_concat, ← revokedAfter, mem_revokedUnder_foldl, ih]
    simp only [RevokedBy, List.mem_append, List.mem_singleton, or_and_right, exists_or,
      exists_eq_left]

theorem isSome_lookup_revokedAfter (commands : List Headers) :
    ((revokedAfter commands).lookup header).isSome ↔ NamedBy commands header := by
  induction commands using List.reverseRecOn with
  | nil => simp [revokedAfter, NamedBy]
  | append_singleton commands headers ih =>
    rw [revokedAfter, List.foldl_concat, ← revokedAfter, isSome_lookup_addRevoked_foldl, ih]
    simp only [NamedBy, List.mem_append, List.mem_singleton, or_and_right, exists_or,
      exists_eq_left]

end Revoked

/-! ## The request -/

/-- A request with these stamped headers and their stamps. -/
def Request.withStamps (r : Request V) (stampedHeaders : List String)
    (stamps : String → StampValue) : Request V :=
  { r with stamps := stampedHeaders.map fun header => (header, stamps header) }

section Request

variable {stampedHeaders : List String} {stamps : String → StampValue}

/-- A stamp of a header is among those revoked under it. -/
def HeaderMatches (revokedStamps : List (String × StampValue)) (stamps : String → StampValue)
    (header : String) : Prop :=
  ∃ stamp ∈ (stamps header).maybeList, stamp ∈ revokedUnder revokedStamps header

/-- The header loop answers for the first stamped header that is in `revoked_stamps`. -/
theorem revokedByHeader_iff (revokedStamps : List (String × StampValue)) :
    Request.revokedByHeader revokedStamps
        (stampedHeaders.map fun header => (header, stamps header)) = true ↔
      ∃ header, stampedHeaders.find? (fun h => (revokedStamps.lookup h).isSome) = some header ∧
        HeaderMatches revokedStamps stamps header := by
  induction stampedHeaders with
  | nil => simp [Request.revokedByHeader]
  | cons header rest ih =>
    rw [List.map_cons, Request.revokedByHeader]
    cases hlookup : revokedStamps.lookup header with
    | none =>
      rw [List.find?_cons_of_neg (by simp [hlookup])]
      exact ih
    | some revoked =>
      rw [List.find?_cons_of_pos (by simp [hlookup])]
      have hunder : revokedUnder revokedStamps header = revoked.maybeList := by
        rw [revokedUnder, hlookup, Option.elim_some]
      simp only [Option.some.injEq, exists_eq_left', HeaderMatches, hunder]
      cases stamps header with
      | many values => simp
      | one value =>
        -- A scalar that is equal to the revoked value is in its list of one.
        have hscalar : StampValue.one value = revoked → value ∈ revoked.maybeList := by
          rintro rfl
          exact List.mem_singleton_self value
        simpa using hscalar

/-- Whether a request is revoked, as `revoked` returns it. -/
theorem revoked_iff (now : Datetime) (revokedTasks : List TaskId)
    (revokedStamps : List (String × StampValue)) (r : Request V) :
    (r.revoked now revokedTasks revokedStamps).1 = true ↔
      r.alreadyRevoked = true ∨ r.maybeExpire now = true ∨ r.id ∈ revokedTasks ∨
        Request.revokedByHeader revokedStamps r.stamps = true := by
  rw [Request.revoked]
  cases r.alreadyRevoked with
  | true => simp
  | false =>
    cases r.maybeExpire now with
    | true => simp
    | false =>
      by_cases hid : r.id ∈ revokedTasks
      · simp [hid]
      · cases hheader : Request.revokedByHeader revokedStamps r.stamps with
        | true => simp [hid]
        | false => simp [hid]

theorem lookup_withStamps (header : String) :
    (stampedHeaders.map fun h => (h, stamps h)).lookup header =
      if header ∈ stampedHeaders then some (stamps header) else none := by
  induction stampedHeaders with
  | nil => rfl
  | cons h rest ih =>
    rw [List.map_cons, lookup_cons_eq_ite, ih]
    by_cases heq : header = h
    · simp [heq]
    · simp [heq]

/-- **An entry of a command matches** where it lists a stamp of a stamped header. -/
theorem matchingStamps_ne_nil_iff (r : Request V) (entry : String × StampValue) :
    matchingStamps (r.withStamps stampedHeaders stamps).stamps entry ≠ [] ↔
      entry.1 ∈ stampedHeaders ∧
        ∃ stamp ∈ (stamps entry.1).maybeList, stamp ∈ entry.2.maybeList := by
  rw [Request.withStamps, matchingStamps, lookup_withStamps]
  by_cases hmem : entry.1 ∈ stampedHeaders
  · simp [hmem]
  · simp [hmem]

/-- **A request is revoked as it is due.**  It is if it was already, or has expired, or its
id is revoked, or one of its stamped headers matches; whatever their order is; and it is by
its headers if one of the commands would have terminated it. -/
structure RevokedAsDue (now : Datetime) (revokedTasks : List TaskId) (commands : List Headers)
    (r : Request V) (stampedHeaders : List String) (stamps : String → StampValue) : Prop where
  exact : ((r.withStamps stampedHeaders stamps).revoked now revokedTasks
      (revokedAfter commands)).1 = true ↔
    r.alreadyRevoked = true ∨ r.maybeExpire now = true ∨ r.id ∈ revokedTasks ∨
      ∃ header ∈ stampedHeaders, HeaderMatches (revokedAfter commands) stamps header
  order : ∀ reordered : List String, reordered.Perm stampedHeaders →
    ((r.withStamps reordered stamps).revoked now revokedTasks (revokedAfter commands)).1 =
      ((r.withStamps stampedHeaders stamps).revoked now revokedTasks (revokedAfter commands)).1
  terminate : ((r.withStamps stampedHeaders stamps).revoked now revokedTasks
      (revokedAfter commands)).1 = true ↔
    r.alreadyRevoked = true ∨ r.maybeExpire now = true ∨ r.id ∈ revokedTasks ∨
      ∃ headers ∈ commands, ∃ entry ∈ headers.entries.getD [],
        matchingStamps (r.withStamps stampedHeaders stamps).stamps entry ≠ []

/-- All stamped headers that have been named by a command match, or none does. -/
def HeadersAgree (commands : List Headers) (stampedHeaders : List String)
    (stamps : String → StampValue) : Prop :=
  (∀ header ∈ stampedHeaders, NamedBy commands header →
      ∃ stamp ∈ (stamps header).maybeList, RevokedBy commands header stamp) ∨
    ∀ header ∈ stampedHeaders,
      ¬ ∃ stamp ∈ (stamps header).maybeList, RevokedBy commands header stamp

/-- A stamped header matches exactly if a command has an entry that matches. -/
theorem exists_headerMatches_iff (commands : List Headers) (r : Request V) :
    (∃ header ∈ stampedHeaders, HeaderMatches (revokedAfter commands) stamps header) ↔
      ∃ headers ∈ commands, ∃ entry ∈ headers.entries.getD [],
        matchingStamps (r.withStamps stampedHeaders stamps).stamps entry ≠ [] := by
  constructor
  · rintro ⟨header, hheader, stamp, hstamp, hrevoked⟩
    obtain ⟨headers, hheaders, entry, hentry, rfl, hlisted⟩ :=
      (mem_revokedUnder_iff commands).mp hrevoked
    refine ⟨headers, hheaders, entry, hentry, ?_⟩
    exact (matchingStamps_ne_nil_iff r entry).mpr ⟨hheader, stamp, hstamp, hlisted⟩
  · rintro ⟨headers, hheaders, entry, hentry, hmatch⟩
    obtain ⟨hheader, stamp, hstamp, hlisted⟩ := (matchingStamps_ne_nil_iff r entry).mp hmatch
    refine ⟨entry.1, hheader, stamp, hstamp, ?_⟩
    exact (mem_revokedUnder_iff commands).mpr ⟨headers, hheaders, entry, hentry, rfl, hlisted⟩

theorem headerMatches_iff (commands : List Headers) (header : String) :
    HeaderMatches (revokedAfter commands) stamps header ↔
      ∃ stamp ∈ (stamps header).maybeList, RevokedBy commands header stamp := by
  simp only [HeaderMatches, mem_revokedUnder_iff]

/-- Where the headers agree, the loop finds a header that matches if there is one. -/
theorem revokedByHeader_of_agree {commands : List Headers}
    (h : HeadersAgree commands stampedHeaders stamps) :
    Request.revokedByHeader (revokedAfter commands)
        (stampedHeaders.map fun header => (header, stamps header)) = true ↔
      ∃ header ∈ stampedHeaders, HeaderMatches (revokedAfter commands) stamps header := by
  rw [revokedByHeader_iff]
  constructor
  · rintro ⟨header, hfind, hmatch⟩
    exact ⟨header, List.mem_of_find?_eq_some hfind, hmatch⟩
  · rintro ⟨header, hheader, hmatch⟩
    have hmatch' := (headerMatches_iff commands header).mp hmatch
    have hall := h.resolve_right fun hnone => hnone header hheader hmatch'
    have hnamed : NamedBy commands header := by
      obtain ⟨stamp, -, headers, hheaders, entry, hentry, hkey, -⟩ := hmatch'
      exact ⟨headers, hheaders, entry, hentry, hkey⟩
    have hsome : (stampedHeaders.find? fun h =>
        ((revokedAfter commands).lookup h).isSome).isSome := by
      rw [List.find?_isSome]
      exact ⟨header, hheader, (isSome_lookup_revokedAfter commands).mpr hnamed⟩
    obtain ⟨first, hfirst⟩ := Option.isSome_iff_exists.mp hsome
    have hfirstNamed : NamedBy commands first :=
      (isSome_lookup_revokedAfter commands).mp (by simpa using List.find?_some hfirst)
    refine ⟨first, hfirst, (headerMatches_iff commands first).mpr ?_⟩
    exact hall first (List.mem_of_find?_eq_some hfirst) hfirstNamed

/-- The order of the headers has no part in whether they agree. -/
theorem HeadersAgree.perm {commands : List Headers} {reordered : List String}
    (h : HeadersAgree commands stampedHeaders stamps) (hperm : reordered.Perm stampedHeaders) :
    HeadersAgree commands reordered stamps :=
  h.imp (fun hall header hheader => hall header (hperm.mem_iff.mp hheader))
    fun hnone header hheader => hnone header (hperm.mem_iff.mp hheader)

/-- Where one header has been named and does not match, it may come first. -/
theorem exists_order_not_revokedByHeader {commands : List Headers} {header : String}
    (hheader : header ∈ stampedHeaders) (hnamed : NamedBy commands header)
    (hmiss : ¬ HeaderMatches (revokedAfter commands) stamps header) :
    ∃ reordered : List String, reordered.Perm stampedHeaders ∧
      Request.revokedByHeader (revokedAfter commands)
        (reordered.map fun header => (header, stamps header)) ≠ true := by
  refine ⟨header :: stampedHeaders.erase header, (List.perm_cons_erase hheader).symm, ?_⟩
  have hsome := (isSome_lookup_revokedAfter commands).mpr hnamed
  rw [ne_eq, revokedByHeader_iff, List.find?_cons_of_pos (by simpa using hsome)]
  rintro ⟨first, hfirst, hmatch⟩
  exact hmiss (Option.some_inj.mp hfirst ▸ hmatch)

/-- **When a request is revoked as it is due.**  It is exactly if it has been revoked, has
expired or its id is revoked, or all of its stamped headers that have been named by a
command match, or none does. -/
theorem revoked_as_due_iff (now : Datetime) (revokedTasks : List TaskId)
    (commands : List Headers) (r : Request V) (stampedHeaders : List String)
    (stamps : String → StampValue) :
    RevokedAsDue now revokedTasks commands r stampedHeaders stamps ↔
      r.alreadyRevoked = true ∨ r.maybeExpire now = true ∨ r.id ∈ revokedTasks ∨
        HeadersAgree commands stampedHeaders stamps := by
  have hrevoked : ∀ headers : List String,
      ((r.withStamps headers stamps).revoked now revokedTasks (revokedAfter commands)).1 = true ↔
        r.alreadyRevoked = true ∨ r.maybeExpire now = true ∨ r.id ∈ revokedTasks ∨
          Request.revokedByHeader (revokedAfter commands)
            (headers.map fun header => (header, stamps header)) = true :=
    fun headers => revoked_iff now revokedTasks (revokedAfter commands) _
  constructor
  · intro hdue
    by_contra hcond
    simp only [not_or] at hcond
    obtain ⟨halready, hexpired, hid, hagree⟩ := hcond
    rw [HeadersAgree, not_or] at hagree
    obtain ⟨hmiss, hhit⟩ := hagree
    push Not at hmiss hhit
    obtain ⟨missed, hmissed, hnamed, hmiss⟩ := hmiss
    obtain ⟨hit, hhitmem, hhit⟩ := hhit
    have hyes := hdue.exact.mpr (Or.inr (Or.inr (Or.inr
      ⟨hit, hhitmem, (headerMatches_iff commands hit).mpr hhit⟩)))
    have hnomatch : ¬ HeaderMatches (revokedAfter commands) stamps missed := by
      intro hmatch
      obtain ⟨stamp, hstamp, hby⟩ := (headerMatches_iff commands missed).mp hmatch
      exact hmiss stamp hstamp hby
    obtain ⟨reordered, hperm, hno⟩ := exists_order_not_revokedByHeader hmissed hnamed hnomatch
    rw [← hdue.order reordered hperm, hrevoked reordered] at hyes
    exact hno (((hyes.resolve_left halready).resolve_left hexpired).resolve_left hid)
  · intro hcond
    have hexact : ∀ headers : List String, headers.Perm stampedHeaders →
        (((r.withStamps headers stamps).revoked now revokedTasks (revokedAfter commands)).1 = true ↔
          r.alreadyRevoked = true ∨ r.maybeExpire now = true ∨ r.id ∈ revokedTasks ∨
            ∃ header ∈ stampedHeaders, HeaderMatches (revokedAfter commands) stamps header) := by
      intro headers hperm
      rw [hrevoked headers]
      rcases hcond with halready | hexpired | hid | hagree
      · simp [halready]
      · simp [hexpired]
      · simp [hid]
      · rw [revokedByHeader_of_agree (hagree.perm hperm)]
        simp only [hperm.mem_iff]
    refine ⟨hexact stampedHeaders (List.Perm.refl _), fun reordered hperm => ?_, ?_⟩
    · rw [Bool.eq_iff_iff, hexact reordered hperm, hexact stampedHeaders (List.Perm.refl _)]
    · rw [hexact stampedHeaders (List.Perm.refl _), exists_headerMatches_iff commands r]

/-- Two commands: one revokes the group `g1`, and one the canvas `m1`. -/
def twoCommands : List Headers :=
  [.dict [("group", .one "g1")], .dict [("mtask_id", .many ["m1"])]]

/-- A task with two stamps, of the canvas `m1`, but of another group. -/
def twoStamps : String → StampValue
  | "mtask_id" => .one "m1"
  | _ => .one "g2"

/-- A request for it. -/
def twoStamped : Request ℕ where
  id := 1
  task := {}
  context := {}

/-- The time when it is about to run. -/
def epoch : Datetime :=
  ⟨(Gregorian.date? 1970 1 1).get rfl, 0, 0, 0, 0, none, Datetime.zero_lt_24,
    Datetime.zero_lt_60, Datetime.zero_lt_60, Datetime.zero_lt_1000000⟩

/-- **A header that does not match hides one that does**, if it comes first: the task runs,
though its canvas is revoked and a terminating command would match it. -/
theorem twoStamped_not_revokedAsDue :
    ((twoStamped.withStamps ["group", "mtask_id"] twoStamps).revoked epoch []
        (revokedAfter twoCommands)).1 = false ∧
      ((twoStamped.withStamps ["mtask_id", "group"] twoStamps).revoked epoch []
        (revokedAfter twoCommands)).1 = true ∧
      matchingStamps (twoStamped.withStamps ["group", "mtask_id"] twoStamps).stamps
        ("mtask_id", .many ["m1"]) = ["m1"] ∧
      ¬ RevokedAsDue epoch [] twoCommands twoStamped ["group", "mtask_id"] twoStamps := by
  have hfirst : ((twoStamped.withStamps ["group", "mtask_id"] twoStamps).revoked epoch []
      (revokedAfter twoCommands)).1 = false := by decide
  have hlast : ((twoStamped.withStamps ["mtask_id", "group"] twoStamps).revoked epoch []
      (revokedAfter twoCommands)).1 = true := by decide
  refine ⟨hfirst, hlast, by decide, fun hdue => ?_⟩
  have horder := hdue.order ["mtask_id", "group"] (by decide)
  rw [hfirst, hlast] at horder
  cases horder

end Request

end Worker
end Celery
