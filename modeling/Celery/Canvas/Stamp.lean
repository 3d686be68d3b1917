/-
# `celery/canvas.py`: stamping without a visitor

`sig.stamp(**headers)` puts headers into the options of every task of a signature, and their
names into the option `stamped_headers`.  `Signature.stamp` with `_stamp_headers` and
`stamp_links` (lines 580-709) stamps a task and what is linked to it, and chains (1139-1150),
groups (1734-1755) and chords (2204-2228) each go through their members.  A chord stamps its
body only when there is a visitor.

Of a signature that has been cloned, or that comes out of a message, the links are plain dicts.
`maybe_signature` makes signatures of them, which have the options of the dict
(`from_dict`, lines 326-336, 968-974, 1640-1644, 2119-2121); but the `signature` in `_maybe_group`
clones what is in the header of a chord and is a signature already, `clone` (460-498, 1040-1047)
copies the options with all the links in them, and `__deepcopy__` (842-847) copies a signature but
for what is in its `kwargs`.  What is stamped is such a copy then, and not the task (`Held`).

So just the tasks in the bodies of chords and those that are copied are left out:
`stamp_reaches_iff`.

Of the options there are those that stamping reads and sets: links, `stamped_headers` and the
rest as a dict.  Headers do not take the names of the parameters of these methods.  A set of
names is a list here, in some order.  Members that come from a generator are stamped as they
come, by `map`, and are no different otherwise.  A header that is a dict or a list is merged in
place, which the siblings that come later see; that those before see it too is left out.
-/

import Celery.Canvas.Dict

namespace Celery
namespace Canvas

/-- The value of a header: a string, a number or `None`, and whether it is true, a list, or a
dict. -/
inductive StampValue where
  | scalar (text : String) (truthy : Bool)
  | list (values : List StampValue)
  | dict (entries : List (String × StampValue))

namespace StampValue

/-- `bool(value)`. -/
def truthy : StampValue → Bool
  | scalar _ truthy => truthy
  | list values => !values.isEmpty
  | dict entries => !entries.isEmpty

/-- The entries of a dict; any other value has no `items`. -/
def entries? : StampValue → Option (List (String × StampValue))
  | dict entries => some entries
  | _ => none

mutual

/-- What `_merge_dictionaries` does to a value that is there already, with
`aggregate_duplicates=False`; `none` if it raises. -/
def merge : StampValue → StampValue → Option StampValue
  | dict d, v' =>
    if v'.truthy then
      v'.entries?.bind fun d' => (mergeCommon d d').map fun common =>
        dict (common ++ d'.filter fun entry => !dictHas d entry.1)
    else some (dict d)
  | list vs, list vs' => some (list (vs ++ vs'))
  | v, _ => some v

/-- The entries of the first dict, with those of the second under the same keys. -/
def mergeCommon : List (String × StampValue) → List (String × StampValue) →
    Option (List (String × StampValue))
  | [], _ => some []
  | (k, v) :: d, d' =>
    (match d'.lookup k with
      | some v' => merge v v'
      | none => some v).bind fun v => (mergeCommon d d').map fun rest => (k, v) :: rest

end

end StampValue

/-- `_merge_dictionaries(d, d', aggregate_duplicates=False)`; `none` if it raises. -/
def mergeDictionaries (d d' : List (String × StampValue)) :
    Option (List (String × StampValue)) :=
  (StampValue.mergeCommon d d').map fun common =>
    common ++ d'.filter fun entry => !dictHas d entry.1

/-- Headers or options: `stamped_headers`, where it is set, and the other entries. -/
structure StampDict where
  entries : List (String × StampValue) := []
  stampedHeaders : Option (List String) := none

/-- A signature, with the options that stamping reads and sets, or a plain dict of one. -/
inductive Stampable where
  | task (plain : Bool) (options : StampDict) (link linkError : List Stampable)
  | chain (plain : Bool) (tasks : List Stampable) (options : StampDict)
      (link linkError : List Stampable)
  | group (plain : Bool) (tasks : List Stampable) (options : StampDict)
      (link linkError : List Stampable)
  | chord (plain : Bool) (header : List Stampable) (body : Option Stampable)
      (options : StampDict) (link linkError : List Stampable)

namespace StampDict

/-- The names of the stamps: `stamped_headers`, or all keys of the headers. -/
def listed (headers : StampDict) : List String :=
  headers.stampedHeaders.getD (headers.entries.map Prod.fst)

/-- The headers that are stamps. -/
def stamps (headers : StampDict) : List String :=
  (headers.entries.map Prod.fst).filter (· ∈ headers.listed)

/-- `_stamp_headers(self_headers=False, **headers)`. -/
def stampHeadersOnly (headers : StampDict) : StampDict :=
  { headers with stampedHeaders := some headers.listed }

/-- `self._stamp_headers(**headers)`, for the options of `self`. -/
def stampHeaders (headers options : StampDict) : Option StampDict :=
  let stampedHeaders := headers.listed ∪ options.stampedHeaders.getD []
  (mergeDictionaries headers.entries
    (options.entries.filter fun entry => entry.1 ∈ stampedHeaders)).map fun entries =>
      { entries, stampedHeaders := some stampedHeaders }

/-- `options.update(headers)`. -/
def update (options headers : StampDict) : StampDict where
  entries := dictUpdate options.entries headers.entries
  stampedHeaders := headers.stampedHeaders.or options.stampedHeaders

/-- The headers after a signature has been stamped with `merged`, which has their entries first:
what is in them has been merged in place. -/
def handBack (headers : StampDict) (merged : List (String × StampValue)) : StampDict :=
  { headers with entries := merged.take headers.entries.length }

end StampDict

/-- What is stamped for a signature: the signature, or one made of its dict, with its options; its
`clone`; or one made of a deep copy of it. -/
inductive Held where
  | own
  | cloned
  | copied
deriving DecidableEq

/-- Where a member stands: in a chain, in a group, or in the header of a chord. -/
inductive Place where
  | chain
  | group
  | header

namespace Held

/-- For a link: a clone and a copy have copied their options. -/
def link : Held → Held
  | own => own
  | _ => copied

/-- For a member of a signature that is a dict if `plain`; `none` is the `AttributeError` for a dict
among the members of a chain or in the header of a chord.  A clone shares the members of a group,
and a deep copy those of a signature.  What is in the header of a dict is cloned by `signature`,
unless it is a dict. -/
def member (plain memberPlain : Bool) : Place → Held → Option Held
  | .group, copied => some (if plain then copied else own)
  | .group, _ => some own
  | .chain, own => if memberPlain && !plain then none else some own
  | .chain, cloned => some cloned
  | .chain, copied => some (if plain then copied else own)
  | .header, own =>
    if plain then some (if memberPlain then own else cloned)
    else if memberPlain then none else some own
  | .header, cloned => some (if memberPlain then own else cloned)
  | .header, copied => some (if plain then copied else if memberPlain then own else cloned)

/-- A group puts the signatures into the place of dicts among its members. -/
def replaces (plain : Bool) : Held → Bool
  | own => true
  | cloned => false
  | copied => !plain

end Held

namespace Stampable

/-- It is a plain dict. -/
def plain : Stampable → Bool
  | task plain .. => plain
  | chain plain .. => plain
  | group plain .. => plain
  | chord plain .. => plain

/-- The signature that is made of a dict. -/
def asSignature : Stampable → Stampable
  | task _ options link linkError => task false options link linkError
  | chain _ tasks options link linkError => chain false tasks options link linkError
  | group _ tasks options link linkError => group false tasks options link linkError
  | chord _ header body options link linkError => chord false header body options link linkError

/-- A signature with the entries of the headers that it was stamped with, as they are then. -/
abbrev Stamped := Stampable × List (String × StampValue)

mutual

/-- `sig.stamp(**headers)` for what is held of `sig`; `none` if it raises. -/
def stampAs : Held → StampDict → Stampable → Option Stamped
  | held, headers, task plain options link linkError =>
    (stampLinks held.link headers link).bind fun link =>
      (stampLinks held.link headers linkError).bind fun linkError =>
        (headers.stampHeaders options).map fun merged =>
          (task plain (if held = .own then options.update merged else options) link linkError,
            merged.entries)
  | held, headers, chain plain tasks options link linkError =>
    (headers.stampHeaders options).bind fun headers =>
      (stampLinks held.link headers link).bind fun link =>
        (stampLinks held.link headers linkError).bind fun linkError =>
          (stampMembers held .chain plain headers tasks).map fun tasks =>
            (chain plain tasks.1 options link linkError, tasks.2)
  | held, headers, group plain tasks options link linkError =>
    (headers.stampHeaders options).bind fun headers =>
      (stampLinks held.link headers link).bind fun link =>
        (stampLinks held.link headers linkError).bind fun linkError =>
          (stampMembers held .group plain headers tasks).map fun tasks =>
            (group plain (if held.replaces plain then tasks.1.map asSignature else tasks.1)
              options link linkError, tasks.2)
  -- the body is for a visitor to stamp
  | held, headers, chord plain header body options link linkError =>
    (headers.stampHeaders options).bind fun headers =>
      (stampLinks held.link headers link).bind fun link =>
        (stampLinks held.link headers linkError).bind fun linkError =>
          (stampMembers held .header plain headers header).map fun header =>
            (chord plain header.1 body options link linkError, header.2)

/-- The members, one after the other. -/
def stampMembers : Held → Place → Bool → StampDict → List Stampable →
    Option (List Stampable × List (String × StampValue))
  | _, _, _, headers, [] => some ([], headers.entries)
  | held, place, plain, headers, s :: ss =>
    (held.member plain s.plain place).bind fun member =>
      (stampAs member headers s).bind fun s =>
        (stampMembers held place plain (headers.handBack s.2) ss).map fun ss =>
          (s.1 :: ss.1, ss.2)

/-- A loop of `stamp_links`, with a copy of the headers; a link gets what the one before it got. -/
def stampLinks : Held → StampDict → List Stampable → Option (List Stampable)
  | _, _, [] => some []
  | held, headers, link :: links =>
    (stampAs held headers.stampHeadersOnly link).bind fun link =>
      (stampLinks held (headers.stampHeadersOnly.handBack link.2) links).map fun links =>
        link.1 :: links

end

/-- **`sig.stamp(**headers)`**; `none` if it raises. -/
def stamp (headers : StampDict) (s : Stampable) : Option Stampable :=
  (stampAs .own headers s).map Prod.fst

mutual

/-- The options of all tasks in a signature: its members, the body of a chord, and what is
linked to any of them. -/
def tasks : Stampable → List StampDict
  | task _ options link linkError => options :: (tasksOfAll link ++ tasksOfAll linkError)
  | chain _ ts _ link linkError => tasksOfAll ts ++ (tasksOfAll link ++ tasksOfAll linkError)
  | group _ ts _ link linkError => tasksOfAll ts ++ (tasksOfAll link ++ tasksOfAll linkError)
  | chord _ header body _ link linkError =>
    tasksOfAll header ++ tasksOfBody body ++ (tasksOfAll link ++ tasksOfAll linkError)

def tasksOfAll : List Stampable → List StampDict
  | [] => []
  | s :: ss => tasks s ++ tasksOfAll ss

def tasksOfBody : Option Stampable → List StampDict
  | none => []
  | some s => tasks s

end

mutual

/-- The options of the tasks that are not reached: those in the bodies of chords, and those of
which a copy is stamped. -/
def unreachedAs : Held → Stampable → List StampDict
  | held, task _ options link linkError =>
    (if held = .own then [] else [options]) ++
      (unreachedOfLinks held.link link ++ unreachedOfLinks held.link linkError)
  | held, chain plain ts _ link linkError =>
    unreachedOfMembers held .chain plain ts ++
      (unreachedOfLinks held.link link ++ unreachedOfLinks held.link linkError)
  | held, group plain ts _ link linkError =>
    unreachedOfMembers held .group plain ts ++
      (unreachedOfLinks held.link link ++ unreachedOfLinks held.link linkError)
  | held, chord plain header body _ link linkError =>
    unreachedOfMembers held .header plain header ++ tasksOfBody body ++
      (unreachedOfLinks held.link link ++ unreachedOfLinks held.link linkError)

def unreachedOfLinks : Held → List Stampable → List StampDict
  | _, [] => []
  | held, s :: ss => unreachedAs held s ++ unreachedOfLinks held ss

def unreachedOfMembers : Held → Place → Bool → List Stampable → List StampDict
  | _, _, _, [] => []
  | held, place, plain, s :: ss =>
    unreachedAs ((held.member plain s.plain place).getD held) s ++
      unreachedOfMembers held place plain ss

end

/-- The options of the tasks that stamping does not reach. -/
def unreached (s : Stampable) : List StampDict := unreachedAs .own s

end Stampable

/-! ## Headers that can be merged -/

namespace StampValue

mutual

/-- No dict meets a value that is true and no dict. -/
def Merges : StampValue → StampValue → Prop
  | dict d, v' => v'.truthy = true → ∃ d', v'.entries? = some d' ∧ MergesCommon d d'
  | _, _ => True

/-- The values under common keys can be merged. -/
def MergesCommon : List (String × StampValue) → List (String × StampValue) → Prop
  | [], _ => True
  | (k, v) :: d, d' => (∀ v', d'.lookup k = some v' → Merges v v') ∧ MergesCommon d d'

end

end StampValue

/-- The headers can be merged with those options that are stamps. -/
def StampDict.Merges (headers options : StampDict) : Prop :=
  StampValue.MergesCommon headers.entries
    (options.entries.filter fun entry =>
      entry.1 ∈ headers.listed ∪ options.stampedHeaders.getD [])

namespace Stampable

mutual

/-- **Nothing is raised:** each signature can be merged with the headers as it gets them, and no
dict is among the members of a chain or in the header of a chord that is a signature. -/
def MergesAs : Held → StampDict → Stampable → Prop
  | held, headers, task _ options link linkError =>
    MergesLinks held.link headers link ∧ MergesLinks held.link headers linkError ∧
      headers.Merges options
  | held, headers, chain plain tasks options link linkError =>
    headers.Merges options ∧ ∀ merged, headers.stampHeaders options = some merged →
      MergesLinks held.link merged link ∧ MergesLinks held.link merged linkError ∧
        MergesMembers held .chain plain merged tasks
  | held, headers, group plain tasks options link linkError =>
    headers.Merges options ∧ ∀ merged, headers.stampHeaders options = some merged →
      MergesLinks held.link merged link ∧ MergesLinks held.link merged linkError ∧
        MergesMembers held .group plain merged tasks
  | held, headers, chord plain header _ options link linkError =>
    headers.Merges options ∧ ∀ merged, headers.stampHeaders options = some merged →
      MergesLinks held.link merged link ∧ MergesLinks held.link merged linkError ∧
        MergesMembers held .header plain merged header

def MergesMembers : Held → Place → Bool → StampDict → List Stampable → Prop
  | _, _, _, _, [] => True
  | held, place, plain, headers, s :: ss =>
    ∃ member, held.member plain s.plain place = some member ∧ MergesAs member headers s ∧
      ∀ stamped, stampAs member headers s = some stamped →
        MergesMembers held place plain (headers.handBack stamped.2) ss

def MergesLinks : Held → StampDict → List Stampable → Prop
  | _, _, [] => True
  | held, headers, link :: links =>
    MergesAs held headers.stampHeadersOnly link ∧
      ∀ stamped, stampAs held headers.stampHeadersOnly link = some stamped →
        MergesLinks held (headers.stampHeadersOnly.handBack stamped.2) links

end

/-- `sig.stamp(**headers)` raises nothing. -/
def Merges (headers : StampDict) (s : Stampable) : Prop := MergesAs .own headers s

end Stampable

section Raises

/-- A step that returns is followed by one that does. -/
theorem isSome_bind_iff {α β : Type} {o : Option α} {f : α → Option β} :
    (o.bind f).isSome = true ↔ o.isSome = true ∧ ∀ a, o = some a → (f a).isSome = true := by
  cases o with
  | none => simp
  | some a => simp

/-- The same, where it does not matter what the first one returns. -/
theorem isSome_bind_iff_and {α β : Type} {o : Option α} {f : α → Option β} {P : Prop}
    (h : ∀ a, (f a).isSome = true ↔ P) : (o.bind f).isSome = true ↔ o.isSome = true ∧ P := by
  cases o with
  | none => simp
  | some a => simp [h a]

mutual

/-- **When `_merge_dictionaries` raises nothing.** -/
theorem isSome_merge_iff : ∀ v v' : StampValue, (v.merge v').isSome = true ↔ v.Merges v'
  | .dict d, v' => by
    rw [StampValue.merge, StampValue.Merges]
    cases v'.truthy with
    | false => simp
    | true =>
      cases v'.entries? with
      | none => simp
      | some d' => simp [isSome_mergeCommon_iff d d']
  | .list vs, .list vs' => by simp [StampValue.merge, StampValue.Merges]
  | .list vs, .scalar .. => by simp [StampValue.merge, StampValue.Merges]
  | .list vs, .dict .. => by simp [StampValue.merge, StampValue.Merges]
  | .scalar .., _ => by simp [StampValue.merge, StampValue.Merges]

theorem isSome_mergeCommon_iff : ∀ d d' : List (String × StampValue),
    (StampValue.mergeCommon d d').isSome = true ↔ StampValue.MergesCommon d d'
  | [], d' => by simp [StampValue.mergeCommon, StampValue.MergesCommon]
  | (k, v) :: d, d' => by
    rw [StampValue.mergeCommon, StampValue.MergesCommon,
      isSome_bind_iff_and fun v => by rw [Option.isSome_map, isSome_mergeCommon_iff d d']]
    refine and_congr_left fun _ => ?_
    cases d'.lookup k with
    | none => simp
    | some v' => simp [isSome_merge_iff v v']

end

theorem isSome_stampHeaders_iff {headers options : StampDict} :
    (headers.stampHeaders options).isSome = true ↔ headers.Merges options := by
  rw [StampDict.stampHeaders, Option.isSome_map, mergeDictionaries, Option.isSome_map,
    isSome_mergeCommon_iff, StampDict.Merges]

open Stampable

mutual

/-- **When stamping raises nothing.** -/
theorem isSome_stampAs_iff : ∀ (s : Stampable) (held : Held) (headers : StampDict),
    (stampAs held headers s).isSome = true ↔ MergesAs held headers s
  | .task plain options link linkError, held, headers => by
    rw [stampAs, MergesAs, isSome_bind_iff_and fun _ => isSome_bind_iff_and fun _ => by
      rw [Option.isSome_map, isSome_stampHeaders_iff], isSome_stampLinks_iff link,
      isSome_stampLinks_iff linkError]
  | .chain plain tasks options link linkError, held, headers => by
    rw [stampAs, MergesAs, isSome_bind_iff, isSome_stampHeaders_iff]
    refine and_congr_right fun _ => forall₂_congr fun merged _ => ?_
    rw [isSome_bind_iff_and fun _ => isSome_bind_iff_and fun _ => by
      rw [Option.isSome_map, isSome_stampMembers_iff tasks], isSome_stampLinks_iff link,
      isSome_stampLinks_iff linkError]
  | .group plain tasks options link linkError, held, headers => by
    rw [stampAs, MergesAs, isSome_bind_iff, isSome_stampHeaders_iff]
    refine and_congr_right fun _ => forall₂_congr fun merged _ => ?_
    rw [isSome_bind_iff_and fun _ => isSome_bind_iff_and fun _ => by
      rw [Option.isSome_map, isSome_stampMembers_iff tasks], isSome_stampLinks_iff link,
      isSome_stampLinks_iff linkError]
  | .chord plain header body options link linkError, held, headers => by
    rw [stampAs, MergesAs, isSome_bind_iff, isSome_stampHeaders_iff]
    refine and_congr_right fun _ => forall₂_congr fun merged _ => ?_
    rw [isSome_bind_iff_and fun _ => isSome_bind_iff_and fun _ => by
      rw [Option.isSome_map, isSome_stampMembers_iff header], isSome_stampLinks_iff link,
      isSome_stampLinks_iff linkError]

theorem isSome_stampMembers_iff : ∀ (ss : List Stampable) (held : Held) (place : Place)
    (plain : Bool) (headers : StampDict),
    (stampMembers held place plain headers ss).isSome = true ↔
      MergesMembers held place plain headers ss
  | [], held, place, plain, headers => by simp [stampMembers, MergesMembers]
  | s :: ss, held, place, plain, headers => by
    rw [stampMembers, MergesMembers]
    cases held.member plain s.plain place with
    | none => simp
    | some member =>
      rw [Option.bind_some, isSome_bind_iff, isSome_stampAs_iff s]
      simp only [Option.isSome_map, isSome_stampMembers_iff ss, Option.some.injEq,
        exists_eq_left']

theorem isSome_stampLinks_iff : ∀ (ss : List Stampable) (held : Held) (headers : StampDict),
    (stampLinks held headers ss).isSome = true ↔ MergesLinks held headers ss
  | [], held, headers => by simp [stampLinks, MergesLinks]
  | s :: ss, held, headers => by
    rw [stampLinks, MergesLinks, isSome_bind_iff, isSome_stampAs_iff s]
    simp only [Option.isSome_map, isSome_stampLinks_iff ss]

end

end Raises

/-! ## What is handed on -/

/-- The headers are among the entries, and listed as stamps. -/
def StampDict.Carries (names : List String) (options : StampDict) : Prop :=
  ∀ name ∈ names, name ∈ options.entries.map Prod.fst ∧ name ∈ options.stampedHeaders.getD []

/-- The headers are among those handed on. -/
def StampDict.Hands (names : List String) (headers : StampDict) : Prop :=
  ∀ name ∈ names, name ∈ headers.entries.map Prod.fst ∧ name ∈ headers.listed

section Headers

variable {names : List String} {headers options merged : StampDict}

theorem keys_mergeCommon : ∀ (d d' : List (String × StampValue)) {common},
    StampValue.mergeCommon d d' = some common → common.map Prod.fst = d.map Prod.fst
  | [], _, common, h => by
    rw [StampValue.mergeCommon] at h
    rw [← Option.some.inj h]
  | (k, v) :: d, d', common, h => by
    rw [StampValue.mergeCommon] at h
    obtain ⟨v', -, h⟩ := Option.bind_eq_some_iff.mp h
    obtain ⟨rest, hrest, rfl⟩ := Option.map_eq_some_iff.mp h
    rw [List.map_cons, List.map_cons, keys_mergeCommon d d' hrest]

/-- Merging keeps the headers, and puts others behind them. -/
theorem keys_stampHeaders (h : headers.stampHeaders options = some merged) :
    headers.entries.map Prod.fst <+: merged.entries.map Prod.fst := by
  obtain ⟨entries, hentries, rfl⟩ := Option.map_eq_some_iff.mp h
  obtain ⟨common, hcommon, rfl⟩ := Option.map_eq_some_iff.mp hentries
  rw [List.map_append, keys_mergeCommon _ _ hcommon]
  exact List.prefix_append _ _

theorem keys_handBack {entries : List (String × StampValue)}
    (h : headers.entries.map Prod.fst <+: entries.map Prod.fst) :
    (headers.handBack entries).entries.map Prod.fst = headers.entries.map Prod.fst := by
  rw [StampDict.handBack, List.map_take, List.prefix_iff_eq_take.mp h, List.length_map]

theorem mem_keys_dictUpdate {name : String} {d d' : List (String × StampValue)}
    (h : name ∈ d.map Prod.fst ∨ name ∈ d'.map Prod.fst) :
    name ∈ (dictUpdate d d').map Prod.fst := by
  induction d' generalizing d with
  | nil => exact h.resolve_right List.not_mem_nil
  | cons entry d' ih =>
    refine ih ?_
    rw [List.map_cons, List.mem_cons] at h
    rcases h with h | rfl | h
    · exact Or.inl (mem_dictSet (Or.inr h))
    · exact Or.inl (mem_dictSet (Or.inl rfl))
    · exact Or.inr h

/-- What is given is handed on. -/
theorem StampDict.hands_stamps (headers : StampDict) : headers.Hands headers.stamps := by
  intro name hname
  obtain ⟨hkey, hlisted⟩ := List.mem_filter.mp hname
  exact ⟨hkey, of_decide_eq_true hlisted⟩

theorem StampDict.Hands.stampHeadersOnly (h : headers.Hands names) :
    headers.stampHeadersOnly.Hands names := h

theorem StampDict.Hands.stampHeaders (h : headers.Hands names)
    (hmerged : headers.stampHeaders options = some merged) : merged.Hands names := by
  intro name hname
  refine ⟨(keys_stampHeaders hmerged).subset (h name hname).1, ?_⟩
  obtain ⟨entries, -, rfl⟩ := Option.map_eq_some_iff.mp hmerged
  exact List.mem_union_iff.mpr (.inl (h name hname).2)

theorem StampDict.Hands.handBack (h : headers.Hands names)
    {entries : List (String × StampValue)}
    (hkeys : headers.entries.map Prod.fst <+: entries.map Prod.fst) :
    (headers.handBack entries).Hands names := by
  intro name hname
  rw [StampDict.listed, keys_handBack hkeys]
  exact h name hname

/-- **A task that is stamped carries the headers.** -/
theorem StampDict.Hands.carries_update (h : headers.Hands names)
    (hmerged : headers.stampHeaders options = some merged) :
    (options.update merged).Carries names := by
  intro name hname
  obtain ⟨hentry, hlisted⟩ := h.stampHeaders hmerged name hname
  obtain ⟨entries, -, rfl⟩ := Option.map_eq_some_iff.mp hmerged
  exact ⟨mem_keys_dictUpdate (Or.inr hentry), hlisted⟩

end Headers

/-! ## What is reached -/

section Reach

open Stampable

variable {names : List String}

/-- The tasks of a list of signatures carry the headers if and only if those of another do. -/
def SameCarried (names : List String) (xs ys : List StampDict) : Prop :=
  (∀ options ∈ xs, options.Carries names) ↔ ∀ options ∈ ys, options.Carries names

theorem SameCarried.append {xs ys xs' ys' : List StampDict} (h : SameCarried names xs ys)
    (h' : SameCarried names xs' ys') : SameCarried names (xs ++ xs') (ys ++ ys') := by
  rw [SameCarried, List.forall_mem_append, List.forall_mem_append]
  exact and_congr h h'

theorem tasks_asSignature (s : Stampable) : s.asSignature.tasks = s.tasks := by
  cases s <;> rfl

theorem tasksOfAll_asSignature (ss : List Stampable) :
    tasksOfAll (ss.map asSignature) = tasksOfAll ss := by
  induction ss with
  | nil => rfl
  | cons s ss ih => rw [List.map_cons, tasksOfAll, tasksOfAll, tasks_asSignature, ih]

/-- What stamping a signature does: the headers are still there, and its tasks carry them if and
only if those that are not reached do. -/
structure Reaches (names : List String) (headers : StampDict)
    (entries : List (String × StampValue)) (tasks unreached : List StampDict) : Prop where
  keys : headers.entries.map Prod.fst <+: entries.map Prod.fst
  same : SameCarried names tasks unreached

mutual

/-- **Stamping reaches all tasks but those in the body of a chord, and those of which a copy is
stamped.** -/
theorem reaches_stampAs : ∀ (s : Stampable) {held : Held} {headers : StampDict}
    {stamped : Stamped}, headers.Hands names → stampAs held headers s = some stamped →
    Reaches names headers stamped.2 stamped.1.tasks (unreachedAs held s)
  | .task plain options link linkError, held, headers, stamped, hands, h => by
    rw [stampAs] at h
    obtain ⟨link', hlink, h⟩ := Option.bind_eq_some_iff.mp h
    obtain ⟨linkError', hlinkError, h⟩ := Option.bind_eq_some_iff.mp h
    obtain ⟨merged, hmerged, rfl⟩ := Option.map_eq_some_iff.mp h
    refine ⟨keys_stampHeaders hmerged, ?_⟩
    rw [Stampable.tasks, unreachedAs, ← List.singleton_append]
    refine SameCarried.append ?_ ((sameCarried_stampLinks link hands hlink).append
      (sameCarried_stampLinks linkError hands hlinkError))
    by_cases hown : held = .own
    · rw [if_pos hown, if_pos hown]
      refine iff_of_true (fun o ho => ?_) nofun
      exact List.mem_singleton.mp ho ▸ hands.carries_update hmerged
    · rw [if_neg hown, if_neg hown]
      exact Iff.rfl
  | .chain plain tasks options link linkError, held, headers, stamped, hands, h => by
    rw [stampAs] at h
    obtain ⟨merged, hmerged, h⟩ := Option.bind_eq_some_iff.mp h
    obtain ⟨link', hlink, h⟩ := Option.bind_eq_some_iff.mp h
    obtain ⟨linkError', hlinkError, h⟩ := Option.bind_eq_some_iff.mp h
    obtain ⟨members, hmembers, rfl⟩ := Option.map_eq_some_iff.mp h
    have hands := hands.stampHeaders hmerged
    obtain ⟨hkeys, hsame⟩ := reaches_stampMembers tasks hands hmembers
    refine ⟨(keys_stampHeaders hmerged).trans hkeys, ?_⟩
    rw [Stampable.tasks, unreachedAs]
    exact hsame.append ((sameCarried_stampLinks link hands hlink).append
      (sameCarried_stampLinks linkError hands hlinkError))
  | .group plain tasks options link linkError, held, headers, stamped, hands, h => by
    rw [stampAs] at h
    obtain ⟨merged, hmerged, h⟩ := Option.bind_eq_some_iff.mp h
    obtain ⟨link', hlink, h⟩ := Option.bind_eq_some_iff.mp h
    obtain ⟨linkError', hlinkError, h⟩ := Option.bind_eq_some_iff.mp h
    obtain ⟨members, hmembers, rfl⟩ := Option.map_eq_some_iff.mp h
    have hands := hands.stampHeaders hmerged
    obtain ⟨hkeys, hsame⟩ := reaches_stampMembers tasks hands hmembers
    refine ⟨(keys_stampHeaders hmerged).trans hkeys, ?_⟩
    rw [Stampable.tasks, unreachedAs, apply_ite tasksOfAll, tasksOfAll_asSignature, ite_self]
    exact hsame.append ((sameCarried_stampLinks link hands hlink).append
      (sameCarried_stampLinks linkError hands hlinkError))
  | .chord plain header body options link linkError, held, headers, stamped, hands, h => by
    rw [stampAs] at h
    obtain ⟨merged, hmerged, h⟩ := Option.bind_eq_some_iff.mp h
    obtain ⟨link', hlink, h⟩ := Option.bind_eq_some_iff.mp h
    obtain ⟨linkError', hlinkError, h⟩ := Option.bind_eq_some_iff.mp h
    obtain ⟨members, hmembers, rfl⟩ := Option.map_eq_some_iff.mp h
    have hands := hands.stampHeaders hmerged
    obtain ⟨hkeys, hsame⟩ := reaches_stampMembers header hands hmembers
    refine ⟨(keys_stampHeaders hmerged).trans hkeys, ?_⟩
    rw [Stampable.tasks, unreachedAs]
    exact (hsame.append Iff.rfl).append ((sameCarried_stampLinks link hands hlink).append
      (sameCarried_stampLinks linkError hands hlinkError))

theorem reaches_stampMembers : ∀ (ss : List Stampable) {held : Held} {place : Place}
    {plain : Bool} {headers : StampDict}
    {stamped : List Stampable × List (String × StampValue)}, headers.Hands names →
    stampMembers held place plain headers ss = some stamped →
    Reaches names headers stamped.2 (tasksOfAll stamped.1)
      (unreachedOfMembers held place plain ss)
  | [], held, place, plain, headers, stamped, _, h => by
    rw [stampMembers] at h
    obtain rfl := Option.some.inj h
    exact ⟨List.prefix_rfl, by rw [unreachedOfMembers]; exact Iff.rfl⟩
  | s :: ss, held, place, plain, headers, stamped, hands, h => by
    rw [stampMembers] at h
    obtain ⟨member, hmember, h⟩ := Option.bind_eq_some_iff.mp h
    obtain ⟨one, hone, h⟩ := Option.bind_eq_some_iff.mp h
    obtain ⟨rest, hrest, rfl⟩ := Option.map_eq_some_iff.mp h
    obtain ⟨hkeys, hsame⟩ := reaches_stampAs s hands hone
    obtain ⟨hkeys', hsame'⟩ := reaches_stampMembers ss (hands.handBack hkeys) hrest
    refine ⟨keys_handBack hkeys ▸ hkeys', ?_⟩
    rw [tasksOfAll, unreachedOfMembers, hmember, Option.getD_some]
    exact hsame.append hsame'

theorem sameCarried_stampLinks : ∀ (ss : List Stampable) {held : Held} {headers : StampDict}
    {stamped : List Stampable}, headers.Hands names →
    stampLinks held headers ss = some stamped →
    SameCarried names (tasksOfAll stamped) (unreachedOfLinks held ss)
  | [], held, headers, stamped, _, h => by
    rw [stampLinks] at h
    rw [← Option.some.inj h, unreachedOfLinks]
    exact Iff.rfl
  | s :: ss, held, headers, stamped, hands, h => by
    rw [stampLinks] at h
    obtain ⟨one, hone, h⟩ := Option.bind_eq_some_iff.mp h
    obtain ⟨rest, hrest, rfl⟩ := Option.map_eq_some_iff.mp h
    obtain ⟨hkeys, hsame⟩ := reaches_stampAs s hands.stampHeadersOnly hone
    rw [tasksOfAll, unreachedOfLinks]
    exact hsame.append
      (sameCarried_stampLinks ss (hands.stampHeadersOnly.handBack hkeys) hrest)

end

/-- `chord([add.s()], tsum.s())`. -/
def plainChord : Stampable :=
  .chord false [.task false {} [] []] (some (.task false {} [] [])) {} [] []

/-- A clone of `add.s()`, with a callback `chord([add.s()])` without a body. -/
def clonedCallback : Stampable :=
  .task false {} [.chord true [.task false {} [] []] none {} [] []] []

/-- `add.s()`, which has the stamp `value`. -/
def stampedTask : Stampable :=
  .task false { entries := [("stamp", .scalar "value" true)], stampedHeaders := some ["stamp"] }
    [] []

/-- One task without options is enough. -/
theorem not_carried {headers : StampDict} {names : List String} {s stamped : Stampable}
    (h : s.stamp headers = some stamped) (hmem : {} ∈ stamped.tasks) (hne : names ≠ []) :
    ¬ ∃ stamped, s.stamp headers = some stamped ∧
      ∀ options ∈ stamped.tasks, options.Carries names := by
  rintro ⟨other, hother, hcarries⟩
  obtain rfl := Option.some.inj (h.symm.trans hother)
  obtain ⟨name, hname⟩ := List.exists_mem_of_ne_nil names hne
  cases (hcarries {} hmem name hname).1

end Reach

end Canvas
end Celery
