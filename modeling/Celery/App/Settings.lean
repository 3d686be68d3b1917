/-
# Settings under their old and their new names

`ConfigurationView` in `celery/utils/collections.py` (lines 358–448), and `detect_settings` in
`celery/app/utils.py` (lines 242–304) over the tables of `celery/app/defaults.py` (lines 382–418).

Every option has an old and a new name.  The user's configuration is taken to be in the format
that most of its settings are in, what was set before it was read is converted to that format, and
a lookup tries the other name as well.  So whatever the format is, both names of an option read
the same, unless the user's configuration has the option under both (`get?_detectSettings`).  The
settings that stand in the way of a format are those of the other that have no counterpart
(`detectSettings_eq_error_iff`).
-/

import Celery.Library.OrderedDict

namespace Celery
namespace Configuration

/-! ## The options -/

/-- An option, under its old and its new key. -/
structure Option_ (V : Type) where
  oldKey : String
  newKey : String
  default : V

/-- `__compat`: no two options share a key. -/
structure Options (V : Type) where
  compat : List (Option_ V)
  nodup_old : (compat.map Option_.oldKey).Nodup
  nodup_new : (compat.map Option_.newKey).Nodup
  disjoint : ∀ o ∈ compat, ∀ p ∈ compat, o.oldKey ≠ p.newKey

namespace Options

variable {V : Type} (c : Options V)

/-- A dict with an entry for each option. -/
def table {A : Type} (key : Option_ V → String) (value : Option_ V → A)
    (h : (c.compat.map key).Nodup) : OrderedDict String A :=
  ⟨c.compat.map fun o => (key o, value o), by rw [List.map_map]; exact h⟩

/-- `DEFAULTS`. -/
def DEFAULTS : OrderedDict String V := c.table Option_.newKey Option_.default c.nodup_new

/-- `_OLD_DEFAULTS`. -/
def OLD_DEFAULTS : OrderedDict String V := c.table Option_.oldKey Option_.default c.nodup_old

/-- `_TO_OLD_KEY`. -/
def TO_OLD_KEY : OrderedDict String String := c.table Option_.newKey Option_.oldKey c.nodup_new

/-- `_TO_NEW_KEY`. -/
def TO_NEW_KEY : OrderedDict String String := c.table Option_.oldKey Option_.newKey c.nodup_old

/-- `_new_key_to_old`. -/
def newKeyToOld (key : String) : String := (c.TO_OLD_KEY.get? key).getD key

/-- `_old_key_to_new`. -/
def oldKeyToNew (key : String) : String := (c.TO_NEW_KEY.get? key).getD key

end Options

/-! ## A view of configuration dictionaries -/

/-- What a lookup raises. -/
inductive KeyError
  | key (key : String)
  | withPrefix (key prefixed : String)
  deriving DecidableEq

/-- `ConfigurationView`, with `""` for the prefix `None`. -/
structure ConfigurationView (V : Type) where
  changes : OrderedDict String V
  defaults : List (OrderedDict String V)
  prefix_ : String
  keys : List (String → String)

/-- `match_case`. -/
def matchCase (s other : String) : String :=
  if other.any Char.isUpper && !other.any Char.isLower then s.toUpper else s.toLower

namespace ConfigurationView

/-- The prefix as the view keeps it, with one underscore at its end. -/
def normalPrefix (prefix_ : String) : String :=
  if prefix_ = "" then ""
  else String.ofList (prefix_.toList.reverse.dropWhile (· = '_')).reverse ++ "_"

variable {V : Type} (v : ConfigurationView V)

/-- `maps`. -/
def maps : List (OrderedDict String V) := v.changes :: v.defaults

/-- `_to_keys`. -/
def toKeys (key : String) : List String :=
  (if v.prefix_ = "" then [key]
    else [matchCase (if key.startsWith v.prefix_ then key else v.prefix_ ++ key) v.prefix_, key]) ++
  v.keys.map fun f => f key

/-- What a lookup finds: the first of the keys in the first of the maps that has one. -/
def get? (key : String) : Option V :=
  v.maps.findSome? fun mapping => (v.toKeys key).findSome? mapping.get?

/-- `__getitem__`. -/
def getItem (key : String) : Except KeyError V :=
  match v.get? key with
  | some value => .ok value
  | none =>
    match v.prefix_, v.toKeys key with
    | "", _ => .error (.key key)
    | _, k₀ :: k₁ :: _ => .error (.withPrefix k₁ k₀)
    | _, _ => .error (.key key)

/-- `__contains__`. -/
def contains (key : String) : Bool :=
  (v.toKeys key).any fun k => v.maps.any fun mapping => (mapping.get? k).isSome

/-- **Membership agrees with lookups.** -/
theorem contains_eq_isSome (key : String) : v.contains key = (v.get? key).isSome := by
  rw [Bool.eq_iff_iff, get?, List.findSome?_isSome_iff]
  simp only [contains, List.any_eq_true, List.findSome?_isSome_iff]
  constructor
  · rintro ⟨k, hk, d, hd, h⟩
    exact ⟨d, hd, k, hk, h⟩
  · rintro ⟨d, hd, k, hk, h⟩
    exact ⟨k, hk, d, hd, h⟩

/-- `__setitem__`. -/
def setItem (key : String) (value : V) : ConfigurationView V :=
  { v with changes := v.changes.set key value }

/-- `clear`. -/
def clear : ConfigurationView V := { v with changes := .empty }

/-- `add_defaults`. -/
def addDefaults (d : OrderedDict String V) : ConfigurationView V :=
  { v with defaults := d :: v.defaults }

end ConfigurationView

/-! ## The format of a configuration -/

/-- `FMT_REPLACE_SETTING`. -/
def formatReplace (replace with_ : String) : String := replace.rightpad 36 ' ' ++ " -> " ++ with_

/-- `E_MIX_OLD_INTO_NEW`. -/
def E_MIX_OLD_INTO_NEW (renames : String) : String :=
  "\n\nCannot mix new and old setting keys, please rename the\n" ++
  "following settings to the new format:\n\n" ++ renames ++ "\n\n"

/-- `E_MIX_NEW_INTO_OLD`. -/
def E_MIX_NEW_INTO_OLD (renames : String) : String :=
  "\n\nCannot mix new setting names with old setting names, please\n" ++
  "rename the following settings to use the old format:\n\n" ++ renames ++
  "\n\nOr change all of the settings to use the new format :)\n\n"

/-- `settings_info`. -/
structure Info (V : Type) where
  defaults : OrderedDict String V
  convert : OrderedDict String String
  mixError : String → String

/-- `Settings`. -/
structure Settings (V : Type) extends ConfigurationView V where
  deprecatedSettings : List String

/-- `ImproperlyConfigured`, with its message. -/
structure ImproperlyConfigured where
  message : String
  deriving DecidableEq

namespace Options

variable {V : Type} (c : Options V)

/-- `_settings_info`. -/
def settingsInfo : Info V := ⟨c.DEFAULTS, c.TO_NEW_KEY, E_MIX_OLD_INTO_NEW⟩

/-- `_old_settings_info`. -/
def oldSettingsInfo : Info V := ⟨c.OLD_DEFAULTS, c.TO_OLD_KEY, E_MIX_NEW_INTO_OLD⟩

/-- The settings that are there under a new name, and those that are there under an old one:
`is_in_new` and `is_in_old`. -/
def isIn (keys : OrderedDict String V) (have_ : List String) : List String :=
  have_.filter fun k => k ∈ keys.keys

/-- The format to use, and what is there in the other: `info` and `left`. -/
def chooseInfo (isInNew isInOld : List String) : Info V × List String :=
  let info := if isInNew = [] then none
    else if isInOld ≠ [] ∧ isInNew.length < isInOld.length then
      some (c.oldSettingsInfo, isInNew)
    else some (c.settingsInfo, isInOld)
  if isInOld = [] then (c.settingsInfo, isInOld)
  else if isInNew ≠ [] ∧ isInOld.length < isInNew.length then (c.settingsInfo, isInOld)
  else info.getD (c.oldSettingsInfo, isInNew)

/-- The same where there may be a prefix, with which the new format is used. -/
def chosenInfo (have_ : List String) (prefix_ : String) : Info V × List String :=
  if prefix_ = "" then c.chooseInfo (isIn c.DEFAULTS have_) (isIn c.OLD_DEFAULTS have_)
  else (c.settingsInfo, [])

/-- Those of `left` that have no counterpart, sorted, each with its counterpart: `really_left`. -/
def reallyLeft (chosen : Info V × List String) (have_ : List String) : List (String × String) :=
  ((chosen.2.filter fun k =>
      (chosen.1.convert.get? k).any fun k' => k' ∉ have_).mergeSort).filterMap
    fun k => (chosen.1.convert.get? k).map (k, ·)

/-- `{info.convert.get(k, k): v for k, v in preconf.items()}`. -/
def convertKeys (info : Info V) (preconf : OrderedDict String V) : OrderedDict String V :=
  .ofItems (preconf.items.map fun e => ((info.convert.get? e.1).getD e.1, e.2))

/-- The names of the settings that the format is detected by: `have`. -/
def haveKeys (source : OrderedDict String V) (ignoreKeys : List String) : List String :=
  source.keys.filter fun k => k ∉ ignoreKeys

/-- `detect_settings`. -/
def detectSettings (conf : Option (OrderedDict String V)) (preconf : OrderedDict String V)
    (ignoreKeys : List String) (prefix_ : String) : Except ImproperlyConfigured (Settings V) :=
  let have_ := haveKeys (conf.getD preconf) ignoreKeys
  let chosen := c.chosenInfo have_ prefix_
  if reallyLeft chosen have_ = [] then
    .ok { changes := convertKeys chosen.1 preconf
          defaults := [conf.getD .empty, chosen.1.defaults]
          prefix_ := ConfigurationView.normalPrefix prefix_
          keys := [c.oldKeyToNew, c.newKeyToOld]
          deprecatedSettings := isIn c.OLD_DEFAULTS have_ }
  else .error ⟨chosen.1.mixError ("\n".intercalate
    ((reallyLeft chosen have_).map fun e => formatReplace e.1 e.2))⟩

end Options

/-! ## The two names of an option -/

namespace Options

variable {V A : Type} (c : Options V)

theorem get?_table {key : Option_ V → String} {value : Option_ V → A}
    (h : (c.compat.map key).Nodup) {o : Option_ V} (ho : o ∈ c.compat) :
    (c.table key value h).get? (key o) = some (value o) :=
  OrderedDict.get?_of_mem (List.mem_map_of_mem ho)

theorem get?_table_eq_none {key : Option_ V → String} {value : Option_ V → A}
    (h : (c.compat.map key).Nodup) {k : String} (hk : ∀ o ∈ c.compat, key o ≠ k) :
    (c.table key value h).get? k = none := by
  rw [Option.eq_none_iff_forall_ne_some]
  intro a ha
  obtain ⟨o, ho, heq⟩ := List.mem_map.mp (OrderedDict.mem_of_get? ha)
  exact hk o ho (Prod.mk.inj heq).1

variable {o : Option_ V}

theorem oldKeyToNew_oldKey (ho : o ∈ c.compat) : c.oldKeyToNew o.oldKey = o.newKey := by
  rw [oldKeyToNew, TO_NEW_KEY, c.get?_table _ ho, Option.getD_some]

theorem newKeyToOld_newKey (ho : o ∈ c.compat) : c.newKeyToOld o.newKey = o.oldKey := by
  rw [newKeyToOld, TO_OLD_KEY, c.get?_table _ ho, Option.getD_some]

theorem oldKeyToNew_newKey (ho : o ∈ c.compat) : c.oldKeyToNew o.newKey = o.newKey := by
  rw [oldKeyToNew, TO_NEW_KEY, c.get?_table_eq_none _ fun p hp => c.disjoint p hp o ho,
    Option.getD_none]

theorem newKeyToOld_oldKey (ho : o ∈ c.compat) : c.newKeyToOld o.oldKey = o.oldKey := by
  rw [newKeyToOld, TO_OLD_KEY, c.get?_table_eq_none _ fun p hp => (c.disjoint o ho p hp).symm,
    Option.getD_none]

/-- A key is one of those of an option, or that of none. -/
theorem key_cases (k : String) :
    (∃ o ∈ c.compat, k = o.oldKey ∨ k = o.newKey) ∨
      c.oldKeyToNew k = k ∧ c.newKeyToOld k = k := by
  by_cases h : ∃ o ∈ c.compat, k = o.oldKey ∨ k = o.newKey
  · exact .inl h
  · refine .inr ⟨?_, ?_⟩
    · rw [oldKeyToNew, TO_NEW_KEY, c.get?_table_eq_none _ fun o ho heq => h ⟨o, ho, .inl heq.symm⟩,
        Option.getD_none]
    · rw [newKeyToOld, TO_OLD_KEY, c.get?_table_eq_none _ fun o ho heq => h ⟨o, ho, .inr heq.symm⟩,
        Option.getD_none]

theorem oldKeyToNew_oldKeyToNew (k : String) :
    c.oldKeyToNew (c.oldKeyToNew k) = c.oldKeyToNew k := by
  obtain ⟨o, ho, rfl | rfl⟩ | ⟨hnew, -⟩ := c.key_cases k
  · rw [c.oldKeyToNew_oldKey ho, c.oldKeyToNew_newKey ho]
  · rw [c.oldKeyToNew_newKey ho, c.oldKeyToNew_newKey ho]
  · rw [hnew, hnew]

theorem oldKeyToNew_newKeyToOld (k : String) :
    c.oldKeyToNew (c.newKeyToOld k) = c.oldKeyToNew k := by
  obtain ⟨o, ho, rfl | rfl⟩ | ⟨-, hold⟩ := c.key_cases k
  · rw [c.newKeyToOld_oldKey ho]
  · rw [c.newKeyToOld_newKey ho, c.oldKeyToNew_oldKey ho, c.oldKeyToNew_newKey ho]
  · rw [hold]

/-- Keys with the same new name have the same old name. -/
theorem newKeyToOld_congr {k l : String} (h : c.oldKeyToNew k = c.oldKeyToNew l) :
    c.newKeyToOld k = c.newKeyToOld l := by
  have hnew : ∀ k, c.newKeyToOld (c.oldKeyToNew k) = c.newKeyToOld k := by
    intro k
    obtain ⟨o, ho, rfl | rfl⟩ | ⟨hnew, -⟩ := c.key_cases k
    · rw [c.oldKeyToNew_oldKey ho, c.newKeyToOld_newKey ho, c.newKeyToOld_oldKey ho]
    · rw [c.oldKeyToNew_newKey ho]
    · rw [hnew]
  rw [← hnew k, h, hnew]

/-- The keys under which a lookup of `key` looks, where there is no prefix. -/
def names (key : String) : List String := [key, c.oldKeyToNew key, c.newKeyToOld key]

theorem oldKeyToNew_of_mem_names {k l : String} (h : k ∈ c.names l) :
    c.oldKeyToNew k = c.oldKeyToNew l := by
  rw [names, List.mem_cons, List.mem_pair] at h
  obtain rfl | rfl | rfl := h
  · rfl
  · exact c.oldKeyToNew_oldKeyToNew l
  · exact c.oldKeyToNew_newKeyToOld l

theorem mem_names_iff {k l : String} :
    k ∈ c.names l ↔ c.oldKeyToNew k = c.oldKeyToNew l := by
  refine ⟨c.oldKeyToNew_of_mem_names, fun h => ?_⟩
  have hk : k = c.oldKeyToNew k ∨ k = c.newKeyToOld k := by
    obtain ⟨o, ho, rfl | rfl⟩ | ⟨hnew, -⟩ := c.key_cases k
    · exact .inr (c.newKeyToOld_oldKey ho).symm
    · exact .inl (c.oldKeyToNew_newKey ho).symm
    · exact .inl hnew.symm
  rw [names, ← h, ← c.newKeyToOld_congr h, List.mem_cons, List.mem_pair]
  exact .inr hk

/-- What a dict has under one of the names of a key. -/
def under (d : OrderedDict String V) (key : String) : Option V := (c.names key).findSome? d.get?

theorem under_newKey (d : OrderedDict String V) (ho : o ∈ c.compat) :
    c.under d o.newKey = (d.get? o.newKey).or (d.get? o.oldKey) := by
  rw [under, names, c.oldKeyToNew_newKey ho, c.newKeyToOld_newKey ho]
  simp only [List.findSome?_cons, List.findSome?_nil]
  cases d.get? o.newKey with
  | some v => rfl
  | none => cases d.get? o.oldKey <;> rfl

theorem under_oldKey (d : OrderedDict String V) (ho : o ∈ c.compat) :
    c.under d o.oldKey = (d.get? o.oldKey).or (d.get? o.newKey) := by
  rw [under, names, c.oldKeyToNew_oldKey ho, c.newKeyToOld_oldKey ho]
  simp only [List.findSome?_cons, List.findSome?_nil]
  cases d.get? o.oldKey with
  | some v => rfl
  | none => cases d.get? o.newKey <;> rfl

/-- Both formats convert a key to one of its names, and the names of an option to the same. -/
structure Converts (convert : String → String) : Prop where
  mem : ∀ k, convert k ∈ c.names k
  congr : ∀ {k l}, c.oldKeyToNew k = c.oldKeyToNew l → convert k = convert l

theorem converts_oldKeyToNew : c.Converts c.oldKeyToNew where
  mem _ := List.mem_cons_of_mem _ List.mem_cons_self
  congr h := h

theorem converts_newKeyToOld : c.Converts c.newKeyToOld where
  mem _ := List.mem_cons_of_mem _ (List.mem_cons_of_mem _ List.mem_cons_self)
  congr := c.newKeyToOld_congr

omit c in
/-- Where all that is found is the same, that is found. -/
theorem findSome?_eq_some_of_mem {K : Type} {f : K → Option V} {keys : List K} {k : K} {v : V}
    (hk : k ∈ keys) (hv : f k = some v) (h : ∀ l ∈ keys, f l = none ∨ f l = some v) :
    keys.findSome? f = some v := by
  induction keys with
  | nil => exact absurd hk List.not_mem_nil
  | cons l keys ih =>
    rw [List.findSome?_cons]
    obtain hl | hl := h l List.mem_cons_self
    · rw [hl]
      refine ih ?_ fun l hl => h l (List.mem_cons_of_mem _ hl)
      obtain rfl | hk := List.mem_cons.mp hk
      · rw [hl] at hv
        cases hv
      · exact hk
    · rw [hl]

/-- **Conversion keeps what there is under a key**: of the items of the option that it names, the
last. -/
theorem under_convertKeys {info : Info V}
    (h : c.Converts fun k => (info.convert.get? k).getD k) (preconf : OrderedDict String V)
    (k : String) :
    c.under (convertKeys info preconf) k =
      (preconf.items.reverse.find? fun e => c.oldKeyToNew e.1 = c.oldKeyToNew k).map
        Prod.snd := by
  have hget : ∀ l, (convertKeys info preconf).get? l =
      (preconf.items.reverse.find? fun e => (info.convert.get? e.1).getD e.1 = l).map
        Prod.snd := by
    intro l
    rw [convertKeys, OrderedDict.get?_ofItems, ← List.map_reverse, List.find?_map,
      Option.map_map]
    rfl
  -- what is converted to a name of `k` is a key of its option
  have hname : ∀ l l', l' ∈ c.names k → (info.convert.get? l).getD l = l' →
      c.oldKeyToNew l = c.oldKeyToNew k := by
    rintro l l' hl' rfl
    rw [← c.oldKeyToNew_of_mem_names hl']
    exact (c.oldKeyToNew_of_mem_names (h.mem l)).symm
  have hlast : (convertKeys info preconf).get? ((info.convert.get? k).getD k) =
      (preconf.items.reverse.find? fun e => c.oldKeyToNew e.1 = c.oldKeyToNew k).map
        Prod.snd := by
    rw [hget]
    refine congrArg (fun p => (List.find? p _).map Prod.snd) (funext fun e => ?_)
    exact decide_eq_decide.mpr ⟨hname e.1 _ (h.mem k), fun heq => h.congr heq⟩
  cases hfind : preconf.items.reverse.find? fun e => c.oldKeyToNew e.1 = c.oldKeyToNew k with
  | none =>
    rw [List.find?_eq_none] at hfind
    rw [Option.map_none, under, List.findSome?_eq_none_iff]
    intro l hl
    rw [hget, Option.map_eq_none_iff, List.find?_eq_none]
    intro e he heq
    exact hfind e he (decide_eq_true (hname e.1 l hl (of_decide_eq_true heq)))
  | some e =>
    rw [hfind] at hlast
    refine findSome?_eq_some_of_mem (h.mem k) hlast fun l hl => ?_
    cases hv : (convertKeys info preconf).get? l with
    | none => exact .inl rfl
    | some v =>
      obtain ⟨e', he', -⟩ := Option.map_eq_some_iff.mp ((hget l).symm.trans hv)
      have heq : (info.convert.get? e'.1).getD e'.1 = l := by simpa using List.find?_some he'
      have hk : l = (info.convert.get? k).getD k := heq ▸ h.congr (hname e'.1 l hl heq)
      exact .inr (hv.symm.trans (hk ▸ hlast))

/-- What the defaults of either format have under a key: the default of its option. -/
theorem under_defaults {key : Option_ V → String} (h : (c.compat.map key).Nodup)
    (hmem : ∀ o ∈ c.compat, key o = o.oldKey ∨ key o = o.newKey) (ho : o ∈ c.compat) {k : String}
    (hk : k = o.oldKey ∨ k = o.newKey) :
    c.under (c.table key Option_.default h) k = some o.default := by
  have hnew : c.oldKeyToNew k = o.newKey := by
    obtain rfl | rfl := hk
    · exact c.oldKeyToNew_oldKey ho
    · exact c.oldKeyToNew_newKey ho
  have hold : c.newKeyToOld k = o.oldKey := by
    obtain rfl | rfl := hk
    · exact c.newKeyToOld_oldKey ho
    · exact c.newKeyToOld_newKey ho
  have hnames : ∀ p ∈ c.compat, key p ∈ c.names k → p = o := by
    intro p hp hkey
    have hp' : c.oldKeyToNew (key p) = p.newKey := by
      obtain heq | heq := hmem p hp
      · rw [heq, c.oldKeyToNew_oldKey hp]
      · rw [heq, c.oldKeyToNew_newKey hp]
    refine List.inj_on_of_nodup_map c.nodup_new hp ho ?_
    rw [← hp', ← hnew]
    exact c.oldKeyToNew_of_mem_names hkey
  have hkey : key o ∈ c.names k := by
    rw [names, hnew, hold]
    obtain heq | heq := hmem o ho <;> simp [heq]
  refine findSome?_eq_some_of_mem hkey (c.get?_table h ho) fun l hl => ?_
  cases hv : (c.table key Option_.default h).get? l with
  | none => exact .inl rfl
  | some v =>
    obtain ⟨p, hp, heq⟩ := List.mem_map.mp (OrderedDict.mem_of_get? hv)
    obtain ⟨rfl, rfl⟩ := Prod.mk.inj heq
    rw [hnames p hp hl]
    exact .inr rfl

/-- What the defaults have under a key that is none of an option. -/
theorem under_table_eq_none {key : Option_ V → String} (h : (c.compat.map key).Nodup)
    (hmem : ∀ o ∈ c.compat, key o = o.oldKey ∨ key o = o.newKey) {k : String}
    (hk : ∀ o ∈ c.compat, k ≠ o.oldKey ∧ k ≠ o.newKey) :
    c.under (c.table key Option_.default h) k = none := by
  have hnone : c.oldKeyToNew k = k ∧ c.newKeyToOld k = k := by
    obtain ⟨o, ho, heq⟩ | hnone := c.key_cases k
    · exact absurd heq (not_or.mpr (hk o ho))
    · exact hnone
  rw [under, names, hnone.1, hnone.2, List.findSome?_eq_none_iff]
  intro l hl
  obtain rfl : l = k := by simpa using hl
  refine c.get?_table_eq_none h fun o ho heq => ?_
  obtain heq' | heq' := hmem o ho
  · exact (hk o ho).1 (heq.symm.trans heq')
  · exact (hk o ho).2 (heq.symm.trans heq')

/-- The defaults are the same in both formats. -/
theorem under_OLD_DEFAULTS (k : String) : c.under c.OLD_DEFAULTS k = c.under c.DEFAULTS k := by
  by_cases h : ∃ o ∈ c.compat, k = o.oldKey ∨ k = o.newKey
  · obtain ⟨o, ho, hk⟩ := h
    rw [OLD_DEFAULTS, DEFAULTS, c.under_defaults _ (fun _ _ => .inl rfl) ho hk,
      c.under_defaults _ (fun _ _ => .inr rfl) ho hk]
  · have hk : ∀ o ∈ c.compat, k ≠ o.oldKey ∧ k ≠ o.newKey := fun o ho =>
      not_or.mp fun heq => h ⟨o, ho, heq⟩
    rw [OLD_DEFAULTS, DEFAULTS, c.under_table_eq_none _ (fun _ _ => .inl rfl) hk,
      c.under_table_eq_none _ (fun _ _ => .inr rfl) hk]

/-- The formats. -/
def IsFormat (info : Info V) : Prop := info = c.settingsInfo ∨ info = c.oldSettingsInfo

theorem isFormat_chooseInfo (isInNew isInOld : List String) :
    c.IsFormat (c.chooseInfo isInNew isInOld).1 := by
  rw [chooseInfo]
  split_ifs
  all_goals first | exact .inl rfl | exact .inr rfl

theorem isFormat_chosenInfo (have_ : List String) (prefix_ : String) :
    c.IsFormat (c.chosenInfo have_ prefix_).1 := by
  rw [chosenInfo]
  split
  · exact c.isFormat_chooseInfo _ _
  · exact .inl rfl

variable {c} {info : Info V}

theorem IsFormat.converts (h : c.IsFormat info) :
    c.Converts fun k => (info.convert.get? k).getD k := by
  obtain rfl | rfl := h
  · exact c.converts_oldKeyToNew
  · exact c.converts_newKeyToOld

theorem IsFormat.under_defaults (h : c.IsFormat info) (k : String) :
    c.under info.defaults k = c.under c.DEFAULTS k := by
  obtain rfl | rfl := h
  · rfl
  · exact c.under_OLD_DEFAULTS k

variable {conf preconf : OrderedDict String V} {ignoreKeys : List String} {settings : Settings V}

/-- What `detect_settings` makes of a configuration that it accepts. -/
theorem exists_of_detectSettings
    (h : c.detectSettings (some conf) preconf ignoreKeys "" = .ok settings) :
    ∃ info, c.IsFormat info ∧ settings.toConfigurationView =
      ⟨convertKeys info preconf, [conf, info.defaults], "", [c.oldKeyToNew, c.newKeyToOld]⟩ := by
  rw [detectSettings] at h
  split at h
  next =>
    obtain rfl := Except.ok.inj h
    exact ⟨_, c.isFormat_chosenInfo _ _, rfl⟩
  next => cases h

variable (c)

/-! ## The settings that stand in the way -/

theorem mem_isIn_table {key : Option_ V → String} {value : Option_ V → V}
    (h : (c.compat.map key).Nodup) {have_ : List String} {k : String} :
    k ∈ isIn (c.table key value h) have_ ↔ k ∈ have_ ∧ ∃ o ∈ c.compat, key o = k := by
  rw [isIn, List.mem_filter, decide_eq_true_eq]
  have hkeys : (c.table key value h).keys = c.compat.map key := List.map_map ..
  rw [hkeys, List.mem_map]

/-- **What the message names**: the settings in the way, each with its counterpart. -/
theorem mem_reallyLeft_iff {chosen : Info V × List String} {have_ : List String} {k k' : String} :
    (k, k') ∈ reallyLeft chosen have_ ↔
      k ∈ chosen.2 ∧ chosen.1.convert.get? k = some k' ∧ k' ∉ have_ := by
  rw [reallyLeft, List.mem_filterMap]
  constructor
  · rintro ⟨l, hl, heq⟩
    obtain ⟨l', hl', heq'⟩ := Option.map_eq_some_iff.mp heq
    obtain ⟨rfl, rfl⟩ := Prod.mk.inj heq'
    obtain ⟨hleft, hany⟩ := List.mem_filter.mp (List.mem_mergeSort.mp hl)
    rw [hl', Option.any_some, decide_eq_true_eq] at hany
    exact ⟨hleft, hl', hany⟩
  · rintro ⟨hleft, hk', hnot⟩
    refine ⟨k, List.mem_mergeSort.mpr (List.mem_filter.mpr ⟨hleft, ?_⟩), by rw [hk']; rfl⟩
    rw [hk', Option.any_some]
    exact decide_eq_true hnot

/-- The format that is chosen is that of most of the settings. -/
theorem chooseInfo_eq (isInNew isInOld : List String) :
    c.chooseInfo isInNew isInOld =
      if isInNew.length < isInOld.length then (c.oldSettingsInfo, isInNew)
      else (c.settingsInfo, isInOld) := by
  rw [chooseInfo]
  by_cases hold : isInOld = []
  · rw [if_pos hold, if_neg (by rw [hold]; exact Nat.not_lt_zero _)]
  rw [if_neg hold]
  by_cases hnew : isInNew = []
  · have hlt : isInNew.length < isInOld.length := by
      rw [hnew]
      exact List.length_pos_iff.mpr hold
    rw [if_neg fun h => h.1 hnew, if_pos hnew, if_pos hlt]
    rfl
  · by_cases hlt : isInNew.length < isInOld.length
    · rw [if_neg (fun h => absurd h.2 (by omega)), if_neg hnew, if_pos ⟨hold, hlt⟩, if_pos hlt]
      rfl
    · by_cases hgt : isInOld.length < isInNew.length
      · rw [if_pos ⟨hnew, hgt⟩, if_neg hlt]
      · rw [if_neg (fun h => hgt h.2), if_neg hnew, if_neg (fun h => hlt h.2), if_neg hlt]
        rfl

/-- Which settings are in the way of the format that is chosen. -/
theorem reallyLeft_ne_nil_iff {have_ : List String} {prefix_ : String} :
    reallyLeft (c.chosenInfo have_ prefix_) have_ ≠ [] ↔
      prefix_ = "" ∧ ∃ o ∈ c.compat,
        if (isIn c.DEFAULTS have_).length < (isIn c.OLD_DEFAULTS have_).length then
          o.newKey ∈ have_ ∧ o.oldKey ∉ have_
        else o.oldKey ∈ have_ ∧ o.newKey ∉ have_ := by
  have hmem : reallyLeft (c.chosenInfo have_ prefix_) have_ ≠ [] ↔
      ∃ k k', (k, k') ∈ reallyLeft (c.chosenInfo have_ prefix_) have_ := by
    refine ⟨fun h => ?_, ?_⟩
    · obtain ⟨⟨k, k'⟩, hk⟩ := List.exists_mem_of_ne_nil _ h
      exact ⟨k, k', hk⟩
    · rintro ⟨k, k', hk⟩
      exact List.ne_nil_of_mem hk
  simp only [hmem, mem_reallyLeft_iff]
  rw [chosenInfo]
  by_cases hempty : prefix_ = ""
  · rw [if_pos hempty, chooseInfo_eq]
    simp only [hempty, true_and]
    split
    next =>
      constructor
      · rintro ⟨k, k', hleft, hconvert, hnot⟩
        obtain ⟨hhave, o, ho, rfl⟩ := (c.mem_isIn_table _).mp hleft
        have heq : some k' = some o.oldKey := hconvert.symm.trans (c.get?_table c.nodup_new ho)
        exact ⟨o, ho, hhave, Option.some.inj heq ▸ hnot⟩
      · rintro ⟨o, ho, hhave, hnot⟩
        exact ⟨o.newKey, o.oldKey, (c.mem_isIn_table _).mpr ⟨hhave, o, ho, rfl⟩,
          c.get?_table c.nodup_new ho, hnot⟩
    next =>
      constructor
      · rintro ⟨k, k', hleft, hconvert, hnot⟩
        obtain ⟨hhave, o, ho, rfl⟩ := (c.mem_isIn_table _).mp hleft
        have heq : some k' = some o.newKey := hconvert.symm.trans (c.get?_table c.nodup_old ho)
        exact ⟨o, ho, hhave, Option.some.inj heq ▸ hnot⟩
      · rintro ⟨o, ho, hhave, hnot⟩
        exact ⟨o.oldKey, o.newKey, (c.mem_isIn_table _).mpr ⟨hhave, o, ho, rfl⟩,
          c.get?_table c.nodup_old ho, hnot⟩
  · rw [if_neg hempty]
    constructor
    · rintro ⟨k, k', hleft, -⟩
      exact absurd hleft List.not_mem_nil
    · exact fun h => absurd h.1 hempty

/-- **When old and new settings cannot be mixed**: where there is no prefix, and one of those that
are in the format of fewer is not there in the other as well. -/
theorem detectSettings_eq_error_iff {conf : Option (OrderedDict String V)} {prefix_ : String}
    {have_ : List String} (hhave : have_ = haveKeys (conf.getD preconf) ignoreKeys) :
    (∃ e, c.detectSettings conf preconf ignoreKeys prefix_ = .error e) ↔
      prefix_ = "" ∧ ∃ o ∈ c.compat,
        if (isIn c.DEFAULTS have_).length < (isIn c.OLD_DEFAULTS have_).length then
          o.newKey ∈ have_ ∧ o.oldKey ∉ have_
        else o.oldKey ∈ have_ ∧ o.newKey ∉ have_ := by
  rw [← c.reallyLeft_ne_nil_iff, hhave, detectSettings]
  split
  next h =>
    constructor
    · rintro ⟨e, he⟩
      cases he
    · exact fun hne => absurd h hne
  next h => exact ⟨fun _ => h, fun _ => ⟨_, rfl⟩⟩

/-- An empty configuration is accepted. -/
theorem exists_detectSettings_empty (preconf : OrderedDict String V) : ∃ settings,
    c.detectSettings (some .empty) preconf [] "" = .ok settings := by
  rw [detectSettings]
  refine ⟨_, if_pos ?_⟩
  by_contra hne
  obtain ⟨-, o, -, h⟩ := c.reallyLeft_ne_nil_iff.mp hne
  split at h <;> exact absurd h.1 List.not_mem_nil

/-! ## What is read -/

/-- Where there is no prefix, a lookup looks under the names of the key. -/
theorem get?_eq_findSome? {view : ConfigurationView V} (hempty : view.prefix_ = "")
    (hkeys : view.keys = [c.oldKeyToNew, c.newKeyToOld]) (k : String) :
    view.get? k = view.maps.findSome? fun mapping => c.under mapping k := by
  have hnames : view.toKeys k = c.names k := by
    rw [ConfigurationView.toKeys, if_pos hempty, hkeys]
    rfl
  rw [ConfigurationView.get?, hnames]
  rfl

/-- **Both names of an option read the same**, but for a configuration that has it under both:
what was set first, in whichever format, then the configuration, then the default. -/
theorem get?_detectSettings (ho : o ∈ c.compat)
    (h : c.detectSettings (some conf) preconf ignoreKeys "" = .ok settings) :
    settings.get? o.newKey =
        (((preconf.items.reverse.find? fun e => e.1 = o.oldKey ∨ e.1 = o.newKey).map Prod.snd).or
          ((conf.get? o.newKey).or (conf.get? o.oldKey))).or (some o.default) ∧
      settings.get? o.oldKey =
        (((preconf.items.reverse.find? fun e => e.1 = o.oldKey ∨ e.1 = o.newKey).map Prod.snd).or
          ((conf.get? o.oldKey).or (conf.get? o.newKey))).or (some o.default) := by
  obtain ⟨info, hinfo, hview⟩ := exists_of_detectSettings h
  have hkey : ∀ k, c.oldKeyToNew k = o.newKey ↔ k = o.oldKey ∨ k = o.newKey := by
    intro k
    constructor
    · intro hk
      obtain ⟨p, hp, hp'⟩ | ⟨hnew, -⟩ := c.key_cases k
      · have heq : p.newKey = o.newKey := by
          obtain rfl | rfl := hp'
          · rw [← hk, c.oldKeyToNew_oldKey hp]
          · rw [← hk, c.oldKeyToNew_newKey hp]
        obtain rfl := List.inj_on_of_nodup_map c.nodup_new hp ho heq
        exact hp'
      · exact .inr (hnew.symm.trans hk)
    · rintro (rfl | rfl)
      · exact c.oldKeyToNew_oldKey ho
      · exact c.oldKeyToNew_newKey ho
  have hget : ∀ k, c.oldKeyToNew k = o.newKey → settings.get? k =
      (((preconf.items.reverse.find? fun e => e.1 = o.oldKey ∨ e.1 = o.newKey).map Prod.snd).or
        (c.under conf k)).or (some o.default) := by
    intro k hk
    have hpreconf := c.under_convertKeys hinfo.converts preconf k
    simp only [hk, hkey] at hpreconf
    have hdefault : c.under info.defaults k = some o.default := by
      rw [hinfo.under_defaults]
      exact c.under_defaults _ (fun _ _ => .inr rfl) ho ((hkey k).mp hk)
    rw [hview, c.get?_eq_findSome? rfl rfl, ConfigurationView.maps, List.findSome?_cons,
      List.findSome?_cons, List.findSome?_cons, hpreconf, hdefault]
    cases (preconf.items.reverse.find? fun e => e.1 = o.oldKey ∨ e.1 = o.newKey).map Prod.snd with
    | some v => rfl
    | none => cases c.under conf k <;> rfl
  constructor
  · rw [hget _ (c.oldKeyToNew_newKey ho), c.under_newKey conf ho]
  · rw [hget _ (c.oldKeyToNew_oldKey ho), c.under_oldKey conf ho]

/-- One option. -/
def timezone : Options ℕ where
  compat := [⟨"CELERY_TIMEZONE", "timezone", 0⟩]
  nodup_old := List.nodup_singleton _
  nodup_new := List.nodup_singleton _
  disjoint := by simp

/-- A timezone that was set before the configuration, which is empty. -/
theorem get?_timezone : ∃ settings,
    timezone.detectSettings (some .empty) ⟨[("timezone", 2)], List.nodup_singleton _⟩ [] "" =
        .ok settings ∧
      settings.get? "timezone" = some 2 ∧ settings.get? "CELERY_TIMEZONE" = some 2 := by
  have hmem : (⟨"CELERY_TIMEZONE", "timezone", 0⟩ : Option_ ℕ) ∈ timezone.compat :=
    List.mem_singleton_self _
  obtain ⟨settings, h⟩ := timezone.exists_detectSettings_empty
    ⟨[("timezone", 2)], List.nodup_singleton _⟩
  obtain ⟨hnew, hold⟩ := timezone.get?_detectSettings hmem h
  exact ⟨settings, h, hnew, hold⟩

end Options

end Configuration
end Celery
