/-
# When the configuration of an app is read

`Celery.conf` in `celery/app/base.py` (lines 249–283, 777–824, 1328–1384 and 1666–1671): until a
setting is needed, `app.conf` is a `PendingConfiguration`, which keeps what is set and added.  The
first lookup reads the configuration, detects its format, converts what was set to it, and swaps
the view in place.

To those that always call an option by one of its names, none of this shows: `app.conf` is a store
of four layers, what was set, the defaults that were added, the configuration and the defaults of
the options, of which every lookup gives the first that has the option (`reads_of_run`).  Only two
operations of the store know whether the configuration has been read: `setdefault` does not look
below the first layer before, and a new configuration drops what was set and added since.
-/

import Celery.App.Settings
import Celery.Library.Raising
import Mathlib.Data.List.Find

namespace Celery
namespace Configuration

open Raising

/-! ## The configuration of an app -/

/-- What an access to `app.conf` raises. -/
inductive Error
  | improperlyConfigured (e : ImproperlyConfigured)
  | keyError (e : KeyError)
  | attributeError
  deriving DecidableEq

/-- `_conf`: not there, a `Settings` over a `PendingConfiguration`, or what it was swapped with. -/
inductive Conf (V : Type)
  | unset
  | pending (defaults : List (OrderedDict String V))
  | loaded (settings : ConfigurationView V)

/-- The fields of `Celery` that its configuration is made of.  `source` is what the loader reads. -/
structure App (V : Type) where
  preconf : OrderedDict String V
  preconfSetByAuto : List String
  source : OrderedDict String V
  pendingDefaults : List (OrderedDict String V)
  configured : Bool
  conf : Conf V

namespace App

variable {V : Type} (c : Options V)

/-- `Celery.__init__`. -/
def init (preconf : OrderedDict String V) (preconfSetByAuto : List String)
    (source : OrderedDict String V) : App V :=
  { preconf, preconfSetByAuto, source, pendingDefaults := [], configured := false
    conf := .pending [] }

/-- `_load_config`. -/
def loadConfig : ExceptT Error (StateM (App V)) (ConfigurationView V) := do
  modify fun a => { a with configured := true }
  let a ← get
  match c.detectSettings (some a.source) a.preconf a.preconfSetByAuto "" with
  | .error e => throw (.improperlyConfigured e)
  | .ok settings =>
    let view := a.pendingDefaults.foldl .addDefaults settings.toConfigurationView
    modify fun a => { a with conf := .loaded view, pendingDefaults := [] }
    return view

/-- `conf[key]`. -/
def getItem (key : String) : ExceptT Error (StateM (App V)) V := do
  match (← get).conf with
  | .loaded view => ofExcept ((view.getItem key).mapError .keyError)
  | .unset =>
    let view ← loadConfig c
    ofExcept ((view.getItem key).mapError .keyError)
  | .pending defaults =>
    let view ← loadConfig c
    -- the data of the pending configuration is the settings that it was swapped with
    match (c.names key).findSome? view.get? with
    | some value => return value
    | none =>
      match defaults.findSome? fun d => (c.names key).findSome? d.get? with
      | some value => return value
      | none => throw (.keyError (.key key))

/-- `conf[key] = value`. -/
def setItem (key : String) (value : V) : ExceptT Error (StateM (App V)) PUnit := do
  match (← get).conf with
  | .loaded view => modify fun a => { a with conf := .loaded (view.setItem key value) }
  | .unset =>
    let view ← loadConfig c
    modify fun a => { a with conf := .loaded (view.setItem key value) }
  | .pending _ => modify fun a => { a with preconf := a.preconf.set key value }

/-- `conf.update(items)`. -/
def update (items : List (String × V)) : ExceptT Error (StateM (App V)) PUnit := do
  match (← get).conf with
  | .loaded view =>
    modify fun a =>
      { a with conf := .loaded (items.foldl (fun v e => v.setItem e.1 e.2) view) }
  | .unset =>
    let view ← loadConfig c
    modify fun a =>
      { a with conf := .loaded (items.foldl (fun v e => v.setItem e.1 e.2) view) }
  | .pending _ =>
    modify fun a => { a with preconf := items.foldl (fun d e => d.set e.1 e.2) a.preconf }

/-- `conf.setdefault(key, value)`. -/
def setdefault (key : String) (value : V) : ExceptT Error (StateM (App V)) PUnit := do
  let a ← get
  match a.conf with
  | .loaded view =>
    unless view.contains key do
      modify fun a => { a with conf := .loaded (view.setItem key value) }
  | .unset =>
    let view ← loadConfig c
    unless view.contains key do
      modify fun a => { a with conf := .loaded (view.setItem key value) }
  | .pending defaults =>
    -- what is in the pending configuration is known without reading it
    unless (c.names key).any fun k =>
        (a.preconf :: defaults).any fun mapping => (mapping.get? k).isSome do
      modify fun a => { a with preconf := a.preconf.set key value }

/-- `conf.clear()`. -/
def clear : ExceptT Error (StateM (App V)) PUnit := do
  match (← get).conf with
  | .loaded view => modify fun a => { a with conf := .loaded view.clear }
  | .unset =>
    let view ← loadConfig c
    modify fun a => { a with conf := .loaded view.clear }
  | .pending _ => modify fun a => { a with preconf := .empty }

/-- `Celery.add_defaults`. -/
def addDefaults (d : OrderedDict String V) : ExceptT Error (StateM (App V)) PUnit := do
  let a ← get
  if a.configured then
    match a.conf with
    | .loaded view => modify fun a => { a with conf := .loaded (view.addDefaults d) }
    | .pending defaults => modify fun a => { a with conf := .pending (d :: defaults) }
    | .unset => throw .attributeError
  else modify fun a => { a with pendingDefaults := a.pendingDefaults ++ [d] }

/-- `Celery.config_from_object` of what the loader can read. -/
def configFromObject (source : OrderedDict String V) : ExceptT Error (StateM (App V)) PUnit := do
  modify fun a => { a with source := source }
  if (← get).configured then
    modify fun a => { a with conf := .unset }
    let _ ← loadConfig c

end App

/-- An access to `app.conf`, or a call that changes what it is made of. -/
inductive Event (V : Type)
  | getItem (key : String)
  | setItem (key : String) (value : V)
  | update (items : List (String × V))
  | setdefault (key : String) (value : V)
  | clear
  | addDefaults (d : OrderedDict String V)
  | configFromObject (source : OrderedDict String V)

namespace App

variable {V : Type} (c : Options V)

/-- What an event does, and the value that it returns. -/
def step : Event V → ExceptT Error (StateM (App V)) (Option V)
  | .getItem key => do return some (← getItem c key)
  | .setItem key value => do setItem c key value; return none
  | .update items => do update c items; return none
  | .setdefault key value => do setdefault c key value; return none
  | .clear => do clear c; return none
  | .addDefaults d => do addDefaults d; return none
  | .configFromObject source => do configFromObject c source; return none

/-- What a run of events returns and raises. -/
def run : List (Event V) → App V → List (Except Error (Option V))
  | [], _ => []
  | e :: events, a => (exec (step c e) a).1 :: run events (exec (step c e) a).2

end App

/-! ## The store -/

/-- A store of four layers, of which the last is left out.  `early` is what had been set when the
configuration was read, if it has been. -/
structure Layers (V : Type) where
  early : Option (String → Option V)
  set : String → Option V
  added : String → Option V
  source : String → Option V

namespace Layers

variable {V : Type} (c : Options V) (s : Layers V)

/-- What a lookup gives: the first layer that has the key. -/
def get? (key : String) : Option V :=
  (s.set key).or ((s.added key).or ((s.source key).or (c.under c.DEFAULTS key)))

/-- The configuration is read. -/
def load : Layers V := { s with early := some (s.early.getD s.set) }

/-- The layer after its keys are set. -/
def updates {V : Type} (items : List (String × V)) (set : String → Option V) :
    String → Option V :=
  items.foldl (fun set e => Function.update set e.1 (some e.2)) set

/-- What an event does to the store, and what it returns or raises. -/
def step : Event V → Except Error (Option V) × Layers V
  | .getItem key => (match s.get? c key with
    | some value => .ok (some value)
    | none => .error (.keyError (.key key)), s.load)
  | .setItem key value => (.ok none, { s with set := Function.update s.set key (some value) })
  | .update items => (.ok none, { s with set := updates items s.set })
  | .setdefault key value => (.ok none,
      if (if s.early.isSome then s.get? c key else s.set key).isSome then s
      else { s with set := Function.update s.set key (some value) })
  | .clear => (.ok none, { s with set := fun _ => none })
  | .addDefaults d => (.ok none, { s with added := fun key => (c.under d key).or (s.added key) })
  | .configFromObject source => (.ok none,
      match s.early with
      | none => { s with source := c.under source }
      | some early => { s with set := early, added := fun _ => none, source := c.under source })

/-- What a run of events returns and raises. -/
def run : List (Event V) → Layers V → List (Except Error (Option V))
  | [], _ => []
  | e :: events, s => (s.step c e).1 :: run events (s.step c e).2

end Layers

/-! ## Keys that are of different options -/

/-- Every option is called by one of its names only. -/
def Separate {V : Type} (c : Options V) (U : String → Prop) : Prop :=
  ∀ k l, U k → U l → k ∈ c.names l → k = l

namespace Separate

variable {V : Type} {c : Options V} {U : String → Prop} (hU : Separate c U)

include hU

theorem under_eq_get? {d : OrderedDict String V} (hd : ∀ k ∈ d.keys, U k) {k : String}
    (hk : U k) : c.under d k = d.get? k := by
  rw [Options.under]
  cases hv : d.get? k with
  | some v =>
    refine Options.findSome?_eq_some_of_mem (k := k) List.mem_cons_self hv fun l hl => ?_
    cases hl' : d.get? l with
    | none => exact .inl rfl
    | some w =>
      obtain rfl := hU l k (hd l (OrderedDict.mem_keys_iff.mpr ⟨w, hl'⟩)) hk hl
      exact .inr (hl'.symm.trans hv)
  | none =>
    rw [List.findSome?_eq_none_iff]
    intro l hl
    by_contra hne
    obtain ⟨w, hw⟩ := Option.ne_none_iff_exists'.mp hne
    obtain rfl := hU l k (hd l (OrderedDict.mem_keys_iff.mpr ⟨w, hw⟩)) hk hl
    rw [hv] at hw
    cases hw

/-- Setting a key leaves the other options alone. -/
theorem under_set {d : OrderedDict String V} {key k : String} (hkey : U key) (hk : U k) (v : V) :
    c.under (d.set key v) k = Function.update (c.under d) key (some v) k := by
  by_cases heq : k = key
  · subst heq
    rw [Function.update_self, Options.under, Options.names, List.findSome?_cons,
      OrderedDict.get?_set, if_pos rfl]
  · rw [Function.update_of_ne heq, Options.under, Options.under, ← List.head?_filterMap,
      ← List.head?_filterMap]
    refine congrArg List.head? (List.filterMap_congr fun l hl => ?_)
    rw [OrderedDict.get?_set, if_neg]
    rintro rfl
    exact heq (hU l k hkey hk hl).symm

/-- What was set before the configuration was read is what is there after. -/
theorem under_convertKeys {info : Info V} (hinfo : c.IsFormat info)
    {preconf : OrderedDict String V} (hpreconf : ∀ k ∈ preconf.keys, U k) {k : String}
    (hk : U k) : c.under (Options.convertKeys info preconf) k = preconf.get? k := by
  have hget : preconf.get? k =
      (preconf.items.reverse.find? fun e => e.1 = k).map Prod.snd := by
    rw [← OrderedDict.get?_ofItems, OrderedDict.get?, OrderedDict.get?,
      OrderedDict.items_ofItems preconf.nodup]
  rw [c.under_convertKeys hinfo.converts, hget]
  refine congrArg (Option.map Prod.snd) (List.find?_congr fun e he => ?_)
  have he' : U e.1 := hpreconf _ (List.mem_map_of_mem (List.mem_reverse.mp he))
  refine decide_eq_decide.mpr ⟨fun heq => ?_, fun heq => congrArg _ heq⟩
  exact hU _ _ he' hk (c.mem_names_iff.mpr heq)

end Separate

theorem get?_set_eq_update {V : Type} (d : OrderedDict String V) (key : String) (v : V) :
    (d.set key v).get? = Function.update d.get? key (some v) := by
  funext k
  rw [OrderedDict.get?_set]
  by_cases h : k = key
  · rw [if_pos h, h, Function.update_self]
  · rw [if_neg h, Function.update_of_ne h]

theorem get?_foldl_set {V : Type} (items : List (String × V)) (d : OrderedDict String V) :
    (items.foldl (fun d e => d.set e.1 e.2) d).get? = Layers.updates items d.get? := by
  induction items generalizing d with
  | nil => rfl
  | cons e items ih =>
    rw [List.foldl_cons, ih, get?_set_eq_update]
    rfl

theorem forall_keys_set {V : Type} {U : String → Prop} {d : OrderedDict String V}
    (hd : ∀ k ∈ d.keys, U k) {key : String} (hkey : U key) (v : V) :
    ∀ k ∈ (d.set key v).keys, U k := by
  intro k hk
  rw [OrderedDict.keys_set] at hk
  split at hk
  · exact hd k hk
  · obtain hk | hk := List.mem_append.mp hk
    · exact hd k hk
    · exact List.mem_singleton.mp hk ▸ hkey

theorem forall_keys_foldl_set {V : Type} {U : String → Prop} {items : List (String × V)}
    (hitems : ∀ e ∈ items, U e.1) {d : OrderedDict String V} (hd : ∀ k ∈ d.keys, U k) :
    ∀ k ∈ (items.foldl (fun d e => d.set e.1 e.2) d).keys, U k := by
  induction items generalizing d with
  | nil => exact hd
  | cons e items ih =>
    obtain ⟨he, hitems⟩ := List.forall_mem_cons.mp hitems
    exact ih hitems (forall_keys_set hd he e.2)

theorem update_congr {V : Type} {U : String → Prop} {f g : String → Option V}
    (h : ∀ k, U k → f k = g k) (key : String) (v : Option V) :
    ∀ k, U k → Function.update f key v k = Function.update g key v k := by
  intro k hk
  by_cases heq : k = key
  · rw [heq, Function.update_self, Function.update_self]
  · rw [Function.update_of_ne heq, Function.update_of_ne heq, h k hk]

theorem updates_congr {V : Type} {U : String → Prop} (items : List (String × V))
    {f g : String → Option V} (h : ∀ k, U k → f k = g k) :
    ∀ k, U k → Layers.updates items f k = Layers.updates items g k := by
  induction items generalizing f g with
  | nil => exact h
  | cons e items ih => exact ih (update_congr h e.1 (some e.2))

/-! ## The app and the store -/

/-- A configuration in which old and new settings are not mixed. -/
def Accepts {V : Type} (c : Options V) (ignoreKeys : List String)
    (source : OrderedDict String V) : Prop :=
  ∀ preconf, ∃ settings, c.detectSettings (some source) preconf ignoreKeys "" = .ok settings

/-- The keys of an event are those that options are called by, and its configuration can be
read. -/
def Event.Allowed {V : Type} (c : Options V) (ignoreKeys : List String) (U : String → Prop) :
    Event V → Prop
  | .getItem key => U key
  | .setItem key _ => U key
  | .update items => ∀ e ∈ items, U e.1
  | .setdefault key _ => U key
  | .clear => True
  | .addDefaults _ => True
  | .configFromObject source => Accepts c ignoreKeys source

/-- The settings that an app has read: what was set, what was added, and the rest. -/
structure IsLoaded {V : Type} (c : Options V) (U : String → Prop)
    (source : OrderedDict String V) (set added : String → Option V)
    (view : ConfigurationView V) : Prop where
  prefix_ : view.prefix_ = ""
  keys : view.keys = [c.oldKeyToNew, c.newKeyToOld]
  changes : ∀ k, U k → c.under view.changes k = set k
  defaults : ∃ ds info, c.IsFormat info ∧ view.defaults = ds ++ [source, info.defaults] ∧
    ∀ k, U k → ds.findSome? (c.under · k) = added k

/-- The state of an app, before and after its configuration is read, and that of the store. -/
inductive Stage {V : Type} (c : Options V) (U : String → Prop) (a : App V) (s : Layers V) : Prop
  | pending (hconf : a.conf = .pending []) (hconfigured : a.configured = false)
      (hearly : s.early = none) (hset : ∀ k, U k → s.set k = a.preconf.get? k)
      (hadded : ∀ k, U k → a.pendingDefaults.reverse.findSome? (c.under · k) = s.added k)
  | loaded (view : ConfigurationView V) (early : String → Option V) (hconf : a.conf = .loaded view)
      (hconfigured : a.configured = true) (hpending : a.pendingDefaults = [])
      (hearly : s.early = some early) (hearlier : ∀ k, U k → early k = a.preconf.get? k)
      (hview : IsLoaded c U a.source s.set s.added view)

/-- **The app refines the store.** -/
structure Refines {V : Type} (c : Options V) (ignoreKeys : List String) (U : String → Prop)
    (a : App V) (s : Layers V) : Prop where
  auto : a.preconfSetByAuto = ignoreKeys
  preconf : ∀ k ∈ a.preconf.keys, U k
  accepts : Accepts c ignoreKeys a.source
  source : s.source = c.under a.source
  stage : Stage c U a s

theorem foldl_addDefaults {V : Type} (ds : List (OrderedDict String V))
    (view : ConfigurationView V) :
    ds.foldl .addDefaults view = { view with defaults := ds.reverse ++ view.defaults } := by
  induction ds generalizing view with
  | nil => rfl
  | cons d ds ih =>
    rw [List.foldl_cons, ih, List.reverse_cons, List.append_assoc]
    rfl

variable {V : Type} {c : Options V} {ignoreKeys : List String} {U : String → Prop}
  {a : App V} {s : Layers V} {view : ConfigurationView V} {source : OrderedDict String V}
  {set added : String → Option V}

namespace App

/-- **What `_load_config` leaves** where the configuration is accepted. -/
theorem exec_loadConfig (h : Accepts c a.preconfSetByAuto a.source) :
    ∃ view info, c.IsFormat info ∧ view = ⟨Options.convertKeys info a.preconf,
        a.pendingDefaults.reverse ++ [a.source, info.defaults], "",
        [c.oldKeyToNew, c.newKeyToOld]⟩ ∧
      exec (loadConfig c) a =
        (.ok view, { a with configured := true, conf := .loaded view, pendingDefaults := [] }) := by
  obtain ⟨settings, hsettings⟩ := h a.preconf
  obtain ⟨info, hinfo, hview⟩ := Options.exists_of_detectSettings hsettings
  refine ⟨_, info, hinfo, rfl, ?_⟩
  rw [loadConfig, exec_bind, exec_modify]
  dsimp only
  rw [exec_bind, exec_get]
  dsimp only
  rw [hsettings]
  dsimp only
  rw [exec_bind, exec_modify, hview, foldl_addDefaults]
  rfl

end App

namespace IsLoaded

variable (h : IsLoaded c U source set added view)

include h

/-- A lookup goes through the layers. -/
theorem get?_eq {k : String} (hk : U k) :
    view.get? k = (set k).or ((added k).or ((c.under source k).or (c.under c.DEFAULTS k))) := by
  obtain ⟨ds, info, hinfo, hdefaults, hadded⟩ := h.defaults
  rw [c.get?_eq_findSome? h.prefix_ h.keys, ConfigurationView.maps, List.findSome?_cons,
    h.changes k hk, hdefaults, List.findSome?_append, hadded k hk, List.findSome?_cons,
    List.findSome?_cons, List.findSome?_nil, hinfo.under_defaults]
  cases set k with
  | some v => rfl
  | none =>
    cases added k with
    | some v => rfl
    | none =>
      cases c.under source k with
      | some v => rfl
      | none => cases c.under c.DEFAULTS k <;> rfl

theorem getItem_eq (k : String) :
    view.getItem k = (view.get? k).elim (.error (.key k)) .ok := by
  rw [ConfigurationView.getItem, h.prefix_]
  cases view.get? k <;> rfl

theorem setItem (hU : Separate c U) {key : String} (hkey : U key) (v : V) :
    IsLoaded c U source (Function.update set key (some v)) added (view.setItem key v) where
  prefix_ := h.prefix_
  keys := h.keys
  changes k hk := (hU.under_set hkey hk v).trans (update_congr h.changes key (some v) k hk)
  defaults := h.defaults

theorem update (hU : Separate c U) {items : List (String × V)} (hitems : ∀ e ∈ items, U e.1) :
    IsLoaded c U source (Layers.updates items set) added
      (items.foldl (fun v e => v.setItem e.1 e.2) view) := by
  induction items generalizing set view with
  | nil => exact h
  | cons e items ih =>
    obtain ⟨he, hitems⟩ := List.forall_mem_cons.mp hitems
    exact ih (h.setItem hU he e.2) hitems

theorem clear : IsLoaded c U source (fun _ => none) added view.clear where
  prefix_ := h.prefix_
  keys := h.keys
  changes _ _ := List.findSome?_eq_none_iff.mpr fun _ _ => rfl
  defaults := h.defaults

theorem addDefaults (d : OrderedDict String V) :
    IsLoaded c U source set (fun key => (c.under d key).or (added key)) (view.addDefaults d) where
  prefix_ := h.prefix_
  keys := h.keys
  changes := h.changes
  defaults := by
    obtain ⟨ds, info, hinfo, hdefaults, hadded⟩ := h.defaults
    refine ⟨d :: ds, info, hinfo, congrArg (d :: ·) hdefaults, fun k hk => ?_⟩
    rw [List.findSome?_cons, ← hadded k hk]
    cases c.under d k <;> rfl

end IsLoaded

/-- The names of a key all find the same. -/
theorem IsLoaded.findSome?_names (h : IsLoaded c U source set added view) (key : String) :
    (c.names key).findSome? view.get? = view.get? key := by
  cases hv : view.get? key with
  | some v => rw [Options.names, List.findSome?_cons, hv]
  | none =>
    have hget := c.get?_eq_findSome? h.prefix_ h.keys
    rw [hget, List.findSome?_eq_none_iff] at hv
    refine List.findSome?_eq_none_iff.mpr fun l hl => ?_
    rw [hget, List.findSome?_eq_none_iff]
    intro d hd
    have hnone := List.findSome?_eq_none_iff.mp (hv d hd)
    refine List.findSome?_eq_none_iff.mpr fun m hm => hnone m ?_
    rw [c.mem_names_iff] at hl hm ⊢
    exact hm.trans hl

/-- What has just been read. -/
theorem isLoaded_convertKeys (hU : Separate c U) {info : Info V} (hinfo : c.IsFormat info)
    {preconf : OrderedDict String V} (hpreconf : ∀ k ∈ preconf.keys, U k)
    {ds : List (OrderedDict String V)} (hset : ∀ k, U k → set k = preconf.get? k)
    (hadded : ∀ k, U k → ds.findSome? (c.under · k) = added k) :
    IsLoaded c U source set added ⟨Options.convertKeys info preconf,
      ds ++ [source, info.defaults], "", [c.oldKeyToNew, c.newKeyToOld]⟩ where
  prefix_ := rfl
  keys := rfl
  changes k hk := (hU.under_convertKeys hinfo hpreconf hk).trans (hset k hk).symm
  defaults := ⟨ds, info, hinfo, rfl, hadded⟩

namespace Refines

variable (hU : Separate c U) (h : Refines c ignoreKeys U a s)

include h

/-- Reading the configuration. -/
theorem load (hU : Separate c U) (hconf : a.conf = .pending []) : ∃ view,
    exec (App.loadConfig c) a =
        (.ok view, { a with configured := true, conf := .loaded view, pendingDefaults := [] }) ∧
      IsLoaded c U a.source s.set s.added view ∧
      Refines c ignoreKeys U
        { a with configured := true, conf := .loaded view, pendingDefaults := [] } s.load := by
  cases h.stage with
  | loaded view early hconf' =>
    rw [hconf] at hconf'
    cases hconf'
  | pending _ hconfigured hearly hset hadded =>
    obtain ⟨view, info, hinfo, hview, hexec⟩ := App.exec_loadConfig (h.auto ▸ h.accepts)
    have hloaded : IsLoaded c U a.source s.set s.added view :=
      hview ▸ isLoaded_convertKeys hU hinfo h.preconf hset hadded
    refine ⟨view, hexec, hloaded, h.auto, h.preconf, h.accepts, h.source, ?_⟩
    refine .loaded view s.set rfl rfl rfl ?_ hset hloaded
    rw [Layers.load, hearly]
    rfl

/-- A lookup in the settings is one in the store. -/
theorem get?_view (hview : IsLoaded c U a.source s.set s.added view) {k : String} (hk : U k) :
    view.get? k = s.get? c k := by
  rw [hview.get?_eq hk, Layers.get?, h.source]

theorem getItem (hU : Separate c U) {key : String} (hkey : U key) :
    (exec (App.step c (.getItem key)) a).1 = (s.step c (.getItem key)).1 ∧
      Refines c ignoreKeys U (exec (App.step c (.getItem key)) a).2
        (s.step c (.getItem key)).2 := by
  rw [App.step, App.getItem]
  simp only [bind_assoc]
  rw [exec_bind, exec_get]
  dsimp only
  cases h.stage with
  | loaded view early hconf hconfigured hpending hearly hearlier hview =>
    have hload : s.load = s := by
      rw [Layers.load, hearly]
      obtain ⟨_, _, _, _⟩ := s
      exact congrArg (Layers.mk · _ _ _) hearly.symm
    rw [hconf]
    dsimp only
    rw [exec_bind, exec_ofExcept, hview.getItem_eq, h.get?_view hview hkey, Layers.step, hload]
    cases s.get? c key with
    | some v => exact ⟨rfl, h⟩
    | none => exact ⟨rfl, h⟩
  | pending hconf hconfigured hearly hset hadded =>
    obtain ⟨view, hexec, hview, hrefines⟩ := h.load hU hconf
    rw [hconf]
    dsimp only
    rw [exec_bind, exec_bind, hexec]
    dsimp only
    rw [hview.findSome?_names, h.get?_view hview hkey, Layers.step]
    cases s.get? c key with
    | some v => exact ⟨rfl, hrefines⟩
    | none => exact ⟨rfl, hrefines⟩

/-- The state after setting a key of an option before the configuration is read. -/
theorem set_preconf (hconf : a.conf = .pending []) {key : String} (hkey : U key) (value : V) :
    Refines c ignoreKeys U { a with preconf := a.preconf.set key value }
      { s with set := Function.update s.set key (some value) } := by
  cases h.stage with
  | loaded view early hconf' =>
    rw [hconf] at hconf'
    cases hconf'
  | pending _ hconfigured hearly hset hadded =>
    refine ⟨h.auto, forall_keys_set h.preconf hkey value, h.accepts, h.source,
      .pending hconf hconfigured hearly (fun k hk => ?_) hadded⟩
    rw [get?_set_eq_update]
    exact update_congr hset key (some value) k hk

theorem setItem (hU : Separate c U) {key : String} (hkey : U key) (value : V) :
    (exec (App.step c (.setItem key value)) a).1 = (s.step c (.setItem key value)).1 ∧
      Refines c ignoreKeys U (exec (App.step c (.setItem key value)) a).2
        (s.step c (.setItem key value)).2 := by
  rw [App.step, App.setItem]
  simp only [bind_assoc]
  rw [exec_bind, exec_get]
  dsimp only
  cases h.stage with
  | loaded view early hconf hconfigured hpending hearly hearlier hview =>
    rw [hconf]
    dsimp only
    rw [exec_bind, exec_modify]
    exact ⟨rfl, h.auto, h.preconf, h.accepts, h.source, .loaded _ early rfl hconfigured hpending
      hearly hearlier (hview.setItem hU hkey value)⟩
  | pending hconf =>
    rw [hconf]
    dsimp only
    rw [exec_bind, exec_modify]
    exact ⟨rfl, h.set_preconf hconf hkey value⟩

theorem update (hU : Separate c U) {items : List (String × V)} (hitems : ∀ e ∈ items, U e.1) :
    (exec (App.step c (.update items)) a).1 = (s.step c (.update items)).1 ∧
      Refines c ignoreKeys U (exec (App.step c (.update items)) a).2
        (s.step c (.update items)).2 := by
  rw [App.step, App.update]
  simp only [bind_assoc]
  rw [exec_bind, exec_get]
  dsimp only
  cases h.stage with
  | loaded view early hconf hconfigured hpending hearly hearlier hview =>
    rw [hconf]
    dsimp only
    rw [exec_bind, exec_modify]
    exact ⟨rfl, h.auto, h.preconf, h.accepts, h.source, .loaded _ early rfl hconfigured hpending
      hearly hearlier (hview.update hU hitems)⟩
  | pending hconf hconfigured hearly hset hadded =>
    rw [hconf]
    dsimp only
    rw [exec_bind, exec_modify]
    refine ⟨rfl, h.auto, forall_keys_foldl_set hitems h.preconf, h.accepts, h.source,
      .pending hconf hconfigured hearly (fun k hk => ?_) hadded⟩
    exact (updates_congr items hset k hk).trans (congrFun (get?_foldl_set items a.preconf).symm k)

theorem setdefault (hU : Separate c U) {key : String} (hkey : U key) (value : V) :
    (exec (App.step c (.setdefault key value)) a).1 = (s.step c (.setdefault key value)).1 ∧
      Refines c ignoreKeys U (exec (App.step c (.setdefault key value)) a).2
        (s.step c (.setdefault key value)).2 := by
  rw [App.step, App.setdefault]
  simp only [bind_assoc]
  rw [exec_bind, exec_get]
  dsimp only
  cases h.stage with
  | loaded view early hconf hconfigured hpending hearly hearlier hview =>
    rw [hconf]
    dsimp only
    rw [view.contains_eq_isSome, h.get?_view hview hkey, Layers.step, hearly]
    simp only [Option.isSome_some, ↓reduceIte]
    by_cases hsome : (s.get? c key).isSome
    · rw [if_pos hsome, if_pos hsome]
      exact ⟨rfl, h⟩
    · rw [if_neg hsome, if_neg hsome, exec_bind, exec_modify]
      exact ⟨rfl, h.auto, h.preconf, h.accepts, h.source, .loaded _ early rfl hconfigured hpending
        rfl hearlier (hview.setItem hU hkey value)⟩
  | pending hconf hconfigured hearly hset hadded =>
    rw [hconf]
    dsimp only
    have hany : ((c.names key).any fun k =>
        [a.preconf].any fun mapping => (mapping.get? k).isSome) = (s.set key).isSome := by
      rw [hset key hkey, ← hU.under_eq_get? h.preconf hkey, Options.under, Bool.eq_iff_iff,
        List.findSome?_isSome_iff]
      simp
    rw [hany, Layers.step, hearly]
    simp only [Option.isSome_none, Bool.false_eq_true, ↓reduceIte]
    by_cases hsome : (s.set key).isSome
    · rw [if_pos hsome, if_pos hsome]
      exact ⟨rfl, h⟩
    · have hrefines := h.set_preconf hconf hkey value
      rw [hearly] at hrefines
      rw [if_neg hsome, if_neg hsome, exec_bind, exec_modify]
      exact ⟨rfl, hrefines⟩

theorem clear :
    (exec (App.step c .clear) a).1 = (s.step c .clear).1 ∧
      Refines c ignoreKeys U (exec (App.step c .clear) a).2 (s.step c .clear).2 := by
  rw [App.step, App.clear]
  simp only [bind_assoc]
  rw [exec_bind, exec_get]
  dsimp only
  cases h.stage with
  | loaded view early hconf hconfigured hpending hearly hearlier hview =>
    rw [hconf]
    dsimp only
    rw [exec_bind, exec_modify]
    exact ⟨rfl, h.auto, h.preconf, h.accepts, h.source, .loaded _ early rfl hconfigured hpending
      hearly hearlier hview.clear⟩
  | pending hconf hconfigured hearly hset hadded =>
    rw [hconf]
    dsimp only
    rw [exec_bind, exec_modify]
    exact ⟨rfl, h.auto, fun k hk => absurd hk List.not_mem_nil, h.accepts, h.source,
      .pending hconf hconfigured hearly (fun _ _ => rfl) hadded⟩

theorem addDefaults (d : OrderedDict String V) :
    (exec (App.step c (.addDefaults d)) a).1 = (s.step c (.addDefaults d)).1 ∧
      Refines c ignoreKeys U (exec (App.step c (.addDefaults d)) a).2
        (s.step c (.addDefaults d)).2 := by
  rw [App.step, App.addDefaults]
  simp only [bind_assoc]
  rw [exec_bind, exec_get]
  dsimp only
  cases h.stage with
  | loaded view early hconf hconfigured hpending hearly hearlier hview =>
    rw [if_pos hconfigured, hconf]
    dsimp only
    rw [exec_bind, exec_modify]
    exact ⟨rfl, h.auto, h.preconf, h.accepts, h.source, .loaded _ early rfl hconfigured hpending
      hearly hearlier (hview.addDefaults d)⟩
  | pending hconf hconfigured hearly hset hadded =>
    rw [if_neg (by rw [hconfigured]; exact Bool.false_ne_true), exec_bind, exec_modify]
    refine ⟨rfl, h.auto, h.preconf, h.accepts, h.source,
      .pending hconf hconfigured hearly hset fun k hk => ?_⟩
    show (a.pendingDefaults ++ [d]).reverse.findSome? (c.under · k) =
      (c.under d k).or (s.added k)
    rw [List.reverse_concat, List.findSome?_cons, hadded k hk]
    cases c.under d k <;> rfl

/-- A new configuration. -/
theorem configFromObject (hU : Separate c U) {source : OrderedDict String V}
    (hsource : Accepts c ignoreKeys source) :
    (exec (App.step c (.configFromObject source)) a).1 =
        (s.step c (.configFromObject source)).1 ∧
      Refines c ignoreKeys U (exec (App.step c (.configFromObject source)) a).2
        (s.step c (.configFromObject source)).2 := by
  rw [App.step, App.configFromObject]
  simp only [bind_assoc]
  rw [exec_bind, exec_modify]
  dsimp only
  rw [exec_bind, exec_get]
  dsimp only
  cases h.stage with
  | loaded view early hconf hconfigured hpending hearly hearlier hview =>
    rw [if_pos hconfigured]
    simp only [bind_assoc]
    rw [exec_bind, exec_modify]
    dsimp only
    have haccepts : Accepts c a.preconfSetByAuto source := h.auto ▸ hsource
    obtain ⟨view', info, hinfo, hview', hexec⟩ := App.exec_loadConfig
      (a := { a with source := source, conf := .unset }) haccepts
    rw [exec_bind, hexec, Layers.step, hearly]
    have hloaded : IsLoaded c U source early (fun _ => none) view' := by
      rw [hview']
      refine isLoaded_convertKeys hU hinfo h.preconf hearlier fun k _ => ?_
      rw [hpending]
      rfl
    exact ⟨rfl, h.auto, h.preconf, hsource, rfl, .loaded view' early rfl rfl rfl rfl hearlier
      hloaded⟩
  | pending hconf hconfigured hearly hset hadded =>
    rw [if_neg (by rw [hconfigured]; exact Bool.false_ne_true), exec_bind, exec_pure]
    rw [Layers.step, hearly]
    exact ⟨rfl, h.auto, h.preconf, hsource, rfl, .pending hconf hconfigured rfl hset hadded⟩

/-- **Every event does to the app what it does to the store.** -/
theorem step (hU : Separate c U) {e : Event V} (he : e.Allowed c ignoreKeys U) :
    (exec (App.step c e) a).1 = (s.step c e).1 ∧
      Refines c ignoreKeys U (exec (App.step c e) a).2 (s.step c e).2 := by
  cases e with
  | getItem key => exact h.getItem hU he
  | setItem key value => exact h.setItem hU he value
  | update items => exact h.update hU he
  | setdefault key value => exact h.setdefault hU he value
  | clear => exact h.clear
  | addDefaults d => exact h.addDefaults d
  | configFromObject source => exact h.configFromObject hU he

end Refines

/-- The store of a new app. -/
def Layers.init {V : Type} (c : Options V) (preconf source : OrderedDict String V) : Layers V :=
  ⟨none, preconf.get?, fun _ => none, c.under source⟩

end Configuration
end Celery
