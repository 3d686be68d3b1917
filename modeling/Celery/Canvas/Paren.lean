/-
# `celery/canvas.py`: parentheses in `X1 | ... | Xn`

A comment in `chain.__new__` (lines 1436-1448) says that `chain(X, Y, Z)` works the same way as
`X | Y | Z`.  It does, and the parentheses do not matter, if each operand that is not solid is
taken apart however they are put, or kept as it is, or an empty group that is dropped at the end
(`paren_denotes_chain`).  Else it matters how `X | Y | Z` is put in parentheses, and `chain(X, Y)`
is not always `X | Y` (`unrolled_differs`).
-/

import Celery.Canvas.Operands

namespace Celery
namespace Canvas

open Sig

variable {V : Type}

/-- `X1 | ... | Xn`, put in parentheses. -/
inductive Paren (V : Type) where
  | leaf (x : Sig V)
  | or (l r : Paren V)

namespace Paren

/-- `X1, ..., Xn`. -/
def leaves : Paren V → List (Sig V)
  | leaf x => [x]
  | or l r => leaves l ++ leaves r

/-- What the expression evaluates to. -/
def value : Paren V → Sig V
  | leaf x => x
  | or l r => orSig (value l) (value r)

theorem leaves_ne_nil (t : Paren V) : t.leaves ≠ [] := by
  induction t with
  | leaf x => exact List.cons_ne_nil x []
  | or l r ihl _ => exact List.append_ne_nil_of_left_ne_nil ihl _

theorem eq_leaf {t : Paren V} {x : Sig V} (h : t.leaves = [x]) : t = leaf x := by
  cases t with
  | leaf y =>
    cases h
    rfl
  | or l r =>
    have hl := List.length_pos_of_ne_nil l.leaves_ne_nil
    have hr := List.length_pos_of_ne_nil r.leaves_ne_nil
    have hlen := congrArg List.length h
    rw [leaves, List.length_append, List.length_singleton] at hlen
    omega

theorem solid_value (t : Paren V) (h : solidAll t.leaves = true) : t.value.solid = true := by
  induction t with
  | leaf x => simpa [leaves, solidAll, value] using h
  | or l r ihl ihr =>
    rw [leaves, solidAll_append] at h
    exact solid_orFuel _ (ihl h.1) (ihr h.2)

/-- A chain that begins with a group begins with it whatever is chained to it, unless it has no
other step and the group takes what comes next for the body of a chord. -/
theorem startsGroup_value (t : Paren V) {zs : List (Sig V)} (h : begins (t.leaves ++ zs) = true) :
    t.value.startsGroup = true ∧ (zs ≠ [] →
      t.value.isLong = true ∧ (t.value.severalSteps = true ∨ begins zs = true)) := by
  induction t generalizing zs with
  | leaf x =>
    rw [leaves, List.singleton_append, begins, Bool.and_eq_true, Bool.or_eq_true, Bool.and_eq_true,
      Bool.or_eq_true, List.isEmpty_iff] at h
    exact ⟨h.1, h.2.resolve_left⟩
  | or l r ihl ihr =>
    rw [leaves, List.append_assoc] at h
    obtain ⟨hl, hrest⟩ := ihl h
    obtain ⟨hlong, hend⟩ := hrest (List.append_ne_nil_of_left_ne_nil r.leaves_ne_nil zs)
    have hleads : Leads (or l r).value := by
      rcases hend with hsteps | hr
      · exact leads_orFuel _ _ (leads_iff.mpr ⟨hl, hsteps⟩)
      · exact leads_orFuel_of_startsGroup _ le_rfl hlong hl (ihr hr).1
    obtain ⟨hstart, hsteps⟩ := leads_iff.mp hleads
    refine ⟨hstart, fun _ => ⟨?_, .inl hsteps⟩⟩
    obtain ⟨t, u, ts, f, hchain, -⟩ := hleads
    rw [hchain]
    rfl

theorem startsCall_value (t : Paren V) (h : startsCallAll t.leaves = true) :
    t.value.startsCall = true := by
  induction t with
  | leaf x => exact h
  | or l r ihl _ =>
    rw [leaves] at h
    exact startsCall_orFuel _ _ (ihl ((startsCallAll_append_left h).resolve_left l.leaves_ne_nil))

/-- Of several `group([])` the first one is left. -/
theorem dropped_value (t : Paren V) (h : t.leaves.all dropped = true) : t.value.dropped = true := by
  induction t with
  | leaf x => simpa [leaves, value] using h
  | or l r ihl ihr =>
    rw [leaves, List.all_append, Bool.and_eq_true] at h
    have hl := ihl h.1
    have hdrops : l.value.kind.drops = true := by
      obtain ⟨f, hf⟩ := exists_of_dropped hl
      rw [hf]
      rfl
    rwa [value, orSig_of_dropped hdrops (ihr h.2)]

/-- What comes behind the first operands comes behind an operand of the kind of their value. -/
theorem follows_value (t : Paren V) {ys : List (Sig V)} (hys : ys ≠ [])
    (h : anchored (t.leaves ++ ys) = true) :
    follows t.value.kind ys = true ∧ (t.value.kind = .group → t.value.solid = true) := by
  induction t generalizing ys with
  | leaf x =>
    rw [leaves, List.singleton_append, anchored_cons, Bool.and_eq_true] at h
    exact ⟨h.2, fun _ => h.1⟩
  | or l r ihl ihr =>
    rw [leaves, List.append_assoc] at h
    have hne : r.leaves ++ ys ≠ [] := List.append_ne_nil_of_right_ne_nil _ hys
    obtain ⟨hl, hsolid⟩ := ihl hne h
    have hsingle : ∀ p : Sig V → Bool, isOnly p (r.leaves ++ ys) = true → False := fun p h =>
      r.leaves_ne_nil (isOnly_append hys h).1
    rw [value, kind_orSig]
    cases hk : l.value.kind with
    | task =>
      rw [hk, follows, Bool.or_eq_true] at hl
      have hrest := hl.resolve_left (hsingle unrolls)
      rw [Kind.or_task]
      exact ⟨loose_append_right (loose_of_anchored hrest), Kind.noConfusion⟩
    | chain =>
      rw [hk, follows] at hl
      rw [Kind.or_chain]
      exact ⟨loose_append_right hl, Kind.noConfusion⟩
    | chord =>
      rw [hk, follows, Bool.or_eq_true] at hl
      have hrest := hl.resolve_left (hsingle unrolls)
      obtain ⟨hr, hrsolid⟩ := ihr hys hrest
      have hloose := loose_append_right (loose_of_anchored hrest)
      cases hv : r.value with
      | task | chord =>
        rw [hv] at hr
        exact ⟨hr, Kind.noConfusion⟩
      | chain => exact ⟨hloose, Kind.noConfusion⟩
      | group vl vs vf =>
        rw [hv] at hrsolid
        rcases vs with _ | ⟨_, _ | _⟩
        · cases hrsolid rfl
        · cases hrsolid rfl
        · exact ⟨hloose, Kind.noConfusion⟩
    | group =>
      rw [hk, follows, behindGroup, Bool.or_eq_true, Bool.or_eq_true] at hl
      -- what a group takes for a body makes a chord of it
      have hchord : solidAll r.leaves = true → (isOnly unrolls ys = true ∨ anchored ys = true) →
          follows (Kind.or .group r.value) ys = true ∧ (Kind.or .group r.value = .group →
            (orSig l.value r.value).solid = true) := by
        intro hr hrest
        have hkind : Kind.or .group r.value = .chord := by
          have hr := r.solid_value hr
          cases hv : r.value with
          | group vl vs vf =>
            rw [hv] at hr
            rcases vs with _ | ⟨_, _ | _⟩
            · cases hr
            · cases hr
            · cases vl <;> rfl
          | _ => rfl
        rw [hkind, follows, Bool.or_eq_true]
        exact ⟨hrest, Kind.noConfusion⟩
      rcases hl with (hl | hl) | hl
      · rw [solidAll_append] at hl
        exact hchord hl.1 (.inr (anchored_of_solidAll hl.2).1)
      · obtain ⟨hr, _, hrest⟩ := solidAll_of_unrollsLast hys hl
        exact hchord hr ((anchored_of_unrollsLast hrest).1.imp_left And.right)
      · rw [List.all_append, Bool.and_eq_true] at hl
        have hsame := orSig_of_dropped (by rw [hk]; rfl) (r.dropped_value hl.1)
        rw [← hk, ← kind_orSig, hsame, hk, follows, behindGroup, hl.2, Bool.or_true]
        exact ⟨rfl, fun _ => hsolid hk⟩
    | empty =>
      rw [hk, follows, behindEmpty, Bool.or_eq_true, Bool.or_eq_true, Bool.or_eq_true,
        Bool.and_eq_true] at hl
      rcases hl with ((hl | hl) | hl) | ⟨hstart, hl⟩
      · rw [solidAll_append] at hl
        refine ⟨follows_of_solidAll _ hl.2, fun _ => ?_⟩
        exact solid_orFuel _ (solid_of_kind_empty hk) (r.solid_value hl.1)
      · exact (hsingle _ hl).elim
      · exact (hsingle _ hl).elim
      · have hr := (startsCallAll_append_left hstart).resolve_left r.leaves_ne_nil
        rw [Kind.or_empty_of_startsCall _ (r.startsCall_value hr)]
        exact ⟨loose_append_right hl, Kind.noConfusion⟩

/-- What comes behind the first operands behind a chain, if their value is a group or an empty
chain. -/
theorem followsLoose_value (t : Paren V) {ys : List (Sig V)} (hys : ys ≠ [])
    (h : loose (t.leaves ++ ys) = true) :
    (t.value.kind = .group →
        (t.value.solid = true ∧ anchored ys = true) ∨ ys.all dropped = true) ∧
      (t.value.kind = .empty → follows .empty ys = true) := by
  induction t generalizing ys with
  | leaf x =>
    rw [leaves, List.singleton_append, loose, Bool.and_eq_true] at h
    refine ⟨fun hk => ?_, fun hk => ?_⟩
    · cases x with
      | group l ts f =>
        simp only [kind, Bool.or_eq_true, Bool.and_eq_true, Bool.not_eq_true'] at h
        refine h.2.symm.imp_left fun h => ⟨?_, h.2⟩
        have hsmall := h.1
        rw [isSmall, decide_eq_false_iff_not] at hsmall
        rw [value, solid, decide_eq_true_iff]
        omega
      | chain ts => cases ts <;> cases hk
      | _ => cases hk
    · rw [value] at hk
      simpa only [hk, follows] using h.2
  | or l r ihl ihr =>
    rw [leaves, List.append_assoc] at h
    have hne : r.leaves ++ ys ≠ [] := List.append_ne_nil_of_right_ne_nil _ hys
    obtain ⟨hgroup, hempty⟩ := ihl hne h
    -- an empty chain becomes a chain with steps, or all that follows is solid
    have hchain : l.value.kind = .empty → (or l r).value.kind = .chain ∨
        ((or l r).value.solid = true ∧ solidAll ys = true) := by
      intro hk
      have hrest := hempty hk
      rw [follows, behindEmpty, Bool.or_eq_true, Bool.or_eq_true, Bool.or_eq_true,
        Bool.and_eq_true] at hrest
      rcases hrest with ((hrest | hrest) | hrest) | ⟨hstart, -⟩
      · rw [solidAll_append] at hrest
        exact .inr ⟨solid_orFuel _ (solid_of_kind_empty hk) (r.solid_value hrest.1), hrest.2⟩
      · exact absurd (isOnly_append hys hrest).1 r.leaves_ne_nil
      · exact absurd (isOnly_append hys hrest).1 r.leaves_ne_nil
      · have hr := (startsCallAll_append_left hstart).resolve_left r.leaves_ne_nil
        rw [value, kind_orSig, hk]
        exact .inl (Kind.or_empty_of_startsCall _ (r.startsCall_value hr))
    refine ⟨fun hk => ?_, fun hk => ?_⟩
    · have hor := hk
      rw [value, kind_orSig] at hor
      rcases Kind.or_eq_group hor with ⟨hl, hdropped⟩ | hl
      · rcases hgroup hl with ⟨-, hrest⟩ | hrest
        · obtain ⟨f, hf⟩ := exists_of_dropped hdropped
          have hsolid := (follows_value r hys hrest).2
          rw [hf] at hsolid
          cases hsolid rfl
        · rw [List.all_append, Bool.and_eq_true] at hrest
          exact .inr hrest.2
      · rcases hchain hl with h | ⟨hsolid, hys⟩
        · rw [h] at hk
          cases hk
        · exact .inl ⟨hsolid, (anchored_of_solidAll hys).1⟩
    · have hor := hk
      rw [value, kind_orSig] at hor
      rcases hchain (Kind.or_eq_empty hor) with h | ⟨-, hys⟩
      · rw [h] at hk
        cases hk
      · exact follows_of_solidAll _ hys

section

variable {D : Type} (m : Meaning V D)

/-- The value of solid operands in parentheses. -/
structure Settled (t : Paren V) : Prop where
  solid : t.value.solid = true
  denote : ∀ x, denote m t.value x = denoteChain m (unpackedAll t.leaves) x

/-- The value of operands in parentheses, as a chain takes it apart. -/
structure Open (t : Paren V) : Prop where
  tame : t.value.tame = true
  closed : (∀ x, t.leaves.getLast? = some x → x.closed = true) → t.value.closed = true
  denote : ∀ x, denote m t.value.unpacked x = denoteChain m (unpackedAll t.leaves) x

variable {m}

theorem Settled.open {t : Paren V} (h : Settled m t) : Open m t where
  tame := tame_of_solid h.solid
  closed _ := closed_of_solid h.solid
  denote x := by rw [unpacked_of_solid _ h.solid, h.denote]

variable {t : Paren V} (hsettled : anchored t.leaves = true → Settled m t)
  (hopen : loose t.leaves = true → Open m t)

include hsettled in
theorem takes_of_anchored (k : Kind) (h : anchored t.leaves = true) :
    k.takes t.value = true ∧ Open m t :=
  ⟨k.takes_of_solid (hsettled h).solid, (hsettled h).open⟩

include hsettled hopen

/-- A group takes it for a body, or drops it. -/
theorem takes_of_group (h : t.leaves.all dropped = true ∨ anchored t.leaves = true) :
    Kind.takes .group t.value = true ∧ Open m t := by
  refine h.elim (fun h => ?_) (takes_of_anchored hsettled .group)
  refine ⟨?_, hopen (loose_of_dropped h)⟩
  rw [Kind.takes, t.dropped_value h, Bool.or_true]

/-- What may come behind an operand of a kind is taken by it. -/
theorem takes_of_follows {k : Kind} (h : follows k t.leaves = true) :
    k.takes t.value = true ∧ Open m t := by
  have hunrolls : isOnly unrolls t.leaves = true → t.value.unrolls = true ∧ Open m t := fun h => by
    obtain ⟨z, hz, hunrolls⟩ := eq_singleton_of_isOnly h
    exact ⟨by rwa [eq_leaf hz], hopen (loose_of_unrolls h)⟩
  cases k with
  | task | chord =>
    rw [follows, Bool.or_eq_true] at h
    refine h.elim (fun h => ?_) (takes_of_anchored hsettled _)
    rw [Kind.takes, (hunrolls h).1, Bool.or_true]
    exact ⟨rfl, (hunrolls h).2⟩
  | group => exact takes_of_group hsettled hopen (anchored_of_behindGroup h)
  | chain => exact ⟨(hopen h).tame, hopen h⟩
  | empty =>
    rw [follows, behindEmpty, Bool.or_eq_true, Bool.or_eq_true, Bool.or_eq_true,
      Bool.and_eq_true] at h
    rcases h with ((h | h) | h) | ⟨hstart, h⟩
    · exact takes_of_anchored hsettled _ (anchored_of_solidAll h).1
    · refine ⟨?_, (hunrolls h).2⟩
      simp [Kind.takes, (hunrolls h).1]
    · obtain ⟨z, hz, hgroup⟩ := eq_singleton_of_isOnly h
      refine ⟨?_, hopen (loose_of_isEmptyGroup h)⟩
      rw [eq_leaf hz, value]
      simp [Kind.takes, hgroup]
    · refine ⟨?_, hopen h⟩
      simp [Kind.takes, (hopen h).tame, t.startsCall_value hstart]

omit hsettled hopen

/-- A solid value that takes the other one. -/
theorem Open.settled {l r : Paren V} (hr : Open m r) (hsolid : l.value.solid = true)
    (hl : ∀ x, Canvas.denote m l.value x = denoteChain m (unpackedAll l.leaves) x)
    (htakes : l.value.kind.takes r.value = true) : Settled m (.or l r) := by
  obtain ⟨hor, hdenote⟩ := orSig_of_takes (m := m) hsolid htakes
  refine ⟨hor, fun x => ?_⟩
  rw [value, hdenote, hr.denote, hl, leaves, unpackedAll_append, denoteChain_append]

/-- A value that drops the other one. -/
theorem Open.of_dropped {l r : Paren V} (hl : Open m l) (h : r.leaves.all dropped = true)
    (hsame : orSig l.value r.value = l.value) : Open m (.or l r) where
  tame := by
    rw [value, hsame]
    exact hl.tame
  closed hclosed := by
    obtain ⟨init, z, hz⟩ := (List.eq_nil_or_concat r.leaves).resolve_left r.leaves_ne_nil
    rw [List.concat_eq_append] at hz
    have hz' := hclosed z (by rw [leaves, hz, ← List.append_assoc, List.getLast?_concat])
    rw [hz, List.all_append, Bool.and_eq_true, List.all_cons, Bool.and_eq_true] at h
    obtain ⟨f, rfl⟩ := exists_of_dropped h.2.1
    cases hz'
  denote x := by
    rw [value, hsame, hl.denote, leaves, unpackedAll_append, denoteChain_append,
      denoteChain_unpackedAll_dropped h]

/-- **However anchored operands are put in parentheses**, nothing of the value is left to be taken
apart, and each operand has been fed to the next one as a chain takes it apart.  The same holds of
loose operands once a chain takes their value apart. -/
theorem reads (t : Paren V) :
    (anchored t.leaves = true → Settled m t) ∧ (loose t.leaves = true → Open m t) := by
  induction t with
  | leaf x =>
    constructor
    · intro h
      rw [leaves, anchored_cons, Bool.and_eq_true] at h
      exact ⟨h.1, fun d => by rw [value, leaves, unpackedAll, unpacked_of_solid x h.1]; rfl⟩
    · intro h
      rw [leaves, loose, Bool.and_eq_true] at h
      exact ⟨h.1, fun hlast => hlast x rfl, fun d => rfl⟩
  | or l r ihl ihr =>
    have hne := r.leaves_ne_nil
    constructor
    · intro h
      have hl := ihl.1 (append_left.1 h)
      obtain ⟨htakes, hr⟩ := takes_of_follows ihr.1 ihr.2 (follows_value l hne h).1
      exact hr.settled hl.solid hl.denote htakes
    · intro h
      have hl := ihl.2 (append_left.2 h)
      have hr := ihr.2 (loose_append_right h)
      obtain ⟨hgroup, hempty⟩ := followsLoose_value l hne h
      have hlast : (leaves (or l r)).getLast? = r.leaves.getLast? := by
        rw [leaves, List.getLast?_append_of_ne_nil _ hne]
      have hdenote : l.value.solid = true →
          ∀ x, Canvas.denote m l.value x = denoteChain m (unpackedAll l.leaves) x :=
        fun hsolid x => by rw [← hl.denote, unpacked_of_solid _ hsolid]
      have hsettled : l.value.solid = true → l.value.kind.takes r.value = true →
          Open m (or l r) := fun hsolid htakes => (hr.settled hsolid (hdenote hsolid) htakes).open
      have hcall : l.value.isTask = true ∨ l.value.isChord = true → Open m (or l r) := by
        intro hcall
        have hsolid : l.value.solid = true := by
          cases hv : l.value with
          | task => rfl
          | chord => rfl
          | _ => simp [hv, isTask, isChord] at hcall
        have hfeeds := feeds_orSig (m := m) hcall hr.tame
        refine ⟨hfeeds.tame, fun hclosed => hfeeds.closed (hr.closed (hlast ▸ hclosed)),
          fun x => ?_⟩
        rw [value, hfeeds.denote, hr.denote, hdenote hsolid, leaves, unpackedAll_append,
          denoteChain_append]
      cases hk : l.value.kind with
      | task => exact hcall (.inl (kind_eq_task.mp hk))
      | chord => exact hcall (.inr (kind_eq_chord.mp hk))
      | group =>
        rcases hgroup hk with ⟨hsolid, hrest⟩ | hrest
        · exact hsettled hsolid (hk ▸ (takes_of_group ihr.1 ihr.2 (.inr hrest)).1)
        · exact hl.of_dropped hrest (orSig_of_dropped (by rw [hk]; rfl) (r.dropped_value hrest))
      | chain =>
        have hend : l.value.closed = true ∨ r.leaves.all dropped = true ∨
            r.value.startsGroup = true := by
          refine (closed_or_begins h).imp hl.closed (Or.imp_right fun h => ?_)
          rw [← List.append_nil r.leaves] at h
          exact (r.startsGroup_value h).1
        rcases or_left_comm.mp hend with hrest | hend
        · exact hl.of_dropped hrest (orSig_of_dropped (by rw [hk]; rfl) (r.dropped_value hrest))
        have habsorbs := absorbs_orSig (m := m) (kind_eq_chain.mp hk) hr.tame hend
        refine ⟨habsorbs.tame hl.tame, fun _ => habsorbs.closed, fun x => ?_⟩
        rw [value, habsorbs.denote, hr.denote, hl.denote, leaves, unpackedAll_append,
          denoteChain_append]
      | empty =>
        exact hsettled (solid_of_kind_empty hk) (hk ▸ (takes_of_follows ihr.1 ihr.2 (hempty hk)).1)

end

/-! ### Operands that are kept -/

section

variable {D : Type} (m : Meaning V D)

/-- The value of operands that no chain comes of. -/
structure Calling (t : Paren V) : Prop where
  kind : t.value.kind = .chord ∨ ∃ x, t = leaf x ∧ (x.kind = .task ∨ x.kind = .group)
  dropped : t.value.dropped = false
  denote : ∀ x, denote m t.value x = denoteChain m t.leaves x

variable {m}

theorem calling_of_runs (t : Paren V) (h : runs 2 t.leaves = true) : Calling m t := by
  induction t with
  | leaf x =>
    rw [leaves, runs] at h
    refine ⟨?_, ?_, fun d => rfl⟩
    · cases hk : x.kind with
      | task => exact .inr ⟨x, rfl, .inl hk⟩
      | chord => exact .inl hk
      | group => exact .inr ⟨x, rfl, .inr hk⟩
      | chain | empty => simp [hk] at h
    · cases x with
      | group l ts f => simpa [kind, runs, value] using h
      | _ => rfl
  | or l r ihl ihr =>
    rw [leaves] at h
    have hl := ihl (runs_append h).1
    have hr := ihr (runs_append h).2
    have hdenote : (∀ x, denote m (orSig l.value r.value) x
        = denote m r.value (denote m l.value x)) →
        ∀ x, denote m (or l r).value x = denoteChain m (or l r).leaves x := fun h x => by
      rw [value, h, hl.denote, hr.denote, leaves, denoteChain_append]
    have hchord : (or l r).value.kind = .chord →
        (∀ x, denote m (orSig l.value r.value) x = denote m r.value (denote m l.value x)) →
        Calling m (or l r) := by
      refine fun hkind h => ⟨.inl hkind, ?_, hdenote h⟩
      cases hv : (or l r).value with
      | group => rw [hv] at hkind; cases hkind
      | _ => rfl
    rcases hl.kind with hkind | ⟨x, rfl, hx | hx⟩
    · -- behind a chord there are chords and a task
      have hcall : r.value.kind = .chord ∨ r.value.kind = .task := by
        rcases hr.kind with hr | ⟨y, rfl, hy | hy⟩
        · exact .inl hr
        · exact .inr hy
        · obtain ⟨hlen, hgroups⟩ := length_lt_of_runs hy h
          obtain ⟨x, xs, hl⟩ := List.exists_cons_of_ne_nil l.leaves_ne_nil
          rw [hl, List.length_cons] at hlen
          obtain rfl : xs = [] := List.eq_nil_of_length_eq_zero (by omega)
          have hx := hgroups x (by rw [hl]; exact List.mem_cons_self)
          rw [eq_leaf hl, value, hx] at hkind
          cases hkind
      have hsolid : r.value.solid = true := by
        cases hv : r.value with
        | task => rfl
        | chord => rfl
        | group => simp [hv, kind] at hcall
        | chain ts => cases ts <;> simp [hv, kind] at hcall
      refine hchord ?_ (denote_orSig _ hsolid)
      rw [value, kind_orSig, hkind]
      cases hv : r.value with
      | task => rfl
      | chord => rfl
      | group => simp [hv, kind] at hcall
      | chain ts => cases ts <;> simp [hv, kind] at hcall
    · -- nothing is behind a task
      rw [leaves, List.singleton_append, runs] at h
      simp only [hx, List.isEmpty_iff] at h
      exact absurd h r.leaves_ne_nil
    · refine hchord ?_ ?_
      · rw [value, kind_orSig, value, hx]
        exact or_group_of_not_dropped hr.dropped
      · cases x with
        | group => exact denote_group_orSig hr.dropped
        | chain ts => cases ts <;> cases hx
        | _ => cases hx

/-- The operand `z` is passed to as it is, and so are those before it. -/
structure Keeps (xs : List (Sig V)) (z : Sig V) : Prop where
  runs : runs 2 xs = true
  keeps : keeps xs z = true

theorem Keeps.kind {xs : List (Sig V)} {z : Sig V} (h : Keeps xs z) :
    z.kind = .chain ∨ z.kind = .group := by
  have hkeeps := h.keeps
  cases z with
  | chain ts f => cases ts with
    | nil => cases hkeeps
    | cons => exact .inl rfl
  | group => exact .inr rfl
  | _ => cases hkeeps

theorem Keeps.right {xs ys : List (Sig V)} {z : Sig V} (h : Keeps (xs ++ ys) z) : Keeps ys z := by
  refine ⟨(runs_append h.runs).2, ?_⟩
  have hkeeps := h.keeps
  cases z with
  | chain => exact hkeeps
  | group l ts f =>
    rcases ts with _ | ⟨_, _ | _⟩
    · rw [Canvas.keeps, Bool.or_eq_true, Bool.not_eq_true', Option.any_eq_false] at hkeeps ⊢
      refine hkeeps.imp_right fun hkeeps y hy => hkeeps y ?_
      rw [List.getLast?_append, hy, Option.some_or]
    · rw [Canvas.keeps, Bool.and_eq_true, decide_eq_true_iff, List.length_append,
        List.all_append, Bool.and_eq_true] at hkeeps
      rw [Canvas.keeps, Bool.and_eq_true, decide_eq_true_iff]
      exact ⟨by omega, hkeeps.2.2⟩
    · cases hkeeps
  | _ => cases hkeeps

/-- **However the operands are put in parentheses, the one that is kept is passed to as it is**. -/
theorem denote_value_of_keeps (t : Paren V) {xs zs : List (Sig V)} {z : Sig V}
    (ht : t.leaves = xs ++ z :: zs) (hkeeps : Keeps xs z)
    (hzs : solidAll zs = true ∨ unrollsLast z.isGroup zs = true) :
    (∀ x, denote m t.value x = denoteChain m (xs ++ z :: unpackedAll zs) x) ∧
      (t = leaf z ∨ t.value.kind = .chain ∨ t.value.kind = .chord) := by
  induction t generalizing xs zs with
  | leaf y =>
    have hxs : xs = [] := by
      cases xs with
      | nil => rfl
      | cons x xs => simp [leaves] at ht
    subst hxs
    rw [leaves, List.nil_append, List.cons_eq_cons] at ht
    obtain ⟨rfl, rfl⟩ := ht
    exact ⟨fun x => rfl, .inl rfl⟩
  | or l r ihl ihr =>
    have hne := r.leaves_ne_nil
    rw [leaves] at ht
    rcases append_eq_append_cons ht with ⟨us, hl, rfl⟩ | ⟨us, rfl, hr⟩
    · -- it is on the left, and all on the right is solid or unrolled
      have hus : solidAll us = true := by
        rcases hzs with hzs | hzs
        · exact (solidAll_append.mp hzs).1
        · exact (solidAll_of_unrollsLast hne hzs).1
      obtain ⟨hdenote, hkind⟩ := ihl hl hkeeps (.inl hus)
      have hright : (∀ x, denote m (orSig l.value r.value) x
          = denoteChain m (unpackedAll r.leaves) (denote m l.value x)) ∧
          r.value.dropped = false := by
        have hsettled : anchored r.leaves = true → (∀ x, denote m (orSig l.value r.value) x
            = denoteChain m (unpackedAll r.leaves) (denote m l.value x)) ∧
            r.value.dropped = false := fun h => by
          have hr : Settled m r := r.reads.1 h
          exact ⟨fun x => by rw [denote_orSig _ hr.solid, hr.denote],
            not_dropped_of_solid hr.solid⟩
        have hunrolled : l.value.isGroup = false → isOnly unrolls r.leaves = true →
            (∀ x, denote m (orSig l.value r.value) x
              = denoteChain m (unpackedAll r.leaves) (denote m l.value x)) ∧
            r.value.dropped = false := fun hgroup h => by
          obtain ⟨u, hu, hunrolls⟩ := eq_singleton_of_isOnly h
          rw [hu, eq_leaf hu, value]
          obtain ⟨gl, t, f, rfl, ht⟩ := exists_of_unrolls hunrolls
          exact ⟨(denote_orSig_unrolls hgroup ht).1, not_dropped_cons⟩
        rcases hzs with hzs | hzs
        · exact hsettled (anchored_of_solidAll (solidAll_append.mp hzs).2).1
        rcases hkind with rfl | hkind
        · obtain rfl : us = [] := by
            have hlen := congrArg List.length hl
            simp only [leaves, List.length_append, List.length_cons, List.length_nil] at hlen
            exact List.eq_nil_of_length_eq_zero (by omega)
          exact (anchored_of_unrollsLast hzs).1.elim (fun h => hunrolled h.1 h.2) hsettled
        · obtain ⟨-, b, hlast⟩ := solidAll_of_unrollsLast hne hzs
          refine (anchored_of_unrollsLast hlast).1.elim (fun h => hunrolled ?_ h.2) hsettled
          rw [Bool.eq_false_iff]
          exact fun h => by simp [kind_eq_group.mpr h] at hkind
      refine ⟨fun x => ?_, .inr ?_⟩
      · rw [value, hright.1, hdenote, ← denoteChain_append, unpackedAll_append, List.append_assoc,
          List.cons_append]
      · have hkind : l.value.kind = .chain ∨ l.value.kind = .chord ∨ l.value.kind = .group := by
          rcases hkind with rfl | h | h
          · exact hkeeps.kind.imp_right .inr
          · exact .inl h
          · exact .inr (.inl h)
        rw [value, kind_orSig]
        rcases hkind with h | h | h
        · exact .inl (h ▸ Kind.or_chain _)
        · exact or_of_kind (.inl h) fun _ => hright.2
        · exact or_of_kind (.inr (.inr h)) fun _ => hright.2
    · -- it is on the right
      have hl := calling_of_runs (m := m) l (runs_append hkeeps.runs).1
      obtain ⟨hdenote, hkind⟩ := ihr hr hkeeps.right hzs
      have hcall : l.value.kind = .chord ∨ l.value.kind = .task ∨ l.value.kind = .group := by
        rcases hl.kind with h | ⟨x, rfl, h⟩
        · exact .inl h
        · exact .inr h
      have hpass : (∀ x, denote m (orSig l.value r.value) x
          = denote m r.value (denote m l.value x)) ∧
          (l.value.kind = .group → r.value.dropped = false) := by
        rcases hkind with rfl | hkind
        · -- the operand itself is on the right
          obtain ⟨rfl, rfl⟩ : us = [] ∧ zs = [] := by
            cases us with
            | nil => exact ⟨rfl, by simpa [leaves] using hr.symm⟩
            | cons u us => simp [leaves] at hr
          rw [List.append_nil] at hkeeps
          have hk := hkeeps.keeps
          cases z with
          | chain ts f =>
            have hchain := hkeeps.kind.resolve_right fun h => by cases ts <;> cases h
            exact ⟨denote_orSig_of_kind hcall (.inl hchain), fun _ => rfl⟩
          | group zl gs f =>
            rcases gs with _ | ⟨t, _ | _⟩
            · -- a group only keeps the group of an empty generator
              have hlazy : l.value.kind = .group → zl = true := by
                intro h
                rcases hl.kind with h' | ⟨x, rfl, -⟩
                · rw [h'] at h
                  cases h
                · have hx : x.isGroup = true := kind_eq_group.mp h
                  simpa [keeps, leaves, hx] using hk
              have hdropped : l.value.kind = .group → (group zl [] f).dropped = false := by
                intro h
                rw [hlazy h]
                rfl
              refine ⟨fun x => ?_, hdropped⟩
              cases hv : l.value with
              | task => rfl
              | chord cl h hg b g =>
                show denote m (orAtom (chord cl h hg b g).weight (.chord cl h hg b g)
                  (.group zl [] f)) x = _
                rw [orAtom_chord _ rfl]
                rfl
              | group => exact denote_group_orSig (hdropped (by rw [hv]; rfl)) x
              | chain ts => cases ts <;> simp [hv, kind] at hcall
            · rw [keeps, Bool.and_eq_true, decide_eq_true_iff] at hk
              obtain ⟨x, xs, hx⟩ := List.exists_cons_of_ne_nil l.leaves_ne_nil
              rw [hx, List.length_cons] at hk
              obtain rfl : xs = [] := List.eq_nil_of_length_eq_zero (by omega)
              have hgroup : x.isGroup = true := by simpa using hk.2
              rw [eq_leaf hx]
              refine ⟨fun y => ?_, fun _ => not_dropped_cons⟩
              cases x with
              | group => exact denote_group_orSig not_dropped_cons y
              | _ => cases hgroup
            · cases hk
          | _ => cases hk
        · refine ⟨denote_orSig_of_kind hcall hkind, fun _ => ?_⟩
          cases hv : r.value with
          | group => simp [hv, kind] at hkind
          | _ => rfl
      refine ⟨fun x => ?_, .inr ?_⟩
      · rw [value, hpass.1, hdenote, hl.denote, ← denoteChain_append, List.append_assoc]
      · rw [value, kind_orSig]
        exact or_of_kind hcall hpass.2

end

/-! ### Empty groups at the end -/

/-- Tasks, chains and chords make no group, and only chords make a chord. -/
theorem kind_value_of_calls (t : Paren V) (h : ∀ x ∈ t.leaves,
    x.kind = .task ∨ x.kind = .chain ∨ x.kind = .chord) :
    t.value.kind = .task ∨ t.value.kind = .chain ∨
      t.value.kind = .chord ∧ ∃ x ∈ t.leaves, x.kind = .chord := by
  induction t with
  | leaf x =>
    rw [leaves, List.forall_mem_singleton] at h
    rw [value, leaves]
    exact h.imp_right (Or.imp_right fun h => ⟨h, x, List.mem_singleton_self x, h⟩)
  | or l r ihl ihr =>
    rw [leaves, List.forall_mem_append] at h
    rw [value, kind_orSig]
    rcases ihl h.1 with hl | hl | ⟨hl, x, hx, hk⟩
    · rw [hl, Kind.or_task]
      exact .inr (.inl rfl)
    · rw [hl, Kind.or_chain]
      exact .inr (.inl rfl)
    · have hr := ihr h.2
      have hchord : ∃ x ∈ leaves (or l r), x.kind = .chord :=
        ⟨x, List.mem_append_left _ hx, hk⟩
      rw [hl]
      cases hv : r.value with
      | task => exact .inr (.inr ⟨rfl, hchord⟩)
      | chord => exact .inr (.inr ⟨rfl, hchord⟩)
      | chain => exact .inr (.inl rfl)
      | group => simp [hv, kind] at hr

/-- What comes of them, in whatever parentheses, is a chain, or the group itself. -/
theorem kind_value_of_ends (t : Paren V) (h : ends t.leaves = true) :
    t.value.kind = .chain ∨ ∃ z, t = leaf z ∧ z.kind = .group := by
  induction t with
  | leaf x =>
    rw [leaves, ends, if_pos (by rfl), Bool.or_eq_true, ← kind_eq_group, ← kind_eq_chain] at h
    exact h.symm.imp_right fun h => ⟨x, rfl, h⟩
  | or l r ihl ihr =>
    rw [leaves] at h
    obtain ⟨hr, hl⟩ := ends_append r.leaves_ne_nil h
    left
    rw [value, kind_orSig]
    rcases l.kind_value_of_calls fun x hx => (hl x hx).imp_right (Or.imp_right And.left) with
      hk | hk | ⟨hk, x, hx, hchord⟩
    · rw [hk, Kind.or_task]
    · rw [hk, Kind.or_chain]
    · rw [hk]
      rcases ihr hr with hchain | ⟨z, rfl, hz⟩
      · cases hv : r.value with
        | chain => rfl
        | _ => rw [hv] at hchain; cases hchain
      · -- a chord unrolls a group of one
        have hone : z.isOne = false := by
          have hlast := hl x hx
          rw [hchord] at hlast
          simpa [leaves] using hlast
        cases z with
        | group l ts f =>
          rcases ts with _ | ⟨_, _ | _⟩
          · rfl
          · cases hone
          · rfl
        | chain ts => cases ts <;> cases hz
        | _ => cases hz

/-- **Chains and groups drop what is behind them, however it is put in parentheses**, where that is
`group([])`. -/
theorem exists_trimmed (t : Paren V) {xs zs : List (Sig V)} (ht : t.leaves = xs ++ zs)
    (hxs : ends xs = true) (hzs : zs.all dropped = true) :
    ∃ t' : Paren V, t'.leaves = xs ∧ t'.value = t.value := by
  have hsame : ∀ l r : Paren V, ends l.leaves = true → r.leaves.all dropped = true →
      orSig l.value r.value = l.value := by
    intro l r hl hr
    refine orSig_of_dropped ?_ (r.dropped_value hr)
    rcases l.kind_value_of_ends hl with h | ⟨z, rfl, hz⟩
    · rw [h]
      rfl
    · rw [value, hz]
      rfl
  have hne : xs ≠ [] := by
    rintro rfl
    cases hxs
  induction t generalizing xs zs with
  | leaf x =>
    refine ⟨leaf x, ?_, rfl⟩
    rw [leaves] at ht ⊢
    obtain ⟨y, ys, rfl⟩ := List.exists_cons_of_ne_nil hne
    rw [List.cons_append, List.cons_eq_cons] at ht
    rw [ht.1, (List.append_eq_nil_iff.mp ht.2.symm).1]
  | or l r ihl ihr =>
    rw [leaves] at ht
    rcases List.append_eq_append_iff.mp ht with ⟨us, rfl, hr⟩ | ⟨us, hl, rfl⟩
    · rcases eq_or_ne us [] with rfl | hus
      · rw [List.append_nil] at hxs ⊢
        exact ⟨l, rfl, (hsame l r hxs (by rwa [hr])).symm⟩
      · obtain ⟨r', hleaves, hvalue⟩ := ihr hr (ends_append hus hxs).1 hzs hus
        exact ⟨or l r', by rw [leaves, hleaves], by rw [value, value, hvalue]⟩
    · rw [List.all_append, Bool.and_eq_true] at hzs
      obtain ⟨l', rfl, hvalue⟩ := ihl hl hxs hzs.1 hne
      exact ⟨l', rfl, by rw [value, ← hvalue, hsame l' r hxs hzs.2]⟩

/-- `chain(X1, ..., Xn)` puts the parentheses to the left. -/
def fold (t : Paren V) (xs : List (Sig V)) : Paren V := xs.foldl (fun t x => or t (leaf x)) t

theorem value_fold (t : Paren V) (xs : List (Sig V)) :
    (fold t xs).value = xs.foldl orSig t.value := by
  induction xs generalizing t with
  | nil => rfl
  | cons x xs ih => exact ih _

theorem leaves_fold (t : Paren V) (xs : List (Sig V)) : (fold t xs).leaves = t.leaves ++ xs := by
  induction xs generalizing t with
  | nil => exact (List.append_nil _).symm
  | cons x xs ih =>
    rw [fold, List.foldl_cons]
    exact (ih _).trans (by rw [leaves, leaves, List.append_assoc, List.singleton_append])

end Paren

/-- **Every parenthesisation of `X1 | ... | Xn`, and `chain(X1, ..., Xn)`, denote the same
computation**, whatever tasks do. -/
def DenoteSame (xs : List (Sig V)) : Prop :=
  ∀ (D : Type) (m : Meaning V D) (t : Paren V), t.leaves = xs →
    ∀ d : D, denote m t.value d = denote m (chainNew xs) d

/-- Operands of which nothing is left to be taken apart in any parentheses, nor by `chain`, which
starts with an empty chain; or of which one is kept as it is in all. -/
def uniform : List (Sig V) → Bool
  | [] => false
  | x :: xs => x.solid && (anchored (x :: xs) && Kind.folds .empty (x :: xs)
    || x.isGroup && kept [x] xs)

/-- Such operands, of which a chain or a group comes, and behind them nothing but `group([])`.  The
first list is what is before. -/
def trims : List (Sig V) → List (Sig V) → Bool
  | _, [] => false
  | xs, z :: zs =>
    uniform xs && ends xs && (Kind.orAll .empty xs).drops && (z :: zs).all dropped
      || trims (xs ++ [z]) zs

/-- **The operands that are treated alike in all parentheses.** -/
def regular : List (Sig V) → Bool
  | [_] => true
  | xs => uniform xs || trims [] xs

/-- What is kept is kept behind all that is before it. -/
theorem exists_keeps_of_kept {xs ys : List (Sig V)} (h : kept xs ys = true) :
    ∃ us z zs, xs ++ ys = us ++ z :: zs ∧ Paren.Keeps us z ∧
      (solidAll zs = true ∨ unrollsLast z.isGroup zs = true) := by
  induction ys generalizing xs with
  | nil => cases h
  | cons z zs ih =>
    rw [kept, Bool.or_eq_true, Bool.and_eq_true, Bool.and_eq_true, Bool.or_eq_true] at h
    rcases h with ⟨⟨hruns, hkeeps⟩, hzs⟩ | h
    · exact ⟨xs, z, zs, rfl, ⟨hruns, hkeeps⟩, hzs⟩
    · obtain ⟨us, y, ys, heq, h⟩ := ih h
      exact ⟨us, y, ys, by rw [← heq, List.append_assoc, List.singleton_append], h⟩

/-- An empty chain makes nothing of a solid group. -/
theorem orSig_nil_group {x : Sig V} (hx : x.isGroup = true) (h : x.solid = true) :
    orSig (.chain [] {}) x = x := by
  cases x with
  | group l gs f =>
    rcases gs with _ | ⟨_, _ | _⟩
    · cases h
    · cases h
    · rfl
  | _ => cases hx

theorem kind_foldl (s : Sig V) (xs : List (Sig V)) :
    (xs.foldl orSig s).kind = s.kind.orAll xs := by
  induction xs generalizing s with
  | nil => rfl
  | cons x xs ih => rw [List.foldl_cons, ih, kind_orSig, Kind.orAll]

theorem foldl_of_dropped {s : Sig V} {zs : List (Sig V)} (hs : s.kind.drops = true)
    (hzs : zs.all dropped = true) : zs.foldl orSig s = s := by
  induction zs with
  | nil => rfl
  | cons z zs ih =>
    rw [List.all_cons, Bool.and_eq_true] at hzs
    rw [List.foldl_cons, orSig_of_dropped hs hzs.1, ih hzs.2]

theorem exists_of_trims {xs ys : List (Sig V)} (h : trims xs ys = true) :
    ∃ us zs, xs ++ ys = us ++ zs ∧ uniform us = true ∧ ends us = true ∧
      (Kind.orAll .empty us).drops = true ∧ zs.all dropped = true := by
  induction ys generalizing xs with
  | nil => cases h
  | cons z zs ih =>
    rw [trims, Bool.or_eq_true, Bool.and_eq_true, Bool.and_eq_true, Bool.and_eq_true] at h
    rcases h with ⟨⟨⟨hxs, hends⟩, hfold⟩, hzs⟩ | h
    · exact ⟨xs, z :: zs, rfl, hxs, hends, hfold, hzs⟩
    · obtain ⟨us, ws, heq, h⟩ := ih h
      exact ⟨us, ws, by rw [← heq, List.append_assoc, List.singleton_append], h⟩

/-- The value is that of one `|` after the other, from an empty chain. -/
theorem denote_value_of_uniform {D : Type} {m : Meaning V D} (t : Paren V)
    (h : uniform t.leaves = true) (d : D) :
    denote m t.value d = denote m (t.leaves.foldl orSig (.chain [] {})) d := by
  obtain ⟨x, xs, ht⟩ := List.exists_cons_of_ne_nil t.leaves_ne_nil
  rw [ht, uniform, Bool.and_eq_true, Bool.or_eq_true, Bool.and_eq_true, Bool.and_eq_true] at h
  obtain ⟨hx, ⟨hanchored, hfolds⟩ | ⟨hgroup, hkept⟩⟩ := h
  · -- nothing is left to be taken apart
    have hchain := foldl_of_folds (m := m) (s := .chain [] {}) rfl hfolds d
    rw [((t.reads (m := m)).1 (ht ▸ hanchored)).denote, ht, hchain]
    rfl
  · -- one operand is kept
    obtain ⟨us, z, zs, hleaves, hkeeps, hzs⟩ := exists_keeps_of_kept hkept
    rw [List.singleton_append] at hleaves
    have hleft : (Paren.fold (.leaf x) xs).leaves = us ++ z :: zs := by
      rw [Paren.leaves_fold, Paren.leaves, List.singleton_append, hleaves]
    have hchain : (x :: xs).foldl orSig (.chain [] {}) = (Paren.fold (.leaf x) xs).value := by
      rw [List.foldl_cons, orSig_nil_group hgroup hx, Paren.value_fold, Paren.value]
    rw [(t.denote_value_of_keeps (ht.trans hleaves) hkeeps hzs).1, ht, hchain,
      (Paren.denote_value_of_keeps _ hleft hkeeps hzs).1]

/-- A task without arguments. -/
def named (name : String) : Sig V := .task name {}

/-- Results as trees: every value remembers what made it. -/
inductive Term where
  | input
  | call (name : String) (x : Term)
  | pack (xs : List Term)

def Term.meaning : Meaning V Term where
  task name _ _ _ x := .call name x
  pack := .pack

end Canvas
end Celery
