/-
# `celery/app/utils.py`: `sanitize_url`

`sanitize_url` (lines 338-423) masks the passwords of a URL before it is logged.  The
authority of a URL may be a list of servers, separated by `;` or `,`, and a password may
have these characters as well.  So the function guesses: it takes the authority for a list
if its chunks look like servers, and masks each of them by itself.

A password in which there is no separator, or of which the last piece has no `:`, is masked
as a whole (`sanitizeAuthority_of_shown_none`).  Of one that is taken for a list of servers,
only the end of the last piece is masked, and everything before it is shown
(`sanitizeAuthority_of_shown`).  So two URLs that differ in their passwords have the same
sanitized one exactly if the passwords show the same (`sanitizeUrl_eq_iff`).

Texts are lists of characters.  The `except` branch is left out, as nothing raises.
-/

import Celery.Library.Split

namespace Celery
namespace SanitizeUrl

open Split

/-- `str`. -/
abbrev Text := List Char

/-- `str.isspace`, of a character. -/
def isSpace (c : Char) : Bool :=
  let n := c.toNat
  (9 ≤ n && n ≤ 13) || (28 ≤ n && n ≤ 32) || (8192 ≤ n && n ≤ 8202) ||
    n ∈ [133, 160, 5760, 8232, 8233, 8239, 8287, 12288]

/-- `str.lstrip`. -/
def lstrip (text : Text) : Text := text.dropWhile isSpace

/-- `str.rstrip`. -/
def rstrip (text : Text) : Text := text.rdropWhile isSpace

/-- `str.strip`. -/
def strip (text : Text) : Text := rstrip (lstrip text)

/-- The default of `mask`. -/
def mask : Text := List.replicate 8 '*'

/-- What stands after the scheme. -/
def schemeEnd : Text := [':', '/', '/']

/-- `'://' in url`. -/
def hasScheme (url : Text) : Bool := (partition? schemeEnd url).isSome

/-- `_mask_uinfo`. -/
def maskUinfo (uinfo : Text) : Text :=
  if ':' ∈ uinfo then uinfo.takeWhile (fun c => c ≠ ':') ++ ':' :: mask else uinfo

/-- `server_sep`, and `host_sep`. -/
def serverSep (authority : Text) : Option Char :=
  if ';' ∈ authority then some ';' else if ',' ∈ authority then some ',' else none

/-- The chunks between separators that are not empty. -/
def chunks (sep : Char) (authority : Text) : List Text :=
  ((authority.splitOn sep).map strip).filter fun chunk => chunk ≠ []

/-- `is_multiserver`, where there is a separator. -/
def isMultiserver (sep : Char) (authority : Text) : Bool :=
  let rawChunks := chunks sep authority
  1 < rawChunks.length &&
    !(rawChunks.any fun c => '@' ∉ c && [':'].isPrefixOf c) &&
    !(rawChunks.any fun c => '@' ∈ c && ':' ∉ (rpartition '@' c).1)

/-- One of several servers. -/
def sanitizeServer (server : Text) : Text :=
  if '@' ∈ server then
    maskUinfo (rpartition '@' server).1 ++ '@' :: (rpartition '@' server).2
  else server

/-- An authority of one server. -/
def sanitizeSingle (authority : Text) : Text :=
  let parts := rpartition '@' authority
  (if 1 < authority.count '@' && ':' ∉ parts.1 then mask else maskUinfo parts.1) ++
    '@' :: parts.2

/-- An authority with credentials. -/
def sanitizeAuthority (authority : Text) : Text :=
  match serverSep authority with
  | none => sanitizeSingle authority
  | some sep =>
    if isMultiserver sep authority then
      List.intercalate [sep] ((chunks sep authority).map sanitizeServer)
    else sanitizeSingle authority

/-- An authority without credentials. -/
def cleanHosts (authority : Text) : Text :=
  match serverSep authority with
  | none => authority
  | some sep => List.intercalate [sep] (chunks sep authority)

/-- A character of an authority. -/
def inAuthority (c : Char) : Bool := c ∉ ['/', '?', '#']

/-- `sanitize_url`, of what is not a list of URLs. -/
def sanitizeOne (url : Text) : Text :=
  match partition? schemeEnd url with
  | none => url
  | some (scheme, rest) =>
    let authority := rest.takeWhile inAuthority
    let tail := rest.dropWhile inAuthority
    scheme ++ schemeEnd ++
      (if '@' ∈ authority then sanitizeAuthority authority else cleanHosts authority) ++ tail

/-- `sanitize_url`.  The parts of a list of URLs have no `;`, so they are not lists again. -/
def sanitizeUrl (url : Text) : Text :=
  let parts := url.splitOn ';'
  if hasScheme url && 1 < parts.length && parts.tail.any hasScheme then
    List.intercalate [';'] (parts.map fun part => sanitizeOne (strip part))
  else sanitizeOne url

/-! ## What a password shows -/

/-- What is shown of a password that is taken for servers: the separator, the first piece,
those in the middle, and the last one up to its first `:`. -/
structure Shown where
  sep : Char
  first : Text
  middle : List Text
  last : Text
deriving DecidableEq, Repr

/-- **What a password shows**, if it is taken for servers: it has a separator, there is a
user name, no piece in the middle begins with `:`, and the last piece has one. -/
def shown (user password : Text) : Option Shown :=
  (serverSep password).bind fun sep =>
    let pieces := password.splitOn sep
    let middle := (pieces.tail.dropLast.map strip).filter fun piece => piece ≠ []
    let last := pieces.getLastD []
    if lstrip user ≠ [] ∧ (∀ piece ∈ middle, [':'].isPrefixOf piece = false) ∧ ':' ∈ last then
      some ⟨sep, rstrip (pieces.headD []), middle, (lstrip last).takeWhile fun c => c ≠ ':'⟩
    else none

/-- The servers that an authority is taken for. -/
def Shown.servers (user host : Text) (s : Shown) : List Text :=
  (lstrip user ++ ':' :: s.first) ::
    (s.middle ++ [s.last ++ ':' :: (mask ++ '@' :: rstrip host)])

/-- The sanitized authority, as what is shown makes it. -/
def render (user host : Text) : Option Shown → Text
  | none => user ++ ':' :: (mask ++ '@' :: host)
  | some s => List.intercalate [s.sep] (s.servers user host)

/-- The characters that a scheme, a user name and a host do not have. -/
def Plain (text : Text) : Prop := ∀ c ∈ [':', '@', ';', ',', '/', '?', '#'], c ∉ text

/-- The characters that a password does not have. -/
def PlainPassword (text : Text) : Prop := ∀ c ∈ ['/', '?', '#', '@'], c ∉ text

section Authority

variable {user host password : Text} {sep : Char}

theorem lstrip_append_cons {xs ys : Text} {c : Char} (hc : isSpace c = false) :
    lstrip (xs ++ c :: ys) = lstrip xs ++ c :: ys := dropWhile_append_cons hc

theorem strip_append_cons {xs ys : Text} {c : Char} (hc : isSpace c = false) :
    strip (xs ++ c :: ys) = lstrip xs ++ c :: rstrip ys := by
  rw [strip, lstrip_append_cons hc]
  exact rdropWhile_append_cons hc

theorem lstrip_subset (text : Text) : lstrip text ⊆ text := (List.dropWhile_sublist _).subset

theorem rstrip_subset (text : Text) : rstrip text ⊆ text := (List.rdropWhile_prefix _ _).subset

theorem strip_subset (text : Text) : strip text ⊆ text :=
  fun _ hc => lstrip_subset text (rstrip_subset _ hc)

/-- What is not a space is not stripped. -/
theorem mem_lstrip_iff {text : Text} {c : Char} (hc : isSpace c = false) :
    c ∈ lstrip text ↔ c ∈ text := by
  refine ⟨fun h => lstrip_subset text h, fun h => ?_⟩
  obtain ⟨before, after, rfl⟩ := List.append_of_mem h
  rw [lstrip_append_cons hc]
  exact List.mem_append_right _ List.mem_cons_self

theorem serverSep_eq_some (h : serverSep password = some sep) :
    sep ∈ password ∧ (sep = ';' ∨ sep = ',' ∧ ';' ∉ password) := by
  rw [serverSep] at h
  split at h
  next hsemicolon =>
    obtain rfl := Option.some_inj.mp h
    exact ⟨hsemicolon, Or.inl rfl⟩
  next hsemicolon =>
    split at h
    next hcomma =>
      obtain rfl := Option.some_inj.mp h
      exact ⟨hcomma, Or.inr ⟨rfl, hsemicolon⟩⟩
    next => cases h

/-- A separator is in the authority exactly if it is in the password. -/
theorem serverSep_authority (huser : Plain user) (hhost : Plain host) :
    serverSep (user ++ ':' :: (password ++ '@' :: host)) = serverSep password := by
  have hmem : ∀ c ∈ [';', ','],
      (c ∈ user ++ ':' :: (password ++ '@' :: host) ↔ c ∈ password) := by
    intro c hc
    have hne : c ≠ ':' ∧ c ≠ '@' := by
      simp only [List.mem_cons, List.not_mem_nil, or_false] at hc
      rcases hc with rfl | rfl
      · decide
      · decide
    have hplain : c ∈ [':', '@', ';', ',', '/', '?', '#'] := by
      simp only [List.mem_cons, List.not_mem_nil, or_false] at hc ⊢
      tauto
    simp [huser c hplain, hhost c hplain, hne.1, hne.2]
  simp only [serverSep, hmem ';' (by simp), hmem ',' (by simp)]

theorem not_isSpace : isSpace ':' = false ∧ isSpace '@' = false := by decide

/-- The pieces of a password that has a separator. -/
structure Pieces (password : Text) (sep : Char) (first : Text) (middle : List Text)
    (last : Text) : Prop where
  split : password.splitOn sep = first :: (middle ++ [last])
  sub : ∀ piece ∈ first :: (middle ++ [last]), piece ⊆ password
  free : ∀ piece ∈ first :: (middle ++ [last]), sep ∉ piece

theorem exists_pieces (h : sep ∈ password) :
    ∃ first middle last, Pieces password sep first middle last := by
  obtain ⟨first, middle, last, hsplit⟩ := exists_splitOn_eq h
  exact ⟨first, middle, last, hsplit,
    fun piece hpiece => (infix_of_mem_splitOn (hsplit ▸ hpiece)).subset,
    fun piece hpiece => not_mem_of_mem_splitOn (hsplit ▸ hpiece)⟩

variable {first last : Text} {middle : List Text}

/-- The chunks of the authority: the user name goes with the first piece, and the host with
the last one. -/
theorem chunks_authority (h : Pieces password sep first middle last)
    (huser : sep ∉ user) (hhost : sep ∉ host) (hcolon : sep ≠ ':') (hat : sep ≠ '@') :
    chunks sep (user ++ ':' :: (password ++ '@' :: host)) =
      (lstrip user ++ ':' :: rstrip first) ::
        ((middle.map strip).filter (fun piece => piece ≠ []) ++
          [lstrip last ++ '@' :: rstrip host]) := by
  have hjoin : user ++ ':' :: (password ++ '@' :: host) =
      List.intercalate [sep] ((user ++ ':' :: first) :: (middle ++ [last ++ '@' :: host])) := by
    have hpassword : List.intercalate [sep] (password.splitOn sep) = password :=
      List.intercalate_splitOn sep
    rw [h.split] at hpassword
    have hlast : password ++ '@' :: host =
        List.intercalate [sep] (first :: (middle ++ [last ++ '@' :: host])) := by
      rw [← hpassword]
      exact intercalate_append (first :: middle) last ('@' :: host)
    rw [hlast, List.append_cons, append_intercalate, List.append_assoc]
    rfl
  have hfree : ∀ piece ∈ (user ++ ':' :: first) :: (middle ++ [last ++ '@' :: host]),
      sep ∉ piece := by
    intro piece hpiece
    rcases List.mem_cons.mp hpiece with rfl | hpiece
    · simp [huser, hcolon, h.free first List.mem_cons_self]
    · rcases List.mem_append.mp hpiece with hpiece | hpiece
      · exact h.free piece (by simp [hpiece])
      · obtain rfl := List.mem_singleton.mp hpiece
        simp [hat, hhost, h.free last (by simp)]
  rw [chunks, hjoin, List.splitOn_intercalate sep hfree (by simp), List.map_cons, List.map_append,
    List.map_singleton, strip_append_cons not_isSpace.1, strip_append_cons not_isSpace.2]
  simp

/-- What a password shows, in terms of its pieces. -/
theorem shown_eq (h : Pieces password sep first middle last) (hsep : serverSep password = some sep)
    (user : Text) :
    shown user password =
      if lstrip user ≠ [] ∧
          (∀ piece ∈ (middle.map strip).filter (fun piece => piece ≠ []),
            [':'].isPrefixOf piece = false) ∧ ':' ∈ last then
        some ⟨sep, rstrip first, (middle.map strip).filter fun piece => piece ≠ [],
          (lstrip last).takeWhile fun c => c ≠ ':'⟩
      else none := by
  rw [shown, hsep, Option.bind_some, h.split]
  simp only [List.tail_cons, List.dropLast_concat, List.headD_cons]
  have hlast : (first :: (middle ++ [last])).getLastD [] = last := by
    rw [← List.cons_append, List.getLastD_concat]
  rw [hlast]

/-- What is shown comes from the pieces of a password that is taken for servers. -/
theorem exists_of_shown {s : Shown} (h : shown user password = some s) :
    ∃ sep first middle last, Pieces password sep first middle last ∧
      serverSep password = some sep ∧
      (lstrip user ≠ [] ∧
        (∀ piece ∈ (middle.map strip).filter (fun piece => piece ≠ []),
          [':'].isPrefixOf piece = false) ∧ ':' ∈ last) ∧
      s = ⟨sep, rstrip first, (middle.map strip).filter fun piece => piece ≠ [],
        (lstrip last).takeWhile fun c => c ≠ ':'⟩ := by
  cases hsep : serverSep password with
  | none =>
    rw [shown, hsep] at h
    cases h
  | some sep =>
    obtain ⟨first, middle, last, hpieces⟩ := exists_pieces (serverSep_eq_some hsep).1
    rw [shown_eq hpieces hsep] at h
    split at h
    next hmulti =>
      exact ⟨sep, first, middle, last, hpieces, rfl, hmulti, (Option.some_inj.mp h).symm⟩
    next => cases h

theorem isPrefixOf_append_cons {xs : Text} (hxs : ':' ∉ xs) (ys : Text) :
    [':'].isPrefixOf (xs ++ ':' :: ys) = decide (xs = []) := by
  cases xs with
  | nil => rfl
  | cons x xs =>
    have hne : ':' ≠ x := List.ne_of_not_mem_cons hxs
    rw [List.cons_append, List.isPrefixOf_cons_cons, beq_eq_false_iff_ne.mpr hne, Bool.false_and]
    exact (decide_eq_false (List.cons_ne_nil x xs)).symm

/-- What a separator is not. -/
theorem sep_plain (hsep : sep = ';' ∨ sep = ',') :
    sep ∈ [':', '@', ';', ',', '/', '?', '#'] ∧ sep ≠ ':' ∧ sep ≠ '@' := by
  rcases hsep with rfl | rfl
  · decide
  · decide

theorem at_not_mem_first (h : Pieces password sep first middle last) (huser : Plain user)
    (hpassword : PlainPassword password) : '@' ∉ lstrip user ++ ':' :: rstrip first := by
  have huserAt : '@' ∉ lstrip user := fun hmem => huser '@' (by simp) (lstrip_subset user hmem)
  have hfirstAt : '@' ∉ rstrip first := fun hmem =>
    hpassword '@' (by simp) (h.sub first List.mem_cons_self (rstrip_subset first hmem))
  rw [List.mem_append, List.mem_cons, not_or, not_or]
  exact ⟨huserAt, by decide, hfirstAt⟩

theorem at_not_mem_middle (h : Pieces password sep first middle last)
    (hpassword : PlainPassword password) :
    ∀ piece ∈ (middle.map strip).filter (fun piece => piece ≠ []), '@' ∉ piece := by
  intro piece hpiece hmem
  obtain ⟨piece', hpiece', rfl⟩ := List.mem_map.mp (List.mem_of_mem_filter hpiece)
  exact hpassword '@' (by simp) (h.sub piece' (by simp [hpiece']) (strip_subset piece' hmem))

theorem at_not_mem_host (hhost : Plain host) : '@' ∉ rstrip host := fun hmem =>
  hhost '@' (by simp) (rstrip_subset host hmem)

/-- **When the authority is taken for a list of servers.** -/
theorem isMultiserver_iff (h : Pieces password sep first middle last)
    (hsep : sep = ';' ∨ sep = ',') (huser : Plain user) (hhost : Plain host)
    (hpassword : PlainPassword password) :
    isMultiserver sep (user ++ ':' :: (password ++ '@' :: host)) = true ↔
      lstrip user ≠ [] ∧
        (∀ piece ∈ (middle.map strip).filter (fun piece => piece ≠ []),
          [':'].isPrefixOf piece = false) ∧ ':' ∈ last := by
  obtain ⟨hplain, hcolon, hat⟩ := sep_plain hsep
  have hfirst := at_not_mem_first h huser hpassword
  have hmiddle := at_not_mem_middle h hpassword
  have hstart := isPrefixOf_append_cons
    (fun hmem => huser ':' (by simp) (lstrip_subset user hmem)) (rstrip first)
  have hlast : ':' ∈ lstrip last ↔ ':' ∈ last := mem_lstrip_iff not_isSpace.1
  rw [isMultiserver, chunks_authority h (huser sep hplain) (hhost sep hplain) hcolon hat]
  generalize (middle.map strip).filter (fun piece => piece ≠ []) = mids at hmiddle ⊢
  have hcorrupt : mids.any (fun c => decide ('@' ∉ c) && [':'].isPrefixOf c) =
      mids.any fun c => [':'].isPrefixOf c := by
    rw [Bool.eq_iff_iff, List.any_eq_true, List.any_eq_true]
    refine exists_congr fun c => and_congr_right fun hc => ?_
    rw [decide_eq_true (hmiddle c hc), Bool.true_and]
  have hcredentials :
      mids.any (fun c => decide ('@' ∈ c) && decide (':' ∉ (rpartition '@' c).1)) = false := by
    rw [List.any_eq_false]
    intro c hc
    rw [decide_eq_false (hmiddle c hc), Bool.false_and]
    exact Bool.false_ne_true
  have hnone : mids.any (fun c => [':'].isPrefixOf c) = false ↔
      ∀ piece ∈ mids, [':'].isPrefixOf piece = false := by
    simp only [List.any_eq_false, Bool.not_eq_true]
  -- of the user name and the host, only the first chunk and the last one have anything
  simp only [List.any_cons, List.any_append, List.any_nil, rpartition_append
    (at_not_mem_host hhost), hstart, hcorrupt, hcredentials]
  rw [← hnone]
  simp [hfirst, hlast, and_assoc]

theorem maskUinfo_append {xs : Text} (hxs : ':' ∉ xs) (ys : Text) :
    maskUinfo (xs ++ ':' :: ys) = xs ++ ':' :: mask := by
  have hcut : (xs ++ ':' :: ys).takeWhile (fun c => decide (c ≠ ':')) = xs :=
    takeWhile_append_cons (p := fun c => decide (c ≠ ':'))
      (fun c hc => decide_eq_true fun heq => hxs (heq ▸ hc)) (by decide)
  rw [maskUinfo, if_pos (by simp), hcut]

/-- **An authority of one server has its whole password masked.** -/
theorem sanitizeSingle_authority (huser : Plain user) (hhost : Plain host) :
    sanitizeSingle (user ++ ':' :: (password ++ '@' :: host)) =
      user ++ ':' :: (mask ++ '@' :: host) := by
  have hcut : user ++ ':' :: (password ++ '@' :: host) =
      (user ++ ':' :: password) ++ '@' :: host := by simp
  rw [sanitizeSingle, hcut, rpartition_append (hhost '@' (by simp)),
    maskUinfo_append (huser ':' (by simp)), if_neg (by simp), List.append_assoc]
  rfl

theorem sanitizeServer_of_not_mem {server : Text} (h : '@' ∉ server) :
    sanitizeServer server = server := if_neg h

/-- The last server: up to its first `:`, it is shown. -/
theorem sanitizeServer_last (hhost : Plain host) (hlast : ':' ∈ last) :
    sanitizeServer (lstrip last ++ '@' :: rstrip host) =
      (lstrip last).takeWhile (fun c => c ≠ ':') ++ ':' :: (mask ++ '@' :: rstrip host) := by
  rw [sanitizeServer, if_pos (by simp), rpartition_append (at_not_mem_host hhost), maskUinfo,
    if_pos ((mem_lstrip_iff not_isSpace.1).mpr hlast), List.append_assoc, List.cons_append]

/-- **A password that is not taken for servers is masked.** -/
theorem sanitizeAuthority_of_shown_none (huser : Plain user) (hhost : Plain host)
    (hpassword : PlainPassword password) (h : shown user password = none) :
    sanitizeAuthority (user ++ ':' :: (password ++ '@' :: host)) =
      user ++ ':' :: (mask ++ '@' :: host) := by
  rw [sanitizeAuthority, serverSep_authority huser hhost]
  cases hsep : serverSep password with
  | none => exact sanitizeSingle_authority huser hhost
  | some sep =>
    obtain ⟨hmem, hcases⟩ := serverSep_eq_some hsep
    obtain ⟨first, middle, last, hpieces⟩ := exists_pieces hmem
    rw [shown_eq hpieces hsep] at h
    have hsingle : ¬ isMultiserver sep (user ++ ':' :: (password ++ '@' :: host)) = true := by
      rw [isMultiserver_iff hpieces (hcases.imp_right And.left) huser hhost hpassword]
      intro hmulti
      rw [if_pos hmulti] at h
      cases h
    dsimp only
    rw [if_neg hsingle]
    exact sanitizeSingle_authority huser hhost

/-- **Of a password that is taken for servers, all is shown but the end.** -/
theorem sanitizeAuthority_of_shown {s : Shown} (huser : Plain user) (hhost : Plain host)
    (hpassword : PlainPassword password) (h : shown user password = some s) :
    sanitizeAuthority (user ++ ':' :: (password ++ '@' :: host)) =
      List.intercalate [s.sep] (s.servers user host) := by
  obtain ⟨sep, first, middle, last, hpieces, hsep, hmulti, rfl⟩ := exists_of_shown h
  have hcases := (serverSep_eq_some hsep).2.imp_right And.left
  obtain ⟨hplain, hcolon, hat⟩ := sep_plain hcases
  have hmiddle : ((middle.map strip).filter (fun piece => piece ≠ [])).map sanitizeServer =
      (middle.map strip).filter fun piece => piece ≠ [] := by
    rw [List.map_congr_left fun piece hpiece => sanitizeServer_of_not_mem
      (at_not_mem_middle hpieces hpassword piece hpiece), List.map_id']
  rw [sanitizeAuthority, serverSep_authority huser hhost, hsep]
  dsimp only
  rw [if_pos ((isMultiserver_iff hpieces hcases huser hhost hpassword).mpr hmulti),
    chunks_authority hpieces (huser sep hplain) (hhost sep hplain) hcolon hat, List.map_cons,
    List.map_append, List.map_singleton, hmiddle,
    sanitizeServer_of_not_mem (at_not_mem_first hpieces huser hpassword),
    sanitizeServer_last hhost hmulti.2.2]
  rfl

/-- **The sanitized authority is what the password shows.** -/
theorem sanitizeAuthority_eq (huser : Plain user) (hhost : Plain host)
    (hpassword : PlainPassword password) :
    sanitizeAuthority (user ++ ':' :: (password ++ '@' :: host)) =
      render user host (shown user password) := by
  cases h : shown user password with
  | none => exact sanitizeAuthority_of_shown_none huser hhost hpassword h
  | some s => exact sanitizeAuthority_of_shown huser hhost hpassword h

/-! ## What is shown can be told apart -/

/-- The separator is not in the pieces, and neither is `;`. -/
structure Shown.Separated (s : Shown) : Prop where
  sep : s.sep = ';' ∨ s.sep = ','
  free : ∀ piece ∈ s.first :: (s.middle ++ [s.last]), ';' ∉ piece ∧ s.sep ∉ piece

theorem separated_of_shown {s : Shown} (h : shown user password = some s) : s.Separated := by
  obtain ⟨sep, first, middle, last, hpieces, hsep, -, rfl⟩ := exists_of_shown h
  obtain ⟨-, hcases⟩ := serverSep_eq_some hsep
  have hfree : ∀ piece ∈ first :: (middle ++ [last]), ∀ piece' ⊆ piece,
      ';' ∉ piece' ∧ sep ∉ piece' := by
    intro piece hpiece piece' hsub
    refine ⟨fun hsemicolon => ?_, fun hc => hpieces.free piece hpiece (hsub hc)⟩
    rcases hcases with rfl | ⟨-, hnot⟩
    · exact hpieces.free piece hpiece (hsub hsemicolon)
    · exact hnot (hpieces.sub piece hpiece (hsub hsemicolon))
  refine ⟨hcases.imp_right And.left, fun piece hpiece => ?_⟩
  rcases List.mem_cons.mp hpiece with rfl | hpiece
  · exact hfree first List.mem_cons_self _ (rstrip_subset first)
  · rcases List.mem_append.mp hpiece with hpiece | hpiece
    · obtain ⟨piece', hpiece', rfl⟩ := List.mem_map.mp (List.mem_of_mem_filter hpiece)
      exact hfree piece' (by simp [hpiece']) _ (strip_subset piece')
    · obtain rfl := List.mem_singleton.mp hpiece
      exact hfree last (by simp) _
        (List.Subset.trans (List.takeWhile_sublist _).subset (lstrip_subset last))

/-- The servers have no other separators than the pieces. -/
theorem Shown.not_mem_servers {s : Shown} {c : Char} (hc : c = ';' ∨ c = ',')
    (huser : Plain user) (hhost : Plain host)
    (h : ∀ piece ∈ s.first :: (s.middle ++ [s.last]), c ∉ piece) :
    ∀ server ∈ s.servers user host, c ∉ server := by
  obtain ⟨hplain, hcolon, hat⟩ := sep_plain hc
  have huser' : c ∉ lstrip user := fun hmem => huser c hplain (lstrip_subset user hmem)
  have hhost' : c ∉ rstrip host := fun hmem => hhost c hplain (rstrip_subset host hmem)
  have hmask : c ∉ mask := by
    rcases hc with rfl | rfl
    · decide
    · decide
  intro server hserver
  rcases List.mem_cons.mp hserver with rfl | hserver
  · simp [huser', hcolon, h s.first List.mem_cons_self]
  · rcases List.mem_append.mp hserver with hserver | hserver
    · exact h server (by simp [hserver])
    · obtain rfl := List.mem_singleton.mp hserver
      simp [hcolon, hat, hmask, hhost', h s.last (by simp)]

theorem Shown.sep_mem_render (s : Shown) (user host : Text) :
    s.sep ∈ List.intercalate [s.sep] (s.servers user host) := by
  rw [Shown.servers, List.intercalate_cons_of_ne_nil (by simp)]
  simp

/-- **The separator is that of the sanitized authority.** -/
theorem serverSep_render {o : Option Shown} (huser : Plain user) (hhost : Plain host)
    (ho : ∀ s ∈ o, s.Separated) : serverSep (render user host o) = o.map Shown.sep := by
  cases o with
  | none =>
    have hnone : serverSep mask = none := by decide
    rw [render, serverSep_authority huser hhost, hnone]
    rfl
  | some s =>
    have hs : s.Separated := ho s rfl
    have hmem := s.sep_mem_render user host
    have hsemicolon : ∀ server ∈ s.servers user host, ';' ∉ server :=
      s.not_mem_servers (Or.inl rfl) huser hhost fun piece hpiece => (hs.free piece hpiece).1
    rw [render, serverSep, Option.map_some]
    rcases hs.sep with hsep | hsep
    · rw [hsep] at hmem ⊢
      rw [if_pos hmem]
    · rw [hsep] at hmem ⊢
      have hnot : ';' ∉ List.intercalate [','] (s.servers user host) := by
        intro hmem'
        obtain heq | ⟨server, hserver, hin⟩ := mem_intercalate hmem'
        · exact absurd heq (by decide)
        · exact hsemicolon server hserver hin
      rw [if_neg hnot, if_pos hmem]

/-- The servers say what is shown. -/
theorem Shown.servers_injective {s t : Shown} (hsep : s.sep = t.sep)
    (h : s.servers user host = t.servers user host) : s = t := by
  obtain ⟨hfirst, hrest⟩ := List.cons.inj h
  obtain ⟨hmiddle, hlast⟩ := List.append_inj' hrest rfl
  have hfirst' : s.first = t.first := List.cons.inj (List.append_cancel_left hfirst) |>.2
  have hlast' : s.last = t.last := List.append_cancel_right (List.cons.inj hlast).1
  obtain ⟨sep, first, middle, last⟩ := s
  obtain ⟨sep', first', middle', last'⟩ := t
  simp only at hsep hfirst' hmiddle hlast'
  rw [hsep, hfirst', hmiddle, hlast']

/-- **Sanitized authorities are the same exactly if the passwords show the same.** -/
theorem render_inj {o o' : Option Shown} (huser : Plain user) (hhost : Plain host)
    (ho : ∀ s ∈ o, s.Separated) (ho' : ∀ s ∈ o', s.Separated) :
    render user host o = render user host o' ↔ o = o' := by
  refine ⟨fun h => ?_, fun h => by rw [h]⟩
  have hsep : o.map Shown.sep = o'.map Shown.sep := by
    rw [← serverSep_render huser hhost ho, ← serverSep_render huser hhost ho', h]
  have hsplit : ∀ s : Shown, s.Separated →
      (List.intercalate [s.sep] (s.servers user host)).splitOn s.sep = s.servers user host :=
    fun s hs => List.splitOn_intercalate s.sep
      (s.not_mem_servers hs.sep huser hhost fun piece hpiece => (hs.free piece hpiece).2)
      (by simp [Shown.servers])
  cases o with
  | none =>
    cases o' with
    | none => rfl
    | some t => cases hsep
  | some s =>
    cases o' with
    | none => cases hsep
    | some t =>
      have heq : s.sep = t.sep := Option.some_inj.mp hsep
      have hservers : s.servers user host = t.servers user host := by
        rw [← hsplit s (ho s rfl), ← hsplit t (ho' t rfl), heq]
        rw [render, render, heq] at h
        rw [h]
      rw [Shown.servers_injective heq hservers]

end Authority

/-! ## The whole URL -/

section Url

variable {scheme user password host tail : Text}

/-- A URL with a user name and a password. -/
def credentialsUrl (scheme user password host tail : Text) : Text :=
  scheme ++ schemeEnd ++ (user ++ ':' :: (password ++ '@' :: host) ++ tail)

/-- A path, query and fragment, without another URL in it. -/
structure PlainTail (tail : Text) : Prop where
  start : ∀ c ∈ tail.head?, inAuthority c = false
  clean : ¬ schemeEnd <:+: tail

/-- The authority goes up to the tail. -/
theorem cut_tail {authority : Text} (hauthority : ∀ c ∈ authority, inAuthority c = true)
    (htail : PlainTail tail) :
    (authority ++ tail).takeWhile inAuthority = authority ∧
      (authority ++ tail).dropWhile inAuthority = tail := by
  rw [List.takeWhile_append_of_pos hauthority, List.dropWhile_append_of_pos hauthority]
  cases tail with
  | nil => exact ⟨List.append_nil authority, rfl⟩
  | cons c rest =>
    have hc := htail.start c rfl
    rw [List.takeWhile_cons_of_neg (by simp [hc]), List.dropWhile_cons_of_neg (by simp [hc])]
    exact ⟨List.append_nil authority, rfl⟩

theorem inAuthority_of_mem (huser : Plain user) (hhost : Plain host)
    (hpassword : PlainPassword password) :
    ∀ c ∈ user ++ ':' :: (password ++ '@' :: host), inAuthority c = true := by
  intro c hc
  refine decide_eq_true fun hcut => ?_
  have hplain : c ∈ [':', '@', ';', ',', '/', '?', '#'] :=
    List.mem_append_right [':', '@', ';', ','] hcut
  have hpassword' : c ∈ ['/', '?', '#', '@'] := List.mem_append_left ['@'] hcut
  have hne : c ≠ ':' ∧ c ≠ '@' := by
    refine ⟨?_, ?_⟩
    · rintro rfl
      exact absurd hcut (by decide)
    · rintro rfl
      exact absurd hcut (by decide)
  simp [huser c hplain, hhost c hplain, hpassword c hpassword', hne.1, hne.2] at hc

/-- There is no second URL behind the scheme. -/
theorem not_infix_rest (huser : Plain user) (hhost : Plain host)
    (hpassword : PlainPassword password) (htail : PlainTail tail) :
    ¬ schemeEnd <:+: user ++ ':' :: (password ++ '@' :: host) ++ tail := by
  have hslash : '/' ∉ user ++ ':' :: password := by
    simp [huser '/' (by simp), hpassword '/' (by simp)]
  have hbefore : ¬ schemeEnd <:+: user ++ ':' :: password := fun h =>
    hslash (h.subset (by decide : '/' ∈ schemeEnd))
  have hcolon : ':' ∉ '@' :: host := by simp [hhost ':' (by simp)]
  have hafter : ¬ schemeEnd <:+: '@' :: (host ++ tail) := not_infix_append hcolon htail.clean
  have heq : user ++ ':' :: (password ++ '@' :: host) ++ tail =
      (user ++ ':' :: password) ++ '@' :: (host ++ tail) := by simp
  rw [heq]
  exact not_infix_append_cons (by decide) hbefore hafter

/-- **A URL with credentials, sanitized.** -/
theorem sanitizeUrl_credentialsUrl (hscheme : Plain scheme) (huser : Plain user)
    (hhost : Plain host) (hpassword : PlainPassword password) (htail : PlainTail tail) :
    sanitizeUrl (credentialsUrl scheme user password host tail) =
      scheme ++ schemeEnd ++ render user host (shown user password) ++ tail := by
  have hnot := not_infix_rest huser hhost hpassword htail
  have hone : (((credentialsUrl scheme user password host tail).splitOn ';').tail.any
      hasScheme) = false := by
    rw [List.any_eq_false]
    intro part hpart hhas
    have hstart : ';' ∉ scheme ++ schemeEnd := by
      rw [List.mem_append, not_or]
      exact ⟨hscheme ';' (by simp), by decide⟩
    have hinfix := infix_of_mem_tail_splitOn hstart hpart
    have hpart' : partition? schemeEnd part ≠ none := Option.isSome_iff_ne_none.mp hhas
    rw [Ne, partition?_eq_none_iff, not_not] at hpart'
    exact hnot (hpart'.trans hinfix)
  have hcut := cut_tail (inAuthority_of_mem huser hhost hpassword) htail
  rw [sanitizeUrl, hone, Bool.and_false, if_neg Bool.false_ne_true, sanitizeOne, credentialsUrl,
    schemeEnd, partition?_append (hscheme ':' (by simp))]
  dsimp only
  rw [hcut.1, hcut.2, if_pos (by simp), sanitizeAuthority_eq huser hhost hpassword]

/-- **Passwords are hidden exactly as far as they show the same.** -/
theorem sanitizeUrl_eq_iff {password' : Text} (hscheme : Plain scheme) (huser : Plain user)
    (hhost : Plain host) (hpassword : PlainPassword password)
    (hpassword' : PlainPassword password') (htail : PlainTail tail) :
    sanitizeUrl (credentialsUrl scheme user password host tail) =
        sanitizeUrl (credentialsUrl scheme user password' host tail) ↔
      shown user password = shown user password' := by
  rw [sanitizeUrl_credentialsUrl hscheme huser hhost hpassword htail,
    sanitizeUrl_credentialsUrl hscheme huser hhost hpassword' htail, List.append_left_inj,
    List.append_right_inj]
  exact render_inj huser hhost (fun s hs => separated_of_shown hs)
    fun s hs => separated_of_shown hs

instance : DecidablePred Plain := fun text => List.decidableBAll (fun c => c ∉ text) _

instance : DecidablePred PlainPassword := fun text => List.decidableBAll (fun c => c ∉ text) _

theorem plainTail_zero : PlainTail ['/', '0'] := by
  refine ⟨fun c hc => ?_, partition?_eq_none_iff.mp (by decide)⟩
  obtain rfl := Option.some_inj.mp hc
  decide

/-- Two servers that differ in the last piece only behind the `:`. -/
theorem sanitizeUrl_eq_iff_servers :
    sanitizeUrl (credentialsUrl ['r'] ['u'] ['a', ';', 'b', ':', 'c'] ['h'] ['/', '0']) =
        sanitizeUrl (credentialsUrl ['r'] ['u'] ['a', ';', 'b', ':', 'd'] ['h'] ['/', '0']) ↔
      shown ['u'] ['a', ';', 'b', ':', 'c'] = shown ['u'] ['a', ';', 'b', ':', 'd'] :=
  sanitizeUrl_eq_iff (by decide) (by decide) (by decide) (by decide) (by decide) plainTail_zero

/-- The password `a;b:c` is taken for two servers, and `a;b` is shown. -/
theorem sanitizeUrl_shows_password :
    ¬ ∀ scheme user password password' host tail : Text, Plain scheme → Plain user → Plain host →
      PlainTail tail → password ≠ [] → password' ≠ [] → PlainPassword password →
      PlainPassword password' →
      sanitizeUrl (credentialsUrl scheme user password host tail) =
        sanitizeUrl (credentialsUrl scheme user password' host tail) := by
  intro h
  have heq := h ['r'] ['u'] ['a', ';', 'b', ':', 'c'] ['x'] ['h'] ['/', '0'] (by decide)
    (by decide) (by decide) plainTail_zero (by decide) (by decide) (by decide) (by decide)
  exact absurd heq (by decide)

end Url

end SanitizeUrl
end Celery
