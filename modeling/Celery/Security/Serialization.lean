/-
# `celery/security/serialization.py`: signed messages

`SecureSerializer` (lines 22-77) signs the body of a message, and packs it with the name of
the signer, the signature and the content type and encoding of the body.  The receiver
unpacks these, verifies the signature of the body by the certificate of the signer, and
loads the body as the content type and encoding say.

What is packed comes out again (`unpack_packBytes`, `deserialize_serialize`).  A message that is
accepted has a body that a holder of the signer's key has signed, whatever has been done to
the signer, the signature and the body (`signed_of_deserialize`).  But nothing is signed of
the content type and the encoding, by which kombu chooses how the body is loaded.  So the value
is the one that was passed to `serialize`, by the same decoder, exactly if these two still choose
that decoder, and the value is one that it restores (`deserialize_authentic_iff`): JSON makes
lists of tuples.

Serializing and decoding are kombu's, and signing and verifying are left to a signature
scheme.  Texts, keys, decoders and data are of any types.
-/

import Celery.Library.Base64
import Celery.Library.Split

namespace Celery
namespace Security

/-- `bytes`. -/
abbrev Bytes := List UInt8

variable {T E D K : Type}

/-! ## What the serializer uses -/

/-- kombu's conversions of texts, its `dumps`, which gives content type, content encoding
and body, the decoder that it chooses for a content type and a content encoding, and decoding. -/
structure Kombu (T E D : Type) where
  strToBytes : T → Bytes
  bytesToStr : Bytes → T
  dumps : T → D → Option (T × T × Bytes)
  decoder : T → T → E
  decode : E → Bytes → Option D
  bytesToStr_strToBytes : ∀ text, bytesToStr (strToBytes text) = text

/-- kombu's `loads`, with `force=True`. -/
def Kombu.loads (kombu : Kombu T E D) (body : Bytes) (contentType contentEncoding : T) : Option D :=
  kombu.decode (kombu.decoder contentType contentEncoding) body

/-- A signature scheme, with the digest that is configured. -/
structure Scheme (K : Type) where
  sign : K → Bytes → Bytes
  verify : K → Bytes → Bytes → Bool

/-- `Certificate`, of the key with this name; whether it has expired is as of now. -/
structure Certificate (T K : Type) where
  id : T
  key : K
  hasExpired : Bool

/-- `Certificate.verify`. -/
def Certificate.verify (scheme : Scheme K) (cert : Certificate T K) (data signature : Bytes) :
    Bool :=
  !cert.hasExpired && scheme.verify cert.key data signature

/-- `SecureSerializer`. -/
structure SecureSerializer (T K : Type) where
  key : Option K
  cert : Option (Certificate T K)
  certStore : Option (T → Option (Certificate T K))
  serializer : T

/-- What `_unpack` returns. -/
structure Payload (T : Type) where
  signer : Bytes
  signature : Bytes
  contentType : T
  contentEncoding : T
  body : Bytes
deriving DecidableEq

/-! ## Serializing and deserializing -/

/-- `DEFAULT_SEPARATOR`. -/
def separator : Bytes := [0, 1]

variable (kombu : Kombu T E D) (scheme : Scheme K)

/-- `_pack`. -/
def pack (body : Bytes) (contentType contentEncoding signer : T) (signature : Bytes) : Bytes :=
  Base64.encode (List.intercalate separator
    [Base64.encode (kombu.strToBytes signer), Base64.encode signature,
      kombu.strToBytes contentType, kombu.strToBytes contentEncoding, body])

/-- `_pack`, of a signer that is given in bytes. -/
def packBytes (body : Bytes) (contentType contentEncoding : T) (signer signature : Bytes) : Bytes :=
  Base64.encode (List.intercalate separator
    [Base64.encode signer, Base64.encode signature, kombu.strToBytes contentType,
      kombu.strToBytes contentEncoding, body])

/-- `_unpack`. -/
def unpack (payload : Bytes) : Option (Payload T) :=
  (Base64.decode payload).bind fun rawPayload =>
    match Split.splitMax separator 4 rawPayload with
    | [signer, signature, contentType, contentEncoding, body] =>
      (Base64.decode signer).bind fun signer =>
        (Base64.decode signature).map fun signature =>
          ⟨signer, signature, kombu.bytesToStr contentType, kombu.bytesToStr contentEncoding, body⟩
    | _ => none

/-- `serialize`; `none` where it raises. -/
def serialize (s : SecureSerializer T K) (data : D) : Option Bytes :=
  s.key.bind fun key => s.cert.bind fun cert =>
    (kombu.dumps s.serializer data).map fun dumped =>
      pack kombu dumped.2.2 dumped.1 dumped.2.1 cert.id (scheme.sign key dumped.2.2)

/-- `self._cert_store[signer]`. -/
def signerOf (s : SecureSerializer T K) (payload : Payload T) : Option (Certificate T K) :=
  s.certStore.bind fun store => store (kombu.bytesToStr payload.signer)

/-- `deserialize`; `none` where it raises. -/
def deserialize (s : SecureSerializer T K) (data : Bytes) : Option D :=
  (unpack kombu data).bind fun payload =>
    (signerOf kombu s payload).bind fun cert =>
      if cert.verify scheme payload.body payload.signature then
        kombu.loads payload.body payload.contentType payload.contentEncoding
      else none

variable {kombu} {scheme} {s : SecureSerializer T K}

/-- The separator does not begin in a piece that has none and end in the one that follows. -/
theorem not_separator_infix_append {piece : Bytes} (h : ¬ separator <:+: piece) :
    ¬ separator <:+: piece ++ separator.dropLast := by
  have hlast : separator.dropLast = [0] := rfl
  rw [hlast, List.infix_concat_iff]
  rintro (hend | hinside)
  · have heq := List.IsSuffix.getLast hend (List.cons_ne_nil _ _)
    rw [List.getLast_concat] at heq
    exact absurd heq (by decide)
  · exact h hinside

theorem not_separator_infix_of_not_mem {piece : Bytes} (h : 0 ∉ piece) :
    ¬ separator <:+: piece := fun hinside => h (hinside.subset List.mem_cons_self)

/-- What is joined is unpacked to the pieces. -/
theorem unpack_encode_intercalate (body : Bytes) {contentType contentEncoding : T}
    (signer signature : Bytes) (htype : ¬ separator <:+: kombu.strToBytes contentType)
    (hencoding : ¬ separator <:+: kombu.strToBytes contentEncoding) :
    unpack kombu (Base64.encode (List.intercalate separator
      [Base64.encode signer, Base64.encode signature, kombu.strToBytes contentType,
        kombu.strToBytes contentEncoding, body])) =
      some ⟨signer, signature, contentType, contentEncoding, body⟩ := by
  have hencode : ∀ bytes, ¬ separator <:+: Base64.encode bytes := fun bytes =>
    not_separator_infix_of_not_mem (Base64.zero_not_mem_encode bytes)
  have hpieces : ∀ piece ∈ [Base64.encode signer, Base64.encode signature,
      kombu.strToBytes contentType, kombu.strToBytes contentEncoding],
      ¬ separator <:+: piece ++ separator.dropLast := by
    simp only [List.forall_mem_cons, List.not_mem_nil, false_implies, implies_true, and_true]
    exact ⟨not_separator_infix_append (hencode signer),
      not_separator_infix_append (hencode signature), not_separator_infix_append htype,
      not_separator_infix_append hencoding⟩
  have hsplit := Split.splitMax_intercalate_of_not_infix _ body (List.cons_ne_nil 0 [1]) hpieces
  dsimp only [List.length_cons, List.length_nil, List.cons_append, List.nil_append] at hsplit
  rw [unpack, Base64.decode_encode, Option.bind_some, separator, hsplit]
  dsimp only
  rw [Base64.decode_encode, Base64.decode_encode, Option.bind_some, Option.map_some,
    kombu.bytesToStr_strToBytes, kombu.bytesToStr_strToBytes]

/-- **What is packed comes out again**, where the content type and encoding have no separator,
whatever the other fields have in them. -/
theorem unpack_packBytes (kombu : Kombu T E D) (body : Bytes) (contentType contentEncoding : T)
    (signer signature : Bytes) (htype : ¬ separator <:+: kombu.strToBytes contentType)
    (hencoding : ¬ separator <:+: kombu.strToBytes contentEncoding) :
    unpack kombu (packBytes kombu body contentType contentEncoding signer signature) =
      some ⟨signer, signature, contentType, contentEncoding, body⟩ :=
  unpack_encode_intercalate body signer signature htype hencoding

/-- The same of the name of a signer, where the content type and encoding have no NUL. -/
theorem unpack_pack (body : Bytes) {contentType contentEncoding : T} (signer : T)
    (signature : Bytes) (htype : 0 ∉ kombu.strToBytes contentType)
    (hencoding : 0 ∉ kombu.strToBytes contentEncoding) :
    unpack kombu (pack kombu body contentType contentEncoding signer signature) =
      some ⟨kombu.strToBytes signer, signature, contentType, contentEncoding, body⟩ :=
  unpack_encode_intercalate body _ signature (not_separator_infix_of_not_mem htype)
    (not_separator_infix_of_not_mem hencoding)

/-- What it takes to be accepted. -/
theorem deserialize_eq_some_iff {data : Bytes} {v : D} :
    deserialize kombu scheme s data = some v ↔
      ∃ payload cert, unpack kombu data = some payload ∧ signerOf kombu s payload = some cert ∧
        cert.verify scheme payload.body payload.signature = true ∧
        kombu.loads payload.body payload.contentType payload.contentEncoding = some v := by
  rw [deserialize, Option.bind_eq_some_iff]
  refine exists_congr fun payload => ?_
  rw [Option.bind_eq_some_iff, exists_and_left, and_congr_right_iff]
  intro _
  refine exists_congr fun cert => and_congr_right fun _ => ?_
  split
  next h => simp [h]
  next h => simp [h]

/-- **What is serialized can be deserialized**, where the certificate is the key's own and
known to the receiver. -/
theorem deserialize_serialize {r : SecureSerializer T K} {key : K} {cert : Certificate T K}
    {store : T → Option (Certificate T K)} {data : D} {contentType contentEncoding : T}
    {body : Bytes} (hkey : s.key = some key) (hcert : s.cert = some cert)
    (hdumps : kombu.dumps s.serializer data = some (contentType, contentEncoding, body))
    (htype : 0 ∉ kombu.strToBytes contentType) (hencoding : 0 ∉ kombu.strToBytes contentEncoding)
    (hstore : r.certStore = some store) (hknown : store cert.id = some cert)
    (hverify : cert.verify scheme body (scheme.sign key body) = true)
    (hloads : kombu.loads body contentType contentEncoding = some data) :
    (serialize kombu scheme s data).bind (deserialize kombu scheme r) = some data := by
  rw [serialize, hkey, hcert, Option.bind_some, Option.bind_some, hdumps, Option.map_some,
    Option.bind_some]
  refine deserialize_eq_some_iff.mpr ⟨_, cert, unpack_pack body cert.id _ htype hencoding, ?_,
    hverify, hloads⟩
  rw [signerOf, hstore, Option.bind_some, kombu.bytesToStr_strToBytes, hknown]

/-! ## What cannot be altered, and what can -/

section Altered

variable (kombu) (scheme) (s) (passed : K → T → D → Prop)

/-- The holders of a key have serialized a body, from a value that was passed to a serializer
of this name. -/
def Serialized (key : K) (body : Bytes) : Prop :=
  ∃ serializer value contentType contentEncoding, passed key serializer value ∧
    kombu.dumps serializer value = some (contentType, contentEncoding, body)

/-- **Ideal signatures**: what is verified has been signed, and nothing is signed but what is
serialized. -/
def IdealSignatures : Prop :=
  ∀ key body signature, scheme.verify key body signature = true → Serialized kombu passed key body

/-- The message that bytes are unpacked to, and the certificate of its signer. -/
def Sent (data : Bytes) (payload : Payload T) (cert : Certificate T K) : Prop :=
  unpack kombu data = some payload ∧ signerOf kombu s payload = some cert

/-- **A message is authentic**: its value is the one that a holder of the signer's key passed
to `serialize`, and it is loaded by the decoder for which it was serialized. -/
def Authentic (data : Bytes) (v : D) : Prop :=
  ∃ payload cert, Sent kombu s data payload cert ∧
    ∃ serializer value contentType contentEncoding, passed cert.key serializer value ∧
      kombu.dumps serializer value = some (contentType, contentEncoding, payload.body) ∧
      v = value ∧ kombu.decoder payload.contentType payload.contentEncoding =
        kombu.decoder contentType contentEncoding

/-- The content type and encoding of a message choose the decoder for which a holder of the
signer's key has serialized the body, and this restores what was serialized. -/
def WellLabelled (data : Bytes) : Prop :=
  ∃ payload cert, Sent kombu s data payload cert ∧
    ∃ serializer value contentType contentEncoding, passed cert.key serializer value ∧
      kombu.dumps serializer value = some (contentType, contentEncoding, payload.body) ∧
      kombu.loads payload.body contentType contentEncoding = some value ∧
      kombu.decoder payload.contentType payload.contentEncoding =
        kombu.decoder contentType contentEncoding

variable {kombu} {scheme} {s} {passed}

/-- **Signer, signature and body cannot be altered**: a holder of the signer's key has
serialized the body of a message that is accepted. -/
theorem signed_of_deserialize (hideal : IdealSignatures kombu scheme passed) {data : Bytes}
    {v : D} (h : deserialize kombu scheme s data = some v) :
    ∃ payload cert, Sent kombu s data payload cert ∧
      Serialized kombu passed cert.key payload.body := by
  obtain ⟨payload, cert, hunpack, hsigner, hverify, -⟩ := deserialize_eq_some_iff.mp h
  rw [Certificate.verify, Bool.and_eq_true] at hverify
  exact ⟨payload, cert, ⟨hunpack, hsigner⟩, hideal cert.key payload.body _ hverify.2⟩

/-- **When a message that is accepted is authentic.**  Its body is one that a holder of the
signer's key has serialized; and its value is the one that was serialized, by the same
decoder, exactly if its content type and encoding choose the decoder of the body, and this
restores the value. -/
theorem deserialize_authentic_iff (hideal : IdealSignatures kombu scheme passed) {data : Bytes}
    {v : D} (h : deserialize kombu scheme s data = some v) :
    (∃ payload cert, Sent kombu s data payload cert ∧
        Serialized kombu passed cert.key payload.body) ∧
      (Authentic kombu s passed data v ↔ WellLabelled kombu s passed data) := by
  refine ⟨signed_of_deserialize hideal h, ?_⟩
  obtain ⟨payload, cert, hunpack, hsigner, -, hloads⟩ := deserialize_eq_some_iff.mp h
  constructor
  · rintro ⟨payload', cert', hsent, serializer, value, contentType, contentEncoding, hpassed,
      hdumps, rfl, hdecoder⟩
    obtain rfl : payload' = payload := Option.some_inj.mp (hsent.1.symm.trans hunpack)
    refine ⟨payload', cert', hsent, serializer, v, contentType, contentEncoding, hpassed, hdumps,
      ?_, hdecoder⟩
    rwa [Kombu.loads, ← hdecoder]
  · rintro ⟨payload', cert', hsent, serializer, value, contentType, contentEncoding, hpassed,
      hdumps, hrestored, hdecoder⟩
    obtain rfl : payload' = payload := Option.some_inj.mp (hsent.1.symm.trans hunpack)
    have hv : v = value := by
      rw [Kombu.loads, hdecoder] at hloads
      exact Option.some_inj.mp (hloads.symm.trans hrestored)
    exact ⟨payload', cert', hsent, serializer, value, contentType, contentEncoding, hpassed,
      hdumps, hv, hdecoder⟩

end Altered

/-! ## A message whose content type is changed -/

/-- A text in ASCII. -/
def ascii (text : List Char) : Bytes := text.map fun c => UInt8.ofNat c.toNat

/-- The text `hi`. -/
def hi : Bytes := ascii ['h', 'i']

/-- It in quotes, as it is in JSON. -/
def quoted : Bytes := 34 :: (hi ++ [34])

/-- The content type of JSON. -/
def applicationJson : Bytes :=
  ascii ['a', 'p', 'p', 'l', 'i', 'c', 'a', 't', 'i', 'o', 'n', '/', 'j', 's', 'o', 'n']

/-- A content type for which kombu has no decoder. -/
def textPlain : Bytes := ascii ['t', 'e', 'x', 't', '/', 'p', 'l', 'a', 'i', 'n']

/-- The content encoding. -/
def utf8 : Bytes := ascii ['u', 't', 'f', '-', '8']

/-- Another content encoding. -/
def latin1 : Bytes := ascii ['l', 'a', 't', 'i', 'n', '-', '1']

/-- kombu, on plain texts: in JSON they stand in quotes, whatever the encoding, and without a
decoder a body is loaded as the text that it is in an encoding. -/
def plainKombu : Kombu Bytes (Option Bytes) Bytes where
  strToBytes := id
  bytesToStr := id
  dumps _ data := some (applicationJson, utf8, 34 :: (data ++ [34]))
  decoder contentType contentEncoding :=
    if contentType = applicationJson then none else some contentEncoding
  decode decoder body :=
    match decoder with
    | none => some body.tail.dropLast
    | some contentEncoding =>
      if contentEncoding = utf8 ∨ contentEncoding = latin1 then some body else none
  bytesToStr_strToBytes _ := rfl

/-- A scheme with one key, that has signed the quoted text. -/
def oneSignature : Scheme Unit where
  sign _ _ := [7]
  verify _ body signature := body = quoted && signature = [7]

/-- What was passed to a serializer. -/
def hiPassed (_ : Unit) (_ data : Bytes) : Prop := data = hi

/-- The certificate of the key. -/
def cert : Certificate Bytes Unit := ⟨ascii ['c', 'a', ' ', '1'], (), false⟩

/-- Sender and receiver. -/
def jsonSerializer : SecureSerializer Bytes Unit :=
  ⟨some (), some cert, some fun id => if id = cert.id then some cert else none,
    ascii ['j', 's', 'o', 'n']⟩

/-- A body with separators, and a content type that ends with the first byte of one. -/
theorem separators_unpack :
    unpack plainKombu (packBytes plainKombu [0, 1, 7, 0, 1] [97, 0] [] [0, 1] [1, 0]) =
      some ⟨[0, 1], [1, 0], [97, 0], [], [0, 1, 7, 0, 1]⟩ :=
  unpack_packBytes plainKombu [0, 1, 7, 0, 1] [97, 0] [] [0, 1] [1, 0] (by decide) (by decide)

theorem ideal_oneSignature : IdealSignatures plainKombu oneSignature hiPassed := by
  intro key body signature hverify
  have hbody : body = quoted := of_decide_eq_true (Bool.and_eq_true_iff.mp hverify).1
  exact ⟨jsonSerializer.serializer, hi, applicationJson, utf8, rfl, hbody ▸ rfl⟩

/-- What is sent. -/
def message : Bytes := pack plainKombu quoted applicationJson utf8 cert.id [7]

/-- What a third party makes of it. -/
def relabelled : Bytes := pack plainKombu quoted textPlain utf8 cert.id [7]

theorem deserialize_message :
    deserialize plainKombu oneSignature jsonSerializer message = some hi := by
  decide +kernel

/-- What a third party makes of it that is loaded all the same. -/
def recoded : Bytes := pack plainKombu quoted applicationJson latin1 cert.id [7]

/-- Another content encoding makes no difference to JSON. -/
theorem recoded_authentic : Authentic plainKombu jsonSerializer hiPassed recoded hi := by
  have hrecoded : deserialize plainKombu oneSignature jsonSerializer recoded = some hi := by
    decide +kernel
  refine (deserialize_authentic_iff ideal_oneSignature hrecoded).2.mpr ?_
  have hunpack : unpack plainKombu recoded =
      some ⟨cert.id, [7], applicationJson, latin1, quoted⟩ := by
    decide +kernel
  have hsigner : signerOf plainKombu jsonSerializer
      ⟨cert.id, [7], applicationJson, latin1, quoted⟩ = some cert := rfl
  exact ⟨_, cert, ⟨hunpack, hsigner⟩, jsonSerializer.serializer, hi, applicationJson, utf8, rfl,
    rfl, rfl, rfl⟩

/-- **A message is accepted with another content type**, and gives another value: the quotes
have become part of the text. -/
theorem relabelled_not_authentic :
    serialize plainKombu oneSignature jsonSerializer hi = some message ∧
      deserialize plainKombu oneSignature jsonSerializer message = some hi ∧
      deserialize plainKombu oneSignature jsonSerializer relabelled = some quoted ∧
      ¬ Authentic plainKombu jsonSerializer hiPassed relabelled quoted := by
  refine ⟨by decide +kernel, deserialize_message, by decide +kernel, ?_⟩
  rintro ⟨_, _, _, _, value, _, _, rfl, _, hvalue, _⟩
  exact absurd hvalue (by decide)

end Security
end Celery
