import Waros.Lib.Codec
import Waros.Lib.Lookup
import Waros.Lib.Text

/-!
Signed package bundles (`crates/waros-pkg/src/lib.rs`).

The signature covers the manifest and, for every payload, its source, size
and SHA3-256 digest; the payloads themselves travel next to it. `verifyBundle`
checks both halves, and `verifyBundle_eq_ok` says what it accepts.
-/

namespace Waros.Pkg

open Lib Str List Wire UInt8

structure ManifestFile where
  path : Str
  source : Str
  executable : Bool
  size : ℕ
  deriving DecidableEq

structure Manifest where
  name : Str
  version : Str
  description : Str
  author : Str
  license : Str
  files : List ManifestFile
  dependencies : List Str
  minWarosVersion : Str
  category : Str
  deriving DecidableEq

structure WarPackPayload where
  source : Str
  contents : Str
  deriving DecidableEq

structure PayloadDigest where
  source : Str
  size : ℕ
  sha3_256 : Str
  deriving DecidableEq

structure SignatureEnvelope where
  scheme : Str
  keyId : Str
  signature : Str
  deriving DecidableEq

structure SignedManifest where
  manifest : Manifest
  payloads : List PayloadDigest
  signature : SignatureEnvelope
  deriving DecidableEq

structure WarPackBundle where
  signedManifest : SignedManifest
  payloads : List WarPackPayload
  deriving DecidableEq

structure TrustRoot where
  keyId : Str
  scheme : Str
  publicKeyHex : Str

inductive VerifyError
  | signatureMissing
  | unsupportedSignatureScheme
  | unknownTrustRoot
  | invalidPublicKey
  | invalidSignatureEncoding
  | signatureMismatch
  | canonicalEncodingFailed
  | duplicatePayload (source : Str)
  | payloadMissing (source : Str)
  | unexpectedPayload (source : Str)
  | payloadDigestMismatch (source : Str)
  | payloadSizeMismatch (source : Str)
  | filePayloadMissing (source : Str)
  | fileSizeMismatch (path : Str)
  deriving DecidableEq

/-- What the crate takes from other crates: SHA3-256, the decoding of keys and
signatures and the verification of ML-DSA-65, and the JSON text of what is
signed. -/
structure Crypto where
  Key : Type
  Signature : Type
  sha3_256 : List UInt8 → List UInt8
  decodeKey : List UInt8 → Option Key
  decodeSignature : List UInt8 → Option Signature
  verify : Key → List UInt8 → Signature → Bool
  encodeSigned : Manifest × List PayloadDigest → Option (List UInt8)

variable (value : UInt8) (bytes : List UInt8)

def hexDigit : Char :=
  let digit := value &&& 0x0F
  if digit ≤ 9 then .ofNat (0x30 + digit.toNat) else .ofNat (0x61 + (digit.toNat - 10))

def hexEncode : Str :=
  bytes.flatMap fun byte : UInt8 => [hexDigit (byte >>> 4), hexDigit (byte &&& 0x0F)]

def decodeDigit : Option UInt8 :=
  if 0x30 ≤ value ∧ value ≤ 0x39 then some (value - 0x30)
  else if 0x61 ≤ value ∧ value ≤ 0x66 then some (value - 0x61 + 10)
  else if 0x41 ≤ value ∧ value ≤ 0x46 then some (value - 0x41 + 10)
  else none

/-- The loop of `parse_hex` over the bytes, two at a time. -/
def decodeDigits : List UInt8 → Option (List UInt8)
  | high :: low :: rest =>
    match decodeDigit high, decodeDigit low, decodeDigits rest with
    | some high, some low, some output => some ((high <<< 4 ||| low) :: output)
    | _, _, _ => none
  | _ => some []

def parseHex (text : Str) : Option (List UInt8) :=
  let bytes := toUtf8 (trim text)
  if bytes.length % 2 ≠ 0 then none else decodeDigits bytes

def signingDomain : List UInt8 := toUtf8 "WarPkgSignedManifest-v1\x00".toList

section
variable (crypto : Crypto)

def sha3_256Hex (payload : List UInt8) : Str := hexEncode (crypto.sha3_256 payload)

def canonicalSignedMessage (manifest : Manifest) (payloads : List PayloadDigest) :
    Except VerifyError (List UInt8) :=
  match crypto.encodeSigned (manifest, payloads) with
  | none => .error .canonicalEncodingFailed
  | some json => .ok (signingDomain ++ json)

/-- The first loop of `validate_payloads`: every digest is about one payload
of the bundle. -/
def checkDigests (payloads : List WarPackPayload) :
    List Str → List PayloadDigest → Except VerifyError Unit
  | _, [] => .ok ()
  | seenSigned, digest :: rest =>
    if seenSigned.contains digest.source then .error (.duplicatePayload digest.source)
    else
      match lookup WarPackPayload.source digest.source payloads with
      | none => .error (.payloadMissing digest.source)
      | some payload =>
        if byteLen payload.contents ≠ digest.size then
          .error (.payloadSizeMismatch digest.source)
        else if sha3_256Hex crypto (toUtf8 payload.contents) ≠ digest.sha3_256 then
          .error (.payloadDigestMismatch digest.source)
        else checkDigests payloads (seenSigned ++ [digest.source]) rest

/-- The second loop: every payload of the bundle is signed. -/
def checkPayloads (digests : List PayloadDigest) :
    List Str → List WarPackPayload → Except VerifyError Unit
  | _, [] => .ok ()
  | seenPayloads, payload :: rest =>
    if seenPayloads.contains payload.source then .error (.duplicatePayload payload.source)
    else if !digests.any fun digest => digest.source = payload.source then
      .error (.unexpectedPayload payload.source)
    else checkPayloads digests (seenPayloads ++ [payload.source]) rest

/-- The third loop: every file of the manifest has a payload of its size. -/
def checkFiles (digests : List PayloadDigest) : List ManifestFile → Except VerifyError Unit
  | [] => .ok ()
  | file :: rest =>
    match lookup PayloadDigest.source file.source digests with
    | none => .error (.filePayloadMissing file.source)
    | some digest =>
      if digest.size ≠ file.size then .error (.fileSizeMismatch file.path)
      else checkFiles digests rest

def validatePayloads (bundle : WarPackBundle) : Except VerifyError Unit :=
  match checkDigests crypto bundle.payloads [] bundle.signedManifest.payloads with
  | .error error => .error error
  | .ok () =>
    match checkPayloads bundle.signedManifest.payloads [] bundle.payloads with
    | .error error => .error error
    | .ok () => checkFiles bundle.signedManifest.payloads bundle.signedManifest.manifest.files

/-- The end of `verify_bundle`: keys and signatures are decoded and the
signature is verified. -/
def verifySignature (signed : SignedManifest) (root : TrustRoot) : Except VerifyError Unit :=
  match parseHex root.publicKeyHex with
  | none => .error .invalidPublicKey
  | some publicKeyBytes =>
  match parseHex signed.signature.signature with
  | none => .error .invalidSignatureEncoding
  | some signatureBytes =>
  match crypto.decodeKey publicKeyBytes with
  | none => .error .invalidPublicKey
  | some publicKey =>
  match canonicalSignedMessage crypto signed.manifest signed.payloads with
  | .error error => .error error
  | .ok message =>
  match crypto.decodeSignature signatureBytes with
  | none => .error .invalidSignatureEncoding
  | some signature =>
    if crypto.verify publicKey message signature then .ok () else .error .signatureMismatch

def verifyBundle (bundle : WarPackBundle) (root : TrustRoot) : Except VerifyError Unit :=
  let signature := bundle.signedManifest.signature
  if signature.signature = [] then .error .signatureMissing
  else if signature.scheme ≠ root.scheme then .error .unsupportedSignatureScheme
  else if signature.keyId ≠ root.keyId then .error .unknownTrustRoot
  else
    match validatePayloads crypto bundle with
    | .error error => .error error
    | .ok () => verifySignature crypto bundle.signedManifest root

/-! ### What is accepted -/

/-- The payload is the one the digest was taken of. -/
structure Matches (digest : PayloadDigest) (payload : WarPackPayload) : Prop where
  source : payload.source = digest.source
  size : byteLen payload.contents = digest.size
  hash : sha3_256Hex crypto (toUtf8 payload.contents) = digest.sha3_256

variable {payloads : List WarPackPayload} {seen : List Str} {digests : List PayloadDigest}
  {signed : List PayloadDigest} {bundle : WarPackBundle} {root : TrustRoot}

lemma checkDigests_eq_ok :
    checkDigests crypto payloads seen digests = .ok () ↔
      (∀ digest ∈ digests, digest.source ∉ seen) ∧ (digests.map PayloadDigest.source).Nodup ∧
        ∀ digest ∈ digests, ∃ payload,
          lookup WarPackPayload.source digest.source payloads = some payload ∧
            Matches crypto digest payload := by
  induction digests generalizing seen with
  | nil => simp [checkDigests]
  | cons digest rest ih =>
    simp only [checkDigests, contains_iff_mem, forall_mem_cons, map_cons, nodup_cons]
    by_cases hse : digest.source ∈ seen
    · simp [hse]
    rcases hlk : lookup WarPackPayload.source digest.source payloads with _ | payload
    · simp [hse]
    have hsrc : payload.source = digest.source := lookup_key hlk
    by_cases hmatch : Matches crypto digest payload
    · have hfre := forall_key_notMem_append_singleton PayloadDigest.source seen
      simp only [hse, hmatch.size, hmatch.hash, ne_eq, not_true_eq_false, if_false,
        ih, hfre, Option.some.injEq, exists_eq_left']
      tauto
    · have hfai : ¬ (byteLen payload.contents = digest.size ∧
          sha3_256Hex crypto (toUtf8 payload.contents) = digest.sha3_256) :=
        fun h => hmatch ⟨hsrc, h.1, h.2⟩
      simp only [hse, if_false, Option.some.injEq, exists_eq_left', hmatch]
      split_ifs with hsz hhash
      · simp
      · simp
      · exact absurd ⟨not_not.1 hsz, not_not.1 hhash⟩ hfai

lemma checkPayloads_eq_ok :
    checkPayloads digests seen payloads = .ok () ↔ (∀ payload ∈ payloads, payload.source ∉ seen) ∧
        (payloads.map WarPackPayload.source).Nodup ∧
        ∀ payload ∈ payloads, payload.source ∈ digests.map PayloadDigest.source := by
  induction payloads generalizing seen with
  | nil => simp [checkPayloads]
  | cons payload rest ih =>
    simp only [checkPayloads, contains_iff_mem, forall_mem_cons, map_cons, nodup_cons]
    by_cases hse : payload.source ∈ seen
    · simp [hse]
    by_cases hsgn : payload.source ∈ digests.map PayloadDigest.source
    · have hany : (digests.any fun dig => decide (dig.source = payload.source)) := by
        simpa using hsgn
      have hfre := forall_key_notMem_append_singleton WarPackPayload.source seen
      simp only [hse, hany, if_false, Bool.not_true, Bool.false_eq_true, ih, hfre]
      tauto
    · have hany : (digests.any fun dig => decide (dig.source = payload.source)) = false := by
        simpa using hsgn
      simp [hse, hany, hsgn]

lemma checkFiles_eq_ok {fs : List ManifestFile} :
    checkFiles digests fs = .ok () ↔
      ∀ file ∈ fs, ∃ digest, lookup PayloadDigest.source file.source digests = some digest ∧
        digest.size = file.size := by
  induction fs with
  | nil => simp [checkFiles]
  | cons file rest ih =>
    rw [checkFiles, forall_mem_cons]
    cases hlk : lookup PayloadDigest.source file.source digests with
    | none => simp
    | some digest =>
      by_cases hsz : digest.size = file.size
      · simp [hsz, ih]
      · simp [hsz]

/-- The payloads of the bundle are the signed ones: each side names a source
once, both name the same sources, and the payload of a source has the signed
size and hash. -/
structure PayloadsMatch (signed : List PayloadDigest) (payloads : List WarPackPayload) : Prop where
  signedUnique : (signed.map PayloadDigest.source).Nodup
  bundleUnique : (payloads.map WarPackPayload.source).Nodup
  sameSources : ∀ source,
    source ∈ signed.map PayloadDigest.source ↔ source ∈ payloads.map WarPackPayload.source
  agree : ∀ digest ∈ signed, ∀ payload ∈ payloads, payload.source = digest.source →
    byteLen payload.contents = digest.size ∧
      sha3_256Hex crypto (toUtf8 payload.contents) = digest.sha3_256

/-- The signature and the root's key decode, and the signature is one of the
canonical message under that key. -/
structure SignatureHolds (signed : SignedManifest) (root : TrustRoot) : Prop where
  nonempty : signed.signature.signature ≠ []
  holds : ∃ publicKeyBytes publicKey signatureBytes signature message,
    parseHex root.publicKeyHex = some publicKeyBytes ∧
    crypto.decodeKey publicKeyBytes = some publicKey ∧
    parseHex signed.signature.signature = some signatureBytes ∧
    crypto.decodeSignature signatureBytes = some signature ∧
    canonicalSignedMessage crypto signed.manifest signed.payloads = .ok message ∧
    crypto.verify publicKey message signature = true

structure Verified (bundle : WarPackBundle) (root : TrustRoot) : Prop where
  scheme : bundle.signedManifest.signature.scheme = root.scheme
  keyId : bundle.signedManifest.signature.keyId = root.keyId
  payloads : PayloadsMatch crypto bundle.signedManifest.payloads bundle.payloads
  files : ∀ file ∈ bundle.signedManifest.manifest.files,
    ∃ digest ∈ bundle.signedManifest.payloads,
      digest.source = file.source ∧ digest.size = file.size
  signature : SignatureHolds crypto bundle.signedManifest root

/-- With distinct sources, looking a payload up is the same as having it. -/
lemma PayloadsMatch.matches_lookup (h : PayloadsMatch crypto signed payloads)
    {digest : PayloadDigest} (hdig : digest ∈ signed) :
    ∃ payload, lookup WarPackPayload.source digest.source payloads = some payload ∧
      Matches crypto digest payload := by
  obtain ⟨payload, hpay, hsrc⟩ := mem_map.1 ((h.sameSources digest.source).1 (mem_map_of_mem hdig))
  obtain ⟨hsz, hhash⟩ := h.agree digest hdig payload hpay hsrc
  refine ⟨payload, ?_, hsrc, hsz, hhash⟩
  rw [← hsrc]
  exact lookup_of_mem WarPackPayload.source h.bundleUnique hpay

lemma checks_eq_ok_iff :
    checkDigests crypto payloads [] signed = .ok () ∧ checkPayloads signed [] payloads = .ok () ↔
      PayloadsMatch crypto signed payloads := by
  rw [checkDigests_eq_ok, checkPayloads_eq_ok]
  constructor
  · rintro ⟨⟨-, hsgn, hdige⟩, -, hbun, hpayl⟩
    refine ⟨hsgn, hbun, ?_, ?_⟩
    · intro src
      constructor
      · rintro hsrc
        obtain ⟨dig, hdig, rfl⟩ := mem_map.1 hsrc
        obtain ⟨pay, hlk, -⟩ := hdige dig hdig
        exact mem_map.2 ⟨pay, lookup_mem hlk, lookup_key hlk⟩
      · rintro hsrc
        obtain ⟨pay, hpay, rfl⟩ := mem_map.1 hsrc
        exact hpayl pay hpay
    · intro dig hdig pay hpay hsrc
      obtain ⟨found, hlk, hmatch⟩ := hdige dig hdig
      rw [← hsrc, lookup_of_mem WarPackPayload.source hbun hpay] at hlk
      cases hlk
      exact ⟨hmatch.size, hmatch.hash⟩
  · intro h
    refine ⟨⟨by simp, h.signedUnique, fun dig hdig => h.matches_lookup crypto hdig⟩,
      by simp, h.bundleUnique, ?_⟩
    intro pay hpay
    exact (h.sameSources _).2 (mem_map_of_mem hpay)

lemma validatePayloads_eq_ok :
    validatePayloads crypto bundle = .ok () ↔
      PayloadsMatch crypto bundle.signedManifest.payloads bundle.payloads ∧
        ∀ file ∈ bundle.signedManifest.manifest.files, ∃ digest ∈ bundle.signedManifest.payloads,
            digest.source = file.source ∧ digest.size = file.size := by
  have hfs : (bundle.signedManifest.payloads.map PayloadDigest.source).Nodup →
      (checkFiles bundle.signedManifest.payloads bundle.signedManifest.manifest.files = .ok () ↔
        ∀ file ∈ bundle.signedManifest.manifest.files, ∃ digest ∈ bundle.signedManifest.payloads,
            digest.source = file.source ∧ digest.size = file.size) := by
    intro hnd
    rw [checkFiles_eq_ok]
    refine forall₂_congr fun file _ => ⟨?_, ?_⟩
    · rintro ⟨digest, hlk, hsz⟩
      exact ⟨digest, lookup_mem hlk, lookup_key hlk, hsz⟩
    · rintro ⟨digest, hdig, hsrc, hsz⟩
      exact ⟨digest, hsrc ▸ lookup_of_mem PayloadDigest.source hnd hdig, hsz⟩
  have hspl : validatePayloads crypto bundle = .ok () ↔
      (checkDigests crypto bundle.payloads [] bundle.signedManifest.payloads = .ok () ∧
        checkPayloads bundle.signedManifest.payloads [] bundle.payloads = .ok ()) ∧
      checkFiles bundle.signedManifest.payloads bundle.signedManifest.manifest.files = .ok () := by
    rw [validatePayloads]
    cases checkDigests crypto bundle.payloads [] bundle.signedManifest.payloads with
    | error error => simp
    | ok _ =>
      cases checkPayloads bundle.signedManifest.payloads [] bundle.payloads with
      | error error | ok _ => simp
  rw [hspl, checks_eq_ok_iff]
  exact and_congr_right fun h => hfs h.signedUnique

lemma verifySignature_eq_ok {sg : SignedManifest} :
    verifySignature crypto sg root = .ok () ↔
      ∃ publicKeyBytes publicKey signatureBytes signature message,
        parseHex root.publicKeyHex = some publicKeyBytes ∧
        crypto.decodeKey publicKeyBytes = some publicKey ∧
        parseHex sg.signature.signature = some signatureBytes ∧
        crypto.decodeSignature signatureBytes = some signature ∧
        canonicalSignedMessage crypto sg.manifest sg.payloads = .ok message ∧
        crypto.verify publicKey message signature := by
  rw [verifySignature]
  cases hkeyBytes : parseHex root.publicKeyHex with
  | none => simp
  | some publicKeyBytes =>
  cases hsignatureBytes : parseHex sg.signature.signature with
  | none => simp
  | some signatureBytes =>
  cases hkey : crypto.decodeKey publicKeyBytes with
  | none => simp [hkey]
  | some publicKey =>
  cases hmess : canonicalSignedMessage crypto sg.manifest sg.payloads with
  | error error => simp [hkey]
  | ok message =>
  cases hsign : crypto.decodeSignature signatureBytes with
  | none | some signature => simp [hkey, hsign]

lemma verifyBundle_eq_ok :
    verifyBundle crypto bundle root = .ok () ↔ Verified crypto bundle root := by
  have hspl : verifyBundle crypto bundle root = .ok () ↔
      bundle.signedManifest.signature.signature ≠ [] ∧
        bundle.signedManifest.signature.scheme = root.scheme ∧
        bundle.signedManifest.signature.keyId = root.keyId ∧
        validatePayloads crypto bundle = .ok () ∧
        verifySignature crypto bundle.signedManifest root = .ok () := by
    simp only [verifyBundle]
    split_ifs with hemp hsch hkeyId
    · simp [hemp]
    · simp [hsch]
    · simp [hkeyId]
    · cases validatePayloads crypto bundle with
      | error error => simp
      | ok _ => simp [hemp, not_not.1 hsch, not_not.1 hkeyId]
  rw [hspl, validatePayloads_eq_ok, verifySignature_eq_ok]
  constructor
  · rintro ⟨hemp, hsch, hkeyId, ⟨hpayl, hfs⟩, hsign⟩
    exact ⟨hsch, hkeyId, hpayl, hfs, hemp, hsign⟩
  · rintro ⟨hsch, hkeyId, hpayl, hfs, hemp, hsign⟩
    exact ⟨hemp, hsch, hkeyId, ⟨hpayl, hfs⟩, hsign⟩

end

lemma toUtf8_hexDigit (v : UInt8) : toUtf8 [hexDigit v] = [.ofNat (hexDigit v).toNat] := by
  have h : ∀ n : Fin 256, toUtf8 [hexDigit (ofFin n)] =
      [.ofNat (hexDigit (ofFin n)).toNat] := by decide +kernel
  exact h v.toFin

lemma decodeDigit_hexDigit (v : UInt8) :
    decodeDigit (ofNat (hexDigit v).toNat) = some (v &&& 0x0F) := by
  have h : ∀ n : Fin 256, decodeDigit (ofNat (hexDigit (ofFin n)).toNat) =
      some (ofFin n &&& 0x0F) := by decide +kernel
  exact h v.toFin

lemma join_nibbles (byte : UInt8) :
    (byte >>> 4 &&& 0x0F) <<< 4 ||| (byte &&& 0x0F &&& 0x0F) = byte := by
  have h : ∀ n : Fin 256, (ofFin n >>> 4 &&& 0x0F) <<< 4 |||
      (ofFin n &&& 0x0F &&& 0x0F) = ofFin n := by decide +kernel
  exact h byte.toFin

lemma decodeDigits_hexEncode : decodeDigits (toUtf8 (hexEncode bytes)) = some bytes := by
  induction bytes with
  | nil => rfl
  | cons byte bytes ih =>
    have hco : toUtf8 (hexEncode (byte :: bytes)) = UInt8.ofNat (hexDigit (byte >>> 4)).toNat ::
          ofNat (hexDigit (byte &&& 0x0F)).toNat :: toUtf8 (hexEncode bytes) := by
      have hspl : hexEncode (byte :: bytes) =
          [hexDigit (byte >>> 4)] ++ ([hexDigit (byte &&& 0x0F)] ++ hexEncode bytes) := rfl
      rw [hspl, toUtf8_append, toUtf8_append, toUtf8_hexDigit, toUtf8_hexDigit]
      rfl
    rw [hco, decodeDigits, decodeDigit_hexDigit, decodeDigit_hexDigit, ih]
    exact congrArg (fun b => some (b :: bytes)) (join_nibbles byte)

lemma hexEncode_injective : Function.Injective hexEncode := by
  intro left right h
  have hdec := decodeDigits_hexEncode left
  rw [h, decodeDigits_hexEncode] at hdec
  exact (Option.some.inj hdec).symm

section
variable (crypto : Crypto)

/-- No two of the texts have the same SHA3-256 digest. -/
def NoCollision (texts : List Str) : Prop :=
  ∀ left ∈ texts, ∀ right ∈ texts,
    crypto.sha3_256 (toUtf8 left) = crypto.sha3_256 (toUtf8 right) → left = right
  deriving Decidable

/-- Payloads that match the same digests have the same contents. -/
lemma PayloadsMatch.subset {sg : List PayloadDigest} {left right : List WarPackPayload}
    (hlf : PayloadsMatch crypto sg left) (hrig : PayloadsMatch crypto sg right)
    (hcoll : NoCollision crypto ((left ++ right).map WarPackPayload.contents)) :
    left ⊆ right := by
  intro pay hpay
  obtain ⟨dig, hdig, hsrc⟩ := mem_map.1 ((hlf.sameSources pay.source).2 (mem_map_of_mem hpay))
  obtain ⟨other, hlk, hmatch⟩ := hrig.matches_lookup crypto hdig
  have ho := lookup_mem hlk
  have hhash := (hlf.agree dig hdig pay hpay hsrc.symm).2
  have hs : pay.contents = other.contents := by
    apply hcoll
    · exact mem_map_of_mem (mem_append_left _ hpay)
    · exact mem_map_of_mem (mem_append_right _ ho)
    · exact hexEncode_injective (hhash.trans hmatch.hash.symm)
  have hequ : pay = other := by
    exact (WarPackPayload.mk.injEq ..).mpr ⟨hsrc.symm.trans hmatch.source.symm, hs⟩
  rw [hequ]
  exact ho

lemma NoCollision.swap {left right : List Str}
    (h : NoCollision crypto (left ++ right)) : NoCollision crypto (right ++ left) := by
  intro a ha b hb
  exact h a (mem_append.2 (mem_append.1 ha).symm) b (mem_append.2 (mem_append.1 hb).symm)

/-- `verify_bundle` accepts exactly the verified bundles, and two of them with
the same signed manifest carry the same payloads. -/
theorem verifyBundle_exact (root : TrustRoot) :
    (∀ bundle, verifyBundle crypto bundle root = .ok () ↔ Verified crypto bundle root) ∧
      ∀ left right : WarPackBundle, left.signedManifest = right.signedManifest →
        verifyBundle crypto left root = .ok () → verifyBundle crypto right root = .ok () →
        NoCollision crypto ((left.payloads ++ right.payloads).map WarPackPayload.contents) →
        ∀ payload, payload ∈ left.payloads ↔ payload ∈ right.payloads := by
  refine ⟨fun bundle => verifyBundle_eq_ok crypto, ?_⟩
  intro left right hsgn hlf hrig hcoll payload
  have hl := ((verifyBundle_eq_ok crypto).1 hlf).payloads
  have hr := ((verifyBundle_eq_ok crypto).1 hrig).payloads
  rw [hsgn] at hl
  refine ⟨fun h => hl.subset crypto hr hcoll h, fun h => hr.subset crypto hl ?_ h⟩
  rw [map_append] at hcoll ⊢
  exact hcoll.swap

end

/-! ### A scheme without secrets

For evaluating the model: a text is its own digest, and the signature of a
message is the key followed by the message. -/

def strWire : Wire Str := list char

def ManifestFile.wire : Wire ManifestFile :=
  (strWire.pair (strWire.pair (bool.pair nat))).comap
    (fun file => (file.path, file.source, file.executable, file.size))
    (fun (path, source, executable, size) => ⟨path, source, executable, size⟩) fun _ => rfl

def Manifest.wire : Wire Manifest :=
  (strWire.pair (strWire.pair (strWire.pair (strWire.pair (strWire.pair
    ((list ManifestFile.wire).pair ((list strWire).pair
      (strWire.pair strWire)))))))).comap
    (fun m => (m.name, m.version, m.description, m.author, m.license, m.files, m.dependencies,
      m.minWarosVersion, m.category))
    (fun (name, version, description, author, license, files, dependencies, minWarosVersion,
      category) => ⟨name, version, description, author, license, files, dependencies,
        minWarosVersion, category⟩) fun _ => rfl

def PayloadDigest.wire : Wire PayloadDigest :=
  (strWire.pair (nat.pair strWire)).comap
    (fun digest => (digest.source, digest.size, digest.sha3_256))
    (fun (source, size, sha3_256) => ⟨source, size, sha3_256⟩) fun _ => rfl

def Crypto.clear : Crypto where
  Key := List UInt8
  Signature := List UInt8
  sha3_256 := id
  decodeKey := some
  decodeSignature := some
  verify key message signature := signature = key ++ message
  encodeSigned signed := some ((Manifest.wire.pair (list PayloadDigest.wire)).put signed)

def clearRoot : TrustRoot := ⟨['r'], ['s'], ['0', '1']⟩

def payloadDigests (crypto : Crypto) (payloads : List WarPackPayload) : List PayloadDigest :=
  payloads.map fun payload =>
    ⟨payload.source, byteLen payload.contents, sha3_256Hex crypto (toUtf8 payload.contents)⟩

/-- The bundle of a manifest and its payloads, signed for `clearRoot`. -/
def clearBundle (manifest : Manifest) (payloads : List WarPackPayload) : WarPackBundle :=
  let digests := payloadDigests .clear payloads
  let json := (Manifest.wire.pair (list PayloadDigest.wire)).put (manifest, digests)
  ⟨⟨manifest, digests, ⟨['s'], ['r'], hexEncode ([1] ++ (signingDomain ++ json))⟩⟩, payloads⟩

/-- Two bundles that carry their payloads in a different order. -/
theorem verifyBundle_exact_two : let manifest : Manifest :=
      ⟨['p'], ['1'], [], [], [], [⟨['/', 'a'], ['x'], true, 1⟩, ⟨['/', 'b'], ['y'], false, 2⟩],
        [], [], []⟩
    let left := clearBundle manifest [⟨['x'], ['X']⟩, ⟨['y'], ['Y', 'Y']⟩]
    let right := { left with payloads := left.payloads.reverse }
    left ≠ right ∧ verifyBundle Crypto.clear left clearRoot = .ok () ∧
      Verified Crypto.clear right clearRoot ∧
      ∀ payload, payload ∈ left.payloads ↔ payload ∈ right.payloads := by
  have hexa := verifyBundle_exact .clear clearRoot
  refine ⟨by decide +kernel, by decide +kernel, (hexa.1 _).1 (by decide +kernel), ?_⟩
  refine hexa.2 _ _ rfl (by decide +kernel) (by decide +kernel) ?_
  decide

end Waros.Pkg
