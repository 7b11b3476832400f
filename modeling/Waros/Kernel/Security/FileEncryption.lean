import Waros.Kernel.Security.Entropy

/-!
Encryption of files with a password
(`kernel/src/security/crypt/file_encryption.rs`). The salt and the nonce, which
the source draws from the entropy pool, are arguments.
-/

namespace Waros.Kernel.Security.FileEncryption

open Lib List Bytes
variable (sha3 : Sha3)

/-- What the rounds of `derive_key` hash. -/
def keyInput (password salt : List UInt8) : ℕ → List UInt8
  | 0 => password ++ salt
  | round + 1 => sha3.1 (keyInput password salt round) ++ password

def deriveKey (password salt : List UInt8) (rounds : ℕ) : List UInt8 :=
  sha3.1 (keyInput sha3 password salt (rounds - 1))

/-- Byte `i` is in the chunk that the loop of `ctr_crypt` handles with counter
`i / 32`. -/
def ctrCrypt (key nonce data : List UInt8) : List UInt8 :=
  data.mapIdx fun i byte =>
    byte ^^^ (sha3.1 (key ++ nonce ++ ofU64 (.ofNat (i / 32)))).getD (i % 32) 0

def tagInput (key nonce ciphertext : List UInt8) : List UInt8 :=
  "warcrypt-tag".toUTF8.toList ++
    (key ++ (nonce ++ (ciphertext ++ ofU64 (.ofNat ciphertext.length))))

def computeTag (key nonce ciphertext : List UInt8) : List UInt8 :=
  sha3.1 (tagInput key nonce ciphertext)

def kdfRounds : ℕ := 10000

def encrypt (salt nonce data password : List UInt8) : List UInt8 :=
  let key := deriveKey sha3 password salt kdfRounds
  let ciphertext := ctrCrypt sha3 key nonce data
  salt ++ (nonce ++ (computeTag sha3 key nonce ciphertext ++ ciphertext))

def decrypt (encrypted password : List UInt8) : Except String (List UInt8) :=
  if encrypted.length < 16 + 12 + 32 then .error "data too short"
  else
    let nonce := field 16 12 encrypted
    let ciphertext := encrypted.drop 60
    let key := deriveKey sha3 password (encrypted.take 16) kdfRounds
    if field 28 32 encrypted ≠ computeTag sha3 key nonce ciphertext then
      .error "authentication failed: wrong password or corrupted data"
    else .ok (ctrCrypt sha3 key nonce ciphertext)

variable {sha3} {key nonce salt pw : List UInt8}

lemma ctrCrypt_ctrCrypt (data : List UInt8) :
    ctrCrypt sha3 key nonce (ctrCrypt sha3 key nonce data) = data := by
  refine ext_getElem (by simp [ctrCrypt]) fun i _ _ => ?_
  simp [ctrCrypt, UInt8.xor_assoc]

lemma blob_parts (hs : salt.length = 16) (hn : nonce.length = 12)
    (tag ct : List UInt8) (htag : tag.length = 32) :
    let blob := salt ++ (nonce ++ (tag ++ ct))
    blob.take 16 = salt ∧ field 16 12 blob = nonce ∧ field 28 32 blob = tag ∧
      blob.drop 60 = ct ∧ 60 ≤ blob.length := by
  refine ⟨take_left' hs, ?_, ?_, ?_, ?_⟩
  · rw [field, drop_left' hs, take_left' hn]
  · rw [field, show 28 = 16 + 12 from rfl, ← drop_drop, drop_left' hs, drop_left' hn,
      take_left' htag]
  · rw [show 60 = 16 + (12 + 32) from rfl, ← drop_drop, drop_left' hs, ← drop_drop,
      drop_left' hn, drop_left' htag]
  · simp only [length_append]
    omega

lemma blob_eq (blob : List UInt8) : blob.take 16 ++
    (field 16 12 blob ++ (field 28 32 blob ++ blob.drop 60)) = blob := by
  have h28 : blob.drop 28 = (blob.drop 16).drop 12 := by rw [drop_drop]
  have h60 : blob.drop 60 = (blob.drop 28).drop 32 := by rw [drop_drop]
  rw [field, field, h60, take_append_drop, h28, take_append_drop, take_append_drop]

lemma keyInput_inj {pw' salt' : List UInt8} (hlen : salt.length = salt'.length) {round : ℕ}
    (hcol : ∀ i < round, sha3.1 (keyInput sha3 pw salt i) = sha3.1 (keyInput sha3 pw' salt' i) →
        keyInput sha3 pw salt i = keyInput sha3 pw' salt' i)
    (h : keyInput sha3 pw salt round = keyInput sha3 pw' salt' round) :
    pw = pw' ∧ salt = salt' := by
  induction round with
  | zero => exact append_inj' h hlen
  | succ round ih =>
    have hhash := (append_inj h (by rw [sha3.2, sha3.2])).1
    exact ih (fun i hi => hcol i (hi.trans (Nat.lt_succ_self _)))
      (hcol round (Nat.lt_succ_self _) hhash)

lemma tagInput_inj {key' nonce' ct ct' : List UInt8}
    (hkey : key.length = key'.length) (hn : nonce.length = nonce'.length)
    (h : tagInput key nonce ct = tagInput key' nonce' ct') :
    key = key' ∧ nonce = nonce' ∧ ct = ct' := by
  obtain ⟨rfl, hrest⟩ := append_inj (append_cancel_left h) hkey
  obtain ⟨rfl, hlast⟩ := append_inj hrest hn
  exact ⟨rfl, rfl, (append_inj' hlast (by simp)).1⟩

variable (sha3) in
/-- What is hashed for the key and the tag of a blob. -/
def authInputs (blob pw : List UInt8) : List (List UInt8) :=
  tagInput (deriveKey sha3 pw (blob.take 16) kdfRounds) (field 16 12 blob)
      (blob.drop 60) :: (range kdfRounds).map (keyInput sha3 pw (blob.take 16))

variable (sha3) in
/-- The stored tag is the one of the contents. -/
def Authentic (blob pw : List UInt8) : Prop :=
  60 ≤ blob.length ∧ field 28 32 blob =
    computeTag sha3 (deriveKey sha3 pw (blob.take 16) kdfRounds) (field 16 12 blob)
      (blob.drop 60)

lemma authentic_of_decrypt {blob d : List UInt8} (h : decrypt sha3 blob pw = .ok d) :
    Authentic sha3 blob pw := by
  rw [decrypt] at h
  split_ifs at h with hlen
  dsimp only at h
  split_ifs at h with htag
  exact ⟨not_lt.1 hlen, not_not.1 htag⟩

lemma Authentic.decrypt {blob : List UInt8} (h : Authentic sha3 blob pw) :
    decrypt sha3 blob pw = .ok (ctrCrypt sha3
      (deriveKey sha3 pw (blob.take 16) kdfRounds) (field 16 12 blob)
      (blob.drop 60)) := by
  rw [FileEncryption.decrypt, if_neg (not_lt.2 h.1), if_neg (not_not.2 h.2)]

/-- Without collisions, a tag belongs to one blob and one password. -/
lemma Authentic.unique {blob blob' pw' : List UInt8} (h : Authentic sha3 blob pw)
    (h' : Authentic sha3 blob' pw')
    (hcol : sha3.NoCollision (authInputs sha3 blob pw ++ authInputs sha3 blob' pw'))
    (htag : field 28 32 blob' = field 28 32 blob) :
    blob' = blob ∧ pw' = pw := by
  have hlen := h.1
  have hlen' := h'.1
  obtain ⟨hkey, hn, hct⟩ := tagInput_inj (by rw [deriveKey, deriveKey, sha3.2, sha3.2])
    (by simp only [field, length_take, length_drop]; omega)
    (hcol _ (mem_append_right _ mem_cons_self) _ (mem_append_left _ mem_cons_self)
      (h'.2.symm.trans (htag.trans h.2)))
  have hrou i (hi : i < kdfRounds) :=
    hcol _ (mem_append_right _ (mem_cons_of_mem _ (mem_map_of_mem (mem_range.2 hi))))
      _ (mem_append_left _ (mem_cons_of_mem _ (mem_map_of_mem (mem_range.2 hi))))
  obtain ⟨rfl, hs⟩ := keyInput_inj (by simp only [length_take]; omega)
    (fun i hi => hrou i (hi.trans (by decide))) (hrou (kdfRounds - 1) (by decide) hkey)
  refine ⟨?_, rfl⟩
  rw [← blob_eq blob', ← blob_eq blob, hs, hn, htag, hct]

lemma encrypt_parts (hs : salt.length = 16) (hn : nonce.length = 12) (data pw : List UInt8) :
    let blob := encrypt sha3 salt nonce data pw
    let key := deriveKey sha3 pw salt kdfRounds
    blob.take 16 = salt ∧ field 16 12 blob = nonce ∧
      field 28 32 blob = computeTag sha3 key nonce (ctrCrypt sha3 key nonce data) ∧
      blob.drop 60 = ctrCrypt sha3 key nonce data ∧ 60 ≤ blob.length :=
  blob_parts hs hn _ _ (sha3.2 _)

lemma authentic_encrypt (hs : salt.length = 16) (hn : nonce.length = 12) (data pw : List UInt8) :
    Authentic sha3 (encrypt sha3 salt nonce data pw) pw := by
  obtain ⟨h1, h2, h3, h4, h5⟩ := @encrypt_parts sha3 _ _ hs hn data pw
  refine ⟨h5, ?_⟩
  rw [h1, h2, h3, h4]

/-- Decryption inverts encryption and rejects a blob with the stored tag of
another one or of another password, and under the same password a blob that
differs in the tag alone. -/
theorem decrypt_authentic (sha3 : Sha3) (salt nonce data pw : List UInt8)
    (hs : salt.length = 16) (hn : nonce.length = 12) :
    let blob := encrypt sha3 salt nonce data pw
    decrypt sha3 blob pw = .ok data ∧
      (∀ blob' pw', sha3.NoCollision (authInputs sha3 blob pw ++ authInputs sha3 blob' pw') →
        field 28 32 blob' = field 28 32 blob →
        (blob' ≠ blob ∨ pw' ≠ pw) → ∀ d, decrypt sha3 blob' pw' ≠ .ok d) ∧
      ∀ tag : List UInt8, tag.length = 32 → salt ++ (nonce ++ (tag ++ blob.drop 60)) ≠ blob →
        ∀ d, decrypt sha3 (salt ++ (nonce ++ (tag ++ blob.drop 60))) pw ≠ .ok d := by
  have hauth : Authentic sha3 (encrypt sha3 salt nonce data pw) pw :=
    authentic_encrypt hs hn data pw
  obtain ⟨h1, h2, h3, h4, -⟩ := @encrypt_parts sha3 _ _ hs hn data pw
  refine ⟨?_, fun blob' pw' hcol htag hne d hok => ?_, fun tag htag hne d hok => hne ?_⟩
  · rw [hauth.decrypt, h1, h2, h4, ctrCrypt_ctrCrypt]
  · obtain ⟨rfl, rfl⟩ := hauth.unique (authentic_of_decrypt hok) hcol htag
    simp at hne
  · obtain ⟨k1, k2, k3, k4, -⟩ := blob_parts hs hn tag
      ((encrypt sha3 salt nonce data pw).drop 60) htag
    have hsto := (authentic_of_decrypt hok).2
    rw [k1, k2, k3, k4] at hsto
    rw [hsto, h4]
    rfl

/-! ### A hash without collisions on these inputs -/

/-- Keeps the first eight bytes, two higher, the length and eight bytes from the
twelfth on: those of the key in what is hashed for a tag. -/
def stepHash : Sha3 :=
  ⟨fun input => ofU64 (toU64 (field 0 8 input) + 2) ++ (ofU64 (.ofNat input.length) ++
    (ofU64 (toU64 (field 12 8 input)) ++ replicate 8 0)), fun _ => by simp⟩

theorem stepHash_inj {x y : List UInt8} (h : stepHash.1 x = stepHash.1 y) :
    toU64 (field 0 8 x) = toU64 (field 0 8 y) ∧
      UInt64.ofNat x.length = UInt64.ofNat y.length ∧
      toU64 (field 12 8 x) = toU64 (field 12 8 y) := by
  have hofU64 : ∀ v w : UInt64, ofU64 v = ofU64 w → v = w := fun v w hvw => by
    rw [← toU64_ofU64 v, hvw, toU64_ofU64]
  obtain ⟨hfirst, hrest⟩ := append_inj h (by simp)
  obtain ⟨hlength, hlast⟩ := append_inj hrest (by simp)
  exact ⟨(UInt64.add_left_inj 2).1 (hofU64 _ _ hfirst), hofU64 _ _ hlength,
    hofU64 _ _ (append_inj hlast (by simp)).1⟩

/-- The rounds for a password of one byte count up in steps of two. -/
theorem keyInput_stepHash (byte : UInt8) (round : ℕ) :
    let input := keyInput stepHash [byte] (replicate 16 0) round
    toU64 (field 0 8 input) = .ofNat (byte.toNat + 2 * round) ∧ input.length ≤ 33 := by
  induction round with
  | zero =>
    refine ⟨?_, by simp [keyInput]⟩
    simp [keyInput, field, toU64, U64.ofBytes]
  | succ round ih =>
    refine ⟨?_, by simp [keyInput, stepHash.2]⟩
    have hfirst : field 0 8 (keyInput stepHash [byte] (replicate 16 0) (round + 1)) =
        ofU64 (toU64 (field 0 8 (keyInput stepHash [byte] (replicate 16 0) round)) + 2) := by
      rw [field, drop_zero, keyInput, stepHash, append_assoc, take_left' (length_ofU64 _)]
    rw [hfirst, toU64_ofU64, ih.1, mul_add, ← add_assoc, UInt64.ofNat_add _ (2 * 1)]
    rfl

/-- What is hashed for the password `[byte]` and the stored contents `ct`. -/
def HashedFor (byte : UInt8) (ct input : List UInt8) : Prop :=
  (∃ round < kdfRounds, input = keyInput stepHash [byte] (replicate 16 0) round) ∨
    input = tagInput (deriveKey stepHash [byte] (replicate 16 0) kdfRounds) (replicate 12 0) ct

theorem hashedFor_of_mem {blob : List UInt8} (byte : UInt8)
    (hsalt : blob.take 16 = replicate 16 0) (hnonce : field 16 12 blob = replicate 12 0) :
    ∀ input ∈ authInputs stepHash blob [byte], HashedFor byte (blob.drop 60) input := by
  intro input hinput
  rw [authInputs, hsalt, hnonce] at hinput
  obtain rfl | hround := mem_cons.1 hinput
  · exact .inr rfl
  · obtain ⟨round, hlt, rfl⟩ := mem_map.1 hround
    exact .inl ⟨round, mem_range.1 hlt, rfl⟩

theorem ofNat_inj {m n : ℕ} (hm : m < 2 ^ 64) (hn : n < 2 ^ 64)
    (h : UInt64.ofNat m = UInt64.ofNat n) : m = n := by
  rw [← UInt64.toNat_ofNat_of_lt' hm, h, UInt64.toNat_ofNat_of_lt' hn]

theorem length_tagPrefix : "warcrypt-tag".toUTF8.toList.length = 12 := by decide +kernel

theorem length_tagInput (byte : UInt8) (ct : List UInt8) :
    (tagInput (deriveKey stepHash [byte] (replicate 16 0) kdfRounds) (replicate 12 0) ct).length =
      64 + ct.length := by
  simp only [tagInput, length_append, length_tagPrefix, deriveKey, stepHash.2, length_replicate,
    length_ofU64]
  omega

theorem field_tagInput (byte : UInt8) (ct : List UInt8) :
    toU64 (field 12 8
      (tagInput (deriveKey stepHash [byte] (replicate 16 0) kdfRounds) (replicate 12 0) ct)) =
      .ofNat (byte.toNat + 2 * (kdfRounds - 1)) + 2 := by
  have hfirst : ∀ input rest, (stepHash.1 input ++ rest).take 8 =
      ofU64 (toU64 (field 0 8 input) + 2) := by
    intro input rest
    rw [stepHash, append_assoc, take_left' (length_ofU64 _)]
  rw [field, tagInput, drop_left' length_tagPrefix, deriveKey, hfirst, toU64_ofU64,
    (keyInput_stepHash byte _).1]

theorem HashedFor.unique {byte byte' : UInt8} {ct ct' x y : List UInt8}
    (hbyte : byte = 1 ∨ byte = 2) (hbyte' : byte' = 1 ∨ byte' = 2)
    (hct : ct.length < 100) (hct' : ct'.length < 100)
    (hsame : byte = byte' → ct.length = ct'.length → ct = ct')
    (hx : HashedFor byte ct x) (hy : HashedFor byte' ct' y) (h : stepHash.1 x = stepHash.1 y) :
    x = y := by
  obtain ⟨hfirst, hlength, hkey⟩ := stepHash_inj h
  have hcount : ∀ {round round' : ℕ}, round < kdfRounds → round' < kdfRounds →
      UInt64.ofNat (byte.toNat + 2 * round) = .ofNat (byte'.toNat + 2 * round') →
      byte = byte' ∧ round = round' := by
    intro round round' hlt hlt' heq
    rw [kdfRounds] at hlt hlt'
    have hnat := ofNat_inj (by have := byte.toNat_lt; omega) (by have := byte'.toNat_lt; omega) heq
    rcases hbyte with rfl | rfl <;> rcases hbyte' with rfl | rfl <;>
      simp only [UInt8.reduceToNat, true_and] at hnat ⊢ <;> omega
  have hsmall : ∀ {byte : UInt8} {round : ℕ} {ct : List UInt8}, ct.length < 100 →
      UInt64.ofNat (keyInput stepHash [byte] (replicate 16 0) round).length ≠
        .ofNat (64 + ct.length) := by
    intro byte round ct hct heq
    have hle := (keyInput_stepHash byte round).2
    have hnat := ofNat_inj (by omega) (by omega) heq
    omega
  rcases hx with ⟨round, hlt, rfl⟩ | rfl <;> rcases hy with ⟨round', hlt', rfl⟩ | rfl
  · rw [(keyInput_stepHash _ _).1, (keyInput_stepHash _ _).1] at hfirst
    obtain ⟨rfl, rfl⟩ := hcount hlt hlt' hfirst
    rfl
  · rw [length_tagInput] at hlength
    exact absurd hlength (hsmall hct')
  · rw [length_tagInput] at hlength
    exact absurd hlength.symm (hsmall hct)
  · rw [field_tagInput, field_tagInput] at hkey
    obtain ⟨rfl, -⟩ := hcount (by decide) (by decide) ((UInt64.add_left_inj 2).1 hkey)
    rw [length_tagInput, length_tagInput] at hlength
    rw [hsame rfl (by have := ofNat_inj (by omega) (by omega) hlength; omega)]

theorem noCollision_stepHash {blob blob' : List UInt8} {byte byte' : UInt8}
    (hbyte : byte = 1 ∨ byte = 2) (hbyte' : byte' = 1 ∨ byte' = 2)
    (hblob : blob.take 16 = replicate 16 0 ∧ field 16 12 blob = replicate 12 0 ∧
      (blob.drop 60).length < 100)
    (hblob' : blob'.take 16 = replicate 16 0 ∧ field 16 12 blob' = replicate 12 0 ∧
      (blob'.drop 60).length < 100)
    (hsame : byte = byte' → (blob.drop 60).length = (blob'.drop 60).length →
      blob.drop 60 = blob'.drop 60) :
    stepHash.NoCollision
      (authInputs stepHash blob [byte] ++ authInputs stepHash blob' [byte']) := by
  obtain ⟨hsalt, hnonce, hlt⟩ := hblob
  obtain ⟨hsalt', hnonce', hlt'⟩ := hblob'
  have hleft := hashedFor_of_mem byte hsalt hnonce
  have hright := hashedFor_of_mem byte' hsalt' hnonce'
  intro x hx y hy
  rcases mem_append.1 hx with hx | hx <;> rcases mem_append.1 hy with hy | hy
  · exact (hleft x hx).unique hbyte hbyte hlt hlt (fun _ _ => rfl) (hleft y hy)
  · exact (hleft x hx).unique hbyte hbyte' hlt hlt' hsame (hright y hy)
  · exact (hright x hx).unique hbyte' hbyte hlt' hlt
      (fun h h' => (hsame h.symm h'.symm).symm) (hleft y hy)
  · exact (hright x hx).unique hbyte' hbyte' hlt' hlt' (fun _ _ => rfl) (hright y hy)

/-- A file of one byte comes back, and a byte appended to the blob is noticed. -/
theorem decrypt_authentic_appended :
    let blob := encrypt stepHash (replicate 16 0) (replicate 12 0) [7] [1]
    decrypt stepHash blob [1] = .ok [7] ∧ ∀ d, decrypt stepHash (blob ++ [0]) [1] ≠ .ok d := by
  intro blob
  obtain ⟨htake, hnonce, -, hrest, hlen⟩ : blob.take 16 = _ ∧ field 16 12 blob = _ ∧ _ ∧
      blob.drop 60 = _ ∧ 60 ≤ blob.length := encrypt_parts rfl rfl [7] [1]
  have hlength : (blob.drop 60).length = 1 := by rw [hrest, ctrCrypt, length_mapIdx]; rfl
  have hdrop : (blob ++ [0]).drop 60 = blob.drop 60 ++ [0] := drop_append_of_le_length hlen
  have hfield : ∀ start n, start + n ≤ 60 → field start n (blob ++ [0]) = field start n blob := by
    intro start n hle
    rw [field, field, drop_append_of_le_length (by omega), take_append_of_le_length]
    rw [length_drop]
    omega
  obtain ⟨hok, hchanged, -⟩ := decrypt_authentic stepHash (replicate 16 0) (replicate 12 0) [7] [1]
    rfl rfl
  refine ⟨hok, hchanged (blob ++ [0]) [1] ?_ (hfield 28 32 le_rfl) (.inl ?_)⟩
  · refine noCollision_stepHash (.inl rfl) (.inl rfl) ⟨htake, hnonce, by rw [hlength]; decide⟩
      ⟨(take_append_of_le_length (by omega)).trans htake, (hfield 16 12 (by decide)).trans hnonce,
        by rw [hdrop, length_append, hlength]; decide⟩ fun _ hsame => ?_
    rw [hdrop, length_append] at hsame
    exact absurd hsame (Nat.succ_ne_self _).symm
  · exact fun heq => by simpa [blob] using congrArg length heq

/-- Under another password another tag is right: for empty contents the blobs of
two passwords differ in the tag alone. -/
theorem decrypt_changed_tag (sha3 : Sha3) (hs : salt.length = 16) (hn : nonce.length = 12)
    {pw pw' : List UInt8} (hpw : pw ≠ pw') :
    let blob := encrypt sha3 salt nonce [] pw
    let blob' := encrypt sha3 salt nonce [] pw'
    blob'.take 16 = blob.take 16 ∧ field 16 12 blob' = field 16 12 blob ∧
      blob'.drop 60 = blob.drop 60 ∧ (∃ d, decrypt sha3 blob' pw' = .ok d) ∧
      (sha3.NoCollision (authInputs sha3 blob pw ++ authInputs sha3 blob' pw') →
        blob' ≠ blob) := by
  intro blob blob'
  have hauth : Authentic sha3 blob pw := authentic_encrypt hs hn [] pw
  have hauth' : Authentic sha3 blob' pw' := authentic_encrypt hs hn [] pw'
  obtain ⟨h1, h2, -, h4, -⟩ : _ ∧ _ ∧ _ ∧ blob.drop 60 = _ ∧ _ := encrypt_parts hs hn [] pw
  obtain ⟨k1, k2, -, k4, -⟩ : _ ∧ _ ∧ _ ∧ blob'.drop 60 = _ ∧ _ := encrypt_parts hs hn [] pw'
  refine ⟨k1.trans h1.symm, k2.trans h2.symm, ?_, ⟨_, hauth'.decrypt⟩, fun hcol heq => ?_⟩
  · rw [h4, k4, ctrCrypt, ctrCrypt, mapIdx_nil, mapIdx_nil]
  · exact hpw (hauth.unique hauth' hcol (by rw [heq])).2.symm

theorem decrypt_other_password :
    let blob := encrypt stepHash (replicate 16 0) (replicate 12 0) [] [1]
    let blob' := encrypt stepHash (replicate 16 0) (replicate 12 0) [] [2]
    stepHash.NoCollision (authInputs stepHash blob [1] ++ authInputs stepHash blob' [2]) ∧
      blob'.take 16 = blob.take 16 ∧ field 16 12 blob' = field 16 12 blob ∧
      blob'.drop 60 = blob.drop 60 ∧ blob' ≠ blob ∧ ∃ d, decrypt stepHash blob' [2] = .ok d := by
  intro blob blob'
  obtain ⟨htake, hnonce, hrest, hok, hne⟩ := decrypt_changed_tag stepHash
    (length_replicate (n := 16) (a := 0)) (length_replicate (n := 12) (a := 0))
    (show [1] ≠ [2] by decide)
  obtain ⟨h1, h2, -, h4, -⟩ : blob.take 16 = _ ∧ field 16 12 blob = _ ∧ _ ∧
      blob.drop 60 = _ ∧ _ := encrypt_parts rfl rfl [] [1]
  have hlength : (blob.drop 60).length < 100 := by rw [h4, ctrCrypt, length_mapIdx]; decide
  have hcol : stepHash.NoCollision (authInputs stepHash blob [1] ++
      authInputs stepHash blob' [2]) :=
    noCollision_stepHash (.inl rfl) (.inr rfl) ⟨h1, h2, hlength⟩
      ⟨htake.trans h1, hnonce.trans h2, by rwa [hrest]⟩ (fun _ _ => hrest.symm)
  exact ⟨hcol, htake, hnonce, hrest, hne hcol, hok⟩

end Waros.Kernel.Security.FileEncryption
