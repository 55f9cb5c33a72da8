import LoomDB.Backup.Backup
import LoomDB.Foundations.Framing
import LoomDB.Foundations.StateExcept
import LoomDB.Keys.Directory

/-!
# Signed backups

A signed backup has a record beside its manifest, with a signature over the manifest and the
id of the key. The first format signs the manifest itself, the second its digest, and both
are verified on one path.
-/

namespace LoomDB

open StateExcept (except_bind_eq_ok except_mapError_eq_ok)

/-- The format a backup is signed in by default. -/
def BACKUP_SIGNATURE_VERSION : U32 := 1

def BACKUP_SIGNATURE_VERSION_V2 : U32 := 2

/-- Sixteen kibibytes. -/
def MAX_SIGNATURE_BYTES : ℕ := 16384

def SIGNATURE_DOMAIN : Bytes := ascii "loomdb-backup-manifest-signature-v1\x00"

def SIGNATURE_DOMAIN_V2 : Bytes := ascii "loomdb-backup-manifest-signature-v2\x00"

structure BackupSignature where
  formatVersion : U32
  algorithm : Bytes
  keyId : Bytes
  /-- The digest of the manifest in lower-case hexadecimal. -/
  manifestBlake3 : Bytes
  /-- In lower-case hexadecimal. -/
  ed25519 : Bytes
  deriving DecidableEq

/-- What an authenticity check found. -/
inductive Authenticity where
  | keyIdRefused
  | cannotWrite (version : U32)
  | missing
  | notRegular
  | tooLarge (bytes : ℕ)
  | recordInvalid
  | unsupportedFormat (version : U32)
  | digestMismatch (expected found : Bytes)
  | unsupportedAlgorithm (algorithm : Bytes)
  | otherKey (signedBy expected : Bytes)
  | notHexadecimal (what : String) (characters : ℕ)
  | notVerified (keyId : Bytes)
  | custody (error : Keys.KeyError)
  deriving DecidableEq

/-- What writing or verifying a signed backup refuses. -/
inductive SignatureError where
  | backup (error : BackupError)
  | authenticity (reason : Authenticity)
  deriving DecidableEq

/-! ## What is signed -/

def signaturePayloadV2 (keyId : Bytes) (manifestDigest : Digest) : Bytes :=
  SIGNATURE_DOMAIN_V2 ++ lengthPrefixed 8 keyId ++ manifestDigest.asBytes

def signaturePayload (keyId manifest : Bytes) : Bytes :=
  SIGNATURE_DOMAIN ++ keyId ++ [0] ++ manifest

namespace BackupSignature

/-- `to_vec_pretty` of a record. -/
def toJson (record : BackupSignature) : Bytes :=
  ascii "\x7b\n  \"format_version\": " ++ decimal record.formatVersion.val ++
    ascii ",\n  \"algorithm\": " ++ jsonString record.algorithm ++
    ascii ",\n  \"key_id\": " ++ jsonString record.keyId ++
    ascii ",\n  \"manifest_blake3\": " ++ jsonString record.manifestBlake3 ++
    ascii ",\n  \"ed25519\": " ++ jsonString record.ed25519 ++ ascii "\n\x7d"

/-- Exactly so many bytes, with nothing around them. -/
def decodeHex (width : ℕ) (what : String) (value : Bytes) : Except SignatureError Bytes :=
  let refused := SignatureError.authenticity (.notHexadecimal what (width * 2))
  if value.length ≠ width * 2 then .error refused
  else match hexPairs value with
    | some bytes => .ok bytes
    | none => .error refused

end BackupSignature

section Signing

variable (platform : Platform)

def keyIdAllowed (keyId : Bytes) : Bool :=
  trim keyId ≠ [] && keyId.length ≤ 256 && 0 ∉ keyId

/-- The record of the signature, and the backup with the record in it. -/
def writeSignature (root : Files) (keyId key manifest : Bytes) (formatVersion : U32) :
    Except SignatureError (BackupSignature × Files) :=
  if !keyIdAllowed keyId then .error (.authenticity .keyIdRefused)
  else
    let digest := platform.blake3 manifest
    let sign (payload : Bytes) : Except SignatureError (BackupSignature × Files) :=
      let record : BackupSignature :=
        { formatVersion := formatVersion
          algorithm := ascii "ed25519"
          keyId := keyId
          manifestBlake3 := toHex digest.asBytes
          ed25519 := toHex (platform.sign key payload) }
      match root.create [BACKUP_SIGNATURE_FILE] (record.toJson ++ ascii "\n") with
      | some root => .ok (record, root)
      | none => .error (.backup (.io "create signature" BACKUP_SIGNATURE_FILE))
    if formatVersion = BACKUP_SIGNATURE_VERSION then sign (signaturePayload keyId manifest)
    else if formatVersion = BACKUP_SIGNATURE_VERSION_V2 then
      sign (signaturePayloadV2 keyId digest)
    else .error (.authenticity (.cannotWrite formatVersion))

/-! ## Verifying -/

variable (parseRecord : Bytes → Option BackupSignature)

def loadSignature (root : Files) : Except SignatureError BackupSignature :=
  match root.entries[[BACKUP_SIGNATURE_FILE]]? with
  | some (.file content) =>
      if MAX_SIGNATURE_BYTES < content.length then
        .error (.authenticity (.tooLarge content.length))
      else match parseRecord content with
        | some record => .ok record
        | none => .error (.authenticity .recordInvalid)
  | some _ => .error (.authenticity .notRegular)
  | none => .error (.authenticity .missing)

/-- The bytes a signature has to cover, in the format the record declares. -/
def verifiedPayload (record : BackupSignature) (manifest : Bytes) : Except SignatureError Bytes :=
  if record.formatVersion = BACKUP_SIGNATURE_VERSION then
    .ok (signaturePayload record.keyId manifest)
  else if record.formatVersion = BACKUP_SIGNATURE_VERSION_V2 then
    .ok (signaturePayloadV2 record.keyId (platform.blake3 manifest))
  else .error (.authenticity (.unsupportedFormat record.formatVersion))

def checkSignatureRecord (record : BackupSignature) (manifest : Bytes) :
    Except SignatureError Unit :=
  let digest := toHex (platform.blake3 manifest).asBytes
  if record.formatVersion ≠ BACKUP_SIGNATURE_VERSION ∧
      record.formatVersion ≠ BACKUP_SIGNATURE_VERSION_V2 then
    .error (.authenticity (.unsupportedFormat record.formatVersion))
  else if record.manifestBlake3 ≠ digest then
    .error (.authenticity (.digestMismatch record.manifestBlake3 digest))
  else .ok ()

def verifySignature (root : Files) (manifest expectedKeyId publicKey : Bytes) :
    Except SignatureError BackupSignature := do
  let record ← loadSignature parseRecord root
  checkSignatureRecord platform record manifest
  if record.algorithm ≠ ascii "ed25519" then
    .error (.authenticity (.unsupportedAlgorithm record.algorithm))
  else if record.keyId ≠ expectedKeyId then
    .error (.authenticity (.otherKey record.keyId expectedKeyId))
  else do
    let signature ← BackupSignature.decodeHex 64 "Ed25519 signature" record.ed25519
    let payload ← verifiedPayload platform record manifest
    if !platform.verify publicKey payload signature then
      .error (.authenticity (.notVerified record.keyId))
    else .ok record

variable (fromSlice : Bytes → Option BackupManifest)

def verifySignedBackup (root : Files) (expectedKeyId publicKey : Bytes) :
    Except SignatureError BackupManifest := do
  let bytes ← (loadManifestBytes root).mapError .backup
  let _ ← verifySignature platform parseRecord root bytes expectedKeyId publicKey
  let manifest ← (decodeManifest fromSlice bytes).mapError .backup
  (verifyManifestFiles platform root manifest).mapError .backup
  return manifest

/-- The key is one that the register trusts for backups; its id is returned as well. -/
def verifySignedBackupWith (curve : Keys.Curve) (root : Files) (directory : Keys.KeyDirectory) :
    Except SignatureError (BackupManifest × Bytes) := do
  let bytes ← (loadManifestBytes root).mapError .backup
  let record ← loadSignature parseRecord root
  checkSignatureRecord platform record bytes
  let signature ← BackupSignature.decodeHex 64 "Ed25519 signature" record.ed25519
  let payload ← verifiedPayload platform record bytes
  let trusted ← (directory.verify curve record.keyId record.algorithm payload
    signature).mapError fun error => .authenticity (.custody error)
  let manifest ← (decodeManifest fromSlice bytes).mapError .backup
  (verifyManifestFiles platform root manifest).mapError .backup
  return (manifest, trusted.keyId)

end Signing

/-! ## What a payload tells -/

/-- What a key signs for a backup: a manifest, in one of the formats, under an id without a NUL. -/
structure SignedBackup where
  formatVersion : U32
  keyId : Bytes
  manifest : Bytes
  supported : formatVersion = BACKUP_SIGNATURE_VERSION ∨
    formatVersion = BACKUP_SIGNATURE_VERSION_V2
  nulFree : 0 ∉ keyId

/-- No text of the first format is one of the second, whatever the ids and the manifests. -/
theorem signaturePayload_ne (keyId manifest keyId' : Bytes) (digest : Digest) :
    signaturePayload keyId manifest ≠ signaturePayloadV2 keyId' digest := by
  intro heq
  simp only [signaturePayload, signaturePayloadV2, List.append_assoc] at heq
  have hdomains := (List.append_inj heq (by decide)).1
  exact absurd hdomains (by decide)

theorem signaturePayload_inj {keyId manifest keyId' manifest' : Bytes} (hnul : 0 ∉ keyId)
    (hnul' : 0 ∉ keyId') (heq : signaturePayload keyId manifest = signaturePayload keyId' manifest') :
    keyId = keyId' ∧ manifest = manifest' := by
  have hsplit : ∀ name text : Bytes,
      signaturePayload name text = SIGNATURE_DOMAIN ++ (name ++ [0] ++ text) := by
    intro name text
    simp only [signaturePayload, List.append_assoc]
  rw [hsplit, hsplit] at heq
  exact delimits_terminated 0 hnul hnul' (List.append_cancel_left heq)

/-- The id needs no bound: the digest is of one length, so the text tells the length of the id. -/
theorem signaturePayloadV2_inj {keyId keyId' : Bytes} {digest digest' : Digest}
    (heq : signaturePayloadV2 keyId digest = signaturePayloadV2 keyId' digest') :
    keyId = keyId' ∧ digest = digest' := by
  obtain ⟨hfront, hdigest⟩ :=
    List.append_inj' heq (by rw [Digest.length_asBytes, Digest.length_asBytes])
  have hframed := List.append_cancel_left hfront
  rw [lengthPrefixed, lengthPrefixed] at hframed
  have hkeyId := (List.append_inj hframed (by rw [length_leBytes, length_leBytes])).2
  exact ⟨hkeyId, Digest.asBytes_injective hdigest⟩

namespace SignedBackup

variable (platform : Platform)

def text (backup : SignedBackup) : Bytes :=
  if backup.formatVersion = BACKUP_SIGNATURE_VERSION then
    signaturePayload backup.keyId backup.manifest
  else signaturePayloadV2 backup.keyId (platform.blake3 backup.manifest)

variable {platform}

theorem ext {left right : SignedBackup} (hversion : left.formatVersion = right.formatVersion)
    (hkeyId : left.keyId = right.keyId) (hmanifest : left.manifest = right.manifest) :
    left = right := by
  cases left
  cases right
  cases hversion
  cases hkeyId
  cases hmanifest
  rfl

/-- The signed bytes tell the format, the id and the manifest, unless the manifests collide under
the hash. -/
theorem text_inj {left right : SignedBackup}
    (hcollision : platform.blake3 left.manifest = platform.blake3 right.manifest →
      left.manifest = right.manifest)
    (heq : left.text platform = right.text platform) : left = right := by
  unfold text at heq
  split at heq
  · next hleft =>
    split at heq
    · next hright =>
      obtain ⟨hkeyId, hmanifest⟩ := signaturePayload_inj left.nulFree right.nulFree heq
      exact ext (hleft.trans hright.symm) hkeyId hmanifest
    · exact absurd heq (signaturePayload_ne _ _ _ _)
  · next hleft =>
    split at heq
    · exact absurd heq.symm (signaturePayload_ne _ _ _ _)
    · next hright =>
      obtain ⟨hkeyId, hdigest⟩ := signaturePayloadV2_inj heq
      have hversion := (left.supported.resolve_left hleft).trans
        (right.supported.resolve_left hright).symm
      exact ext hversion hkeyId (hcollision hdigest)

/-- What a record says was signed. -/
structure Declares (record : BackupSignature) (manifest : Bytes) (backup : SignedBackup) : Prop where
  formatVersion : backup.formatVersion = record.formatVersion
  keyId : backup.keyId = record.keyId
  manifest : backup.manifest = manifest

theorem declares_of_verifiedPayload {record : BackupSignature} {manifest payload : Bytes}
    (hnul : 0 ∉ record.keyId) (hpayload : verifiedPayload platform record manifest = .ok payload) :
    ∃ backup, Declares record manifest backup ∧ payload = backup.text platform := by
  unfold verifiedPayload at hpayload
  split at hpayload
  · next hversion =>
    cases hpayload
    refine ⟨⟨record.formatVersion, record.keyId, manifest, .inl hversion, hnul⟩, ⟨rfl, rfl, rfl⟩,
      ?_⟩
    rw [text, if_pos hversion]
  · next hother =>
    split at hpayload
    · next hversion =>
      cases hpayload
      refine ⟨⟨record.formatVersion, record.keyId, manifest, .inr hversion, hnul⟩, ⟨rfl, rfl, rfl⟩,
        ?_⟩
      rw [text, if_neg hother]
    · cases hpayload

end SignedBackup

/-! ## What was signed -/

section Accepted

variable {platform : Platform} {parseRecord : Bytes → Option BackupSignature} {root : Files}

theorem verifySignature_eq_ok {manifest expectedKeyId publicKey : Bytes} {record : BackupSignature}
    (hverify : verifySignature platform parseRecord root manifest expectedKeyId publicKey =
      .ok record) :
    record.keyId = expectedKeyId ∧ ∃ signature payload,
      verifiedPayload platform record manifest = .ok payload ∧
        platform.verify publicKey payload signature = true := by
  obtain ⟨found, -, hverify⟩ := except_bind_eq_ok.mp hverify
  obtain ⟨_, -, hverify⟩ := except_bind_eq_ok.mp hverify
  split at hverify
  · cases hverify
  · split at hverify
    · cases hverify
    · next hkeyId =>
      obtain ⟨signature, -, hverify⟩ := except_bind_eq_ok.mp hverify
      obtain ⟨payload, hpayload, hverify⟩ := except_bind_eq_ok.mp hverify
      split at hverify
      · cases hverify
      · next hgood =>
        cases hverify
        exact ⟨not_not.mp hkeyId, signature, payload, hpayload, by simpa using hgood⟩

/-- A key of the directory that verifies has the id that was asked for. -/
theorem exists_of_directory_verify {curve : Keys.Curve} {directory : Keys.KeyDirectory}
    {keyId algorithm message signature : Bytes} {trusted : Keys.TrustRoot}
    (hverify : directory.verify curve keyId algorithm message signature = .ok trusted) :
    trusted.keyId = keyId ∧ ∃ key, trusted.verifyingKey curve = .ok key ∧
      curve.verify key message signature = .ok () := by
  obtain ⟨root, hresolve, hverify⟩ := except_bind_eq_ok.mp hverify
  have hkeyId : root.keyId = keyId := by
    unfold Keys.KeyDirectory.resolve at hresolve
    split at hresolve
    · next found hfind =>
      have hfound : found.keyId = keyId := by simpa using List.find?_some hfind
      split at hresolve
      all_goals cases hresolve
      all_goals exact hfound
    · split at hresolve <;> cases hresolve
  split at hverify
  · cases hverify
  · obtain ⟨_, hagainst, hverify⟩ := except_bind_eq_ok.mp hverify
    cases hverify
    refine ⟨hkeyId, ?_⟩
    unfold Keys.KeyDirectory.verifyAgainst at hagainst
    split at hagainst
    split at hagainst
    · cases hagainst
    · obtain ⟨key, hkey, hgood⟩ := except_bind_eq_ok.mp hagainst
      refine ⟨key, hkey, ?_⟩
      cases hsigned : curve.verify key message signature with
      | error error => rw [hsigned] at hgood; cases hgood
      | ok done => rfl

theorem verifySignedBackupWith_eq_ok {fromSlice : Bytes → Option BackupManifest}
    {curve : Keys.Curve} {directory : Keys.KeyDirectory} {manifest : BackupManifest}
    {keyId : Bytes}
    (hverify : verifySignedBackupWith platform parseRecord fromSlice curve root directory =
      .ok (manifest, keyId)) :
    ∃ bytes record payload signature key, loadManifestBytes root = .ok bytes ∧
      loadSignature parseRecord root = .ok record ∧ record.keyId = keyId ∧
        verifiedPayload platform record bytes = .ok payload ∧
          curve.verify key payload signature = .ok () := by
  obtain ⟨bytes, hbytes, hverify⟩ := except_bind_eq_ok.mp hverify
  obtain ⟨record, hrecord, hverify⟩ := except_bind_eq_ok.mp hverify
  obtain ⟨_, -, hverify⟩ := except_bind_eq_ok.mp hverify
  obtain ⟨signature, -, hverify⟩ := except_bind_eq_ok.mp hverify
  obtain ⟨payload, hpayload, hverify⟩ := except_bind_eq_ok.mp hverify
  obtain ⟨trusted, htrusted, hverify⟩ := except_bind_eq_ok.mp hverify
  obtain ⟨_, -, hverify⟩ := except_bind_eq_ok.mp hverify
  obtain ⟨_, -, hverify⟩ := except_bind_eq_ok.mp hverify
  cases hverify
  obtain ⟨hkeyId, key, -, hgood⟩ := exists_of_directory_verify (except_mapError_eq_ok.mp htrusted)
  exact ⟨bytes, record, payload, signature, key, except_mapError_eq_ok.mp hbytes, hrecord, hkeyId.symm,
    hpayload, hgood⟩

end Accepted

/-- The signed bytes tell the format, the id of the key and the manifest, and a signature that is
accepted on either path was made over what the record declares. -/
theorem backupSignature_unambiguous (platform : Platform) :
    (∀ left right : SignedBackup,
      (platform.blake3 left.manifest = platform.blake3 right.manifest →
        left.manifest = right.manifest) →
      left.text platform = right.text platform → left = right) ∧
    (∀ keyId manifest keyId' digest,
      signaturePayload keyId manifest ≠ signaturePayloadV2 keyId' digest) ∧
    (∀ publicKey signed, AcceptsSigned (platform.verify publicKey) (SignedBackup.text platform) signed →
      ∀ parseRecord root manifest expectedKeyId record, 0 ∉ expectedKeyId →
        (∀ origin, signed origin → platform.blake3 origin.manifest = platform.blake3 manifest →
          origin.manifest = manifest) →
        verifySignature platform parseRecord root manifest expectedKeyId publicKey = .ok record →
        ∃ backup, signed backup ∧ SignedBackup.Declares record manifest backup) ∧
    ∀ (curve : Keys.Curve) (signed : Bytes → SignedBackup → Prop), (∀ key, AcceptsSigned
        (fun message signature => (curve.verify key message signature).isOk)
        (SignedBackup.text platform) (signed key)) →
      ∀ parseRecord fromSlice root directory manifest bytes keyId, 0 ∉ keyId →
        loadManifestBytes root = .ok bytes →
        (∀ key origin, signed key origin →
          platform.blake3 origin.manifest = platform.blake3 bytes → origin.manifest = bytes) →
        verifySignedBackupWith platform parseRecord fromSlice curve root directory =
          .ok (manifest, keyId) →
        ∃ record key backup, loadSignature parseRecord root = .ok record ∧ record.keyId = keyId ∧
          signed key backup ∧ SignedBackup.Declares record bytes backup := by
  refine ⟨fun _ _ => SignedBackup.text_inj, signaturePayload_ne, ?_, ?_⟩
  · intro publicKey signed hunforgeable parseRecord root manifest expectedKeyId record hnul
      hcollision hverify
    obtain ⟨hkeyId, signature, payload, hpayload, hgood⟩ := verifySignature_eq_ok hverify
    obtain ⟨backup, hdeclares, rfl⟩ :=
      SignedBackup.declares_of_verifiedPayload (hkeyId.symm ▸ hnul) hpayload
    refine ⟨backup, hunforgeable.signed hgood fun origin horigin heq => ?_, hdeclares⟩
    rw [← hdeclares.manifest] at hcollision
    exact SignedBackup.text_inj (hcollision origin horigin) heq
  · intro curve signed hunforgeable parseRecord fromSlice root directory manifest bytes keyId hnul
      hbytes hcollision hverify
    obtain ⟨found, record, payload, signature, key, hfound, hrecord, hkeyId, hpayload, hgood⟩ :=
      verifySignedBackupWith_eq_ok hverify
    obtain rfl := Except.ok.inj (hbytes.symm.trans hfound)
    obtain ⟨backup, hdeclares, rfl⟩ :=
      SignedBackup.declares_of_verifiedPayload (hkeyId.symm ▸ hnul) hpayload
    refine ⟨record, key, backup, hrecord, hkeyId, ?_, hdeclares⟩
    have haccepts : (curve.verify key (backup.text platform) signature).isOk = true := by
      rw [hgood]
      rfl
    refine (hunforgeable key).signed haccepts fun origin horigin heq => ?_
    rw [← hdeclares.manifest] at hcollision
    exact SignedBackup.text_inj (hcollision key origin horigin) heq

/-! ## A backup to evaluate -/

/-- The manifest of a backup without files. -/
def bareManifest : Bytes :=
  manifestBytes { formatVersion := BACKUP_FORMAT_VERSION, tenant := ascii "t", files := [] }

/-- The manifest, signed in the second format. -/
def signedOnce : SignedBackup where
  formatVersion := BACKUP_SIGNATURE_VERSION_V2
  keyId := ascii "backup-1"
  manifest := bareManifest
  supported := .inr rfl
  nulFree := by decide

/-- The hash, as far as this manifest goes. -/
def bareHash : Platform :=
  { Platform.plain with
    blake3 := fun bytes =>
      if bytes = bareManifest then
        Fin.ofNat (256 ^ 32) (beValue (spelled
          "f946aba3e9cca36af2e8fa4db95244c920afc7a7a83e19e1640f1668d408caa3"))
      else Platform.plain.blake3 bytes }

def backupKey : Bytes :=
  spelled "d75a980182b10ab7d54bfed3c964073a0ee172f3daa62325af021a68f707511a"

def recordOnce : BackupSignature where
  formatVersion := BACKUP_SIGNATURE_VERSION_V2
  algorithm := ascii "ed25519"
  keyId := ascii "backup-1"
  manifestBlake3 := toHex (bareHash.blake3 bareManifest).asBytes
  ed25519 := ascii ("69066c486f181a0633d15d1a18ea20aa4cfcd9478e4eeae5b3972730b0649302" ++
    "c900fe17511f1a956a547a0603e58ca33664694ac441253b4e8d28feaa420b0f")

/-- The hash and the curve, as far as this backup goes. -/
def oneBackup : Platform :=
  { bareHash with
    verify := fun key message signature =>
      key = backupKey && message = signedOnce.text bareHash && toHex signature = recordOnce.ed25519 }

/-- A directory with nothing but the record. -/
def recordFile : Files :=
  (Files.empty.create [BACKUP_SIGNATURE_FILE] (recordOnce.toJson ++ ascii "\n")).getD Files.empty

/-- Reading a record, as far as this one goes. -/
def readRecord (content : Bytes) : Option BackupSignature :=
  if content = recordOnce.toJson ++ ascii "\n" then some recordOnce else none

theorem backupSignature_unambiguous_once :
    ∃ backup, backup = signedOnce ∧ SignedBackup.Declares recordOnce bareManifest backup := by
  refine (backupSignature_unambiguous oneBackup).2.2.1 backupKey (fun backup => backup = signedOnce)
    ?_ readRecord recordFile bareManifest (ascii "backup-1") recordOnce (by decide) ?_ ?_
  · intro claim signature haccepts
    have hgood := of_decide_eq_true
      (Bool.and_eq_true_iff.mp (Bool.and_eq_true_iff.mp haccepts).1).2
    exact ⟨signedOnce, rfl, hgood.symm⟩
  · rintro origin rfl _
    rfl
  · decide +kernel

end LoomDB
