import LoomDB.Foundations.Framing
import LoomDB.Foundations.StateExcept
import LoomDB.Keys.Revocation

/-!
# Update bundles

An offline update is a payload under a signed manifest that describes it. It is verified with
a key, or with the keys that a register trusts for the role; either way the payload has to be
the one the manifest describes, and the manifest the one that was asked for.
-/

namespace LoomDB

open Keys (Curve KeyDirectory KeyError KeyStatus TrustRoot)
open StateExcept (except_bind_eq_ok except_mapError_eq_ok)

/-- The bundle format that is written and understood. -/
def Bundle.FORMAT_VERSION : U32 := 1

inductive BundleError where
  | custody (error : KeyError)
  | unsupportedFormat (found expected : U32)
  | signature
  | payloadHashMismatch (expected actual : Bytes)
  | claimMismatch (claim : String) (expected actual : Bytes)
  | signatureLength (len : ℕ)
  deriving DecidableEq

structure BundleManifest where
  formatVersion : U32
  id : Bytes
  kind : Bytes
  version : Bytes
  createdMs : U64
  /-- The digest of the payload in lower-case hexadecimal. -/
  payloadBlake3 : Bytes
  payloadLen : U64
  deriving DecidableEq

/-- The fields one after the other, each text behind its length. -/
def BundleManifest.signingBytes (manifest : BundleManifest) : Bytes :=
  leBytes 4 manifest.formatVersion.val ++ lengthPrefixed 8 manifest.id ++
    lengthPrefixed 8 manifest.kind ++ lengthPrefixed 8 manifest.version ++
    leBytes 8 manifest.createdMs.val ++ lengthPrefixed 8 manifest.payloadBlake3 ++
    leBytes 8 manifest.payloadLen.val

structure Bundle where
  manifest : BundleManifest
  payload : Bytes
  ed25519 : Bytes
  deriving DecidableEq

def requireClaim (claim : String) (expected actual : Bytes) : Except BundleError Unit :=
  if expected = actual then .ok () else .error (.claimMismatch claim expected actual)

namespace Bundle

variable (platform : Platform) (curve : Curve)

def create (id kind version : Bytes) (createdMs : U64) (payload key : Bytes) : Bundle :=
  let manifest : BundleManifest :=
    { formatVersion := FORMAT_VERSION
      id, kind, version, createdMs
      payloadBlake3 := toHex (platform.blake3 payload).asBytes
      payloadLen := Fin.ofNat (256 ^ 8) payload.length }
  { manifest, payload
    ed25519 := platform.sign key manifest.signingBytes }

def verify (bundle : Bundle) (key : Bytes) : Except BundleError Unit :=
  if bundle.manifest.formatVersion ≠ FORMAT_VERSION then
    .error (.unsupportedFormat bundle.manifest.formatVersion FORMAT_VERSION)
  else if bundle.ed25519.length ≠ 64 then .error (.signatureLength bundle.ed25519.length)
  else do
    (curve.verify key bundle.manifest.signingBytes bundle.ed25519).mapError fun _ => .signature
    let actual := toHex (platform.blake3 bundle.payload).asBytes
    if actual ≠ bundle.manifest.payloadBlake3 then
      .error (.payloadHashMismatch bundle.manifest.payloadBlake3 actual)
    else .ok ()

/-- Verify against a key, for the artifact that a change record approved. -/
def verifyFor (bundle : Bundle) (key requiredId requiredKind requiredVersion : Bytes) :
    Except BundleError Unit := do
  bundle.verify platform curve key
  requireClaim "id" requiredId bundle.manifest.id
  requireClaim "kind" requiredKind bundle.manifest.kind
  requireClaim "version" requiredVersion bundle.manifest.version

/-- Verify against the keys that a register trusts, and tell which of them it was. -/
def verifyWithDirectory (bundle : Bundle) (directory : KeyDirectory)
    (requiredId requiredKind requiredVersion : Bytes) : Except BundleError Bytes :=
  if bundle.manifest.formatVersion ≠ FORMAT_VERSION then
    .error (.unsupportedFormat bundle.manifest.formatVersion FORMAT_VERSION)
  else do
    let trusted ← (directory.verifyAny curve bundle.manifest.signingBytes
      bundle.ed25519).mapError .custody
    let actual := toHex (platform.blake3 bundle.payload).asBytes
    if actual ≠ bundle.manifest.payloadBlake3 then
      .error (.payloadHashMismatch bundle.manifest.payloadBlake3 actual)
    else do
      requireClaim "id" requiredId bundle.manifest.id
      requireClaim "kind" requiredKind bundle.manifest.kind
      requireClaim "version" requiredVersion bundle.manifest.version
      return trusted.keyId

/-! ## What is checked without a key -/

variable {platform curve} {bundle : Bundle} {directory : KeyDirectory}
  {key requiredId requiredKind requiredVersion : Bytes}

/-- The bundle is understood, has the payload it describes, and is the one that was asked for. -/
structure Fits (platform : Platform) (bundle : Bundle)
    (requiredId requiredKind requiredVersion : Bytes) : Prop where
  format : bundle.manifest.formatVersion = FORMAT_VERSION
  payload : toHex (platform.blake3 bundle.payload).asBytes = bundle.manifest.payloadBlake3
  id : requiredId = bundle.manifest.id
  kind : requiredKind = bundle.manifest.kind
  version : requiredVersion = bundle.manifest.version

theorem requireClaim_eq_ok {claim : String} {expected actual : Bytes} {done : Unit} :
    requireClaim claim expected actual = .ok done ↔ expected = actual := by
  unfold requireClaim
  split
  · next heq => exact iff_of_true rfl heq
  · next hne => exact iff_of_false nofun hne

theorem verifyFor_eq_ok :
    bundle.verifyFor platform curve key requiredId requiredKind requiredVersion = .ok () ↔
      Fits platform bundle requiredId requiredKind requiredVersion ∧
        bundle.ed25519.length = 64 ∧
        curve.verify key bundle.manifest.signingBytes bundle.ed25519 = .ok () := by
  simp only [verifyFor, except_bind_eq_ok, requireClaim_eq_ok, exists_and_left, exists_const]
  constructor
  · rintro ⟨_, hverify, hid, hkind, hversion⟩
    unfold verify at hverify
    split at hverify
    · cases hverify
    · next hformat =>
      split at hverify
      · cases hverify
      · next hlength =>
        obtain ⟨_, hsigned, hverify⟩ := except_bind_eq_ok.mp hverify
        dsimp only at hverify
        split at hverify
        · cases hverify
        · next hpayload =>
          exact ⟨⟨not_not.mp hformat, not_not.mp hpayload, hid, hkind, hversion⟩,
            not_not.mp hlength, except_mapError_eq_ok.mp hsigned⟩
  · rintro ⟨hfits, hlength, hsigned⟩
    refine ⟨(), ?_, hfits.id, hfits.kind, hfits.version⟩
    rw [verify, if_neg (not_not.mpr hfits.format), if_neg (not_not.mpr hlength)]
    exact except_bind_eq_ok.mpr ⟨(), except_mapError_eq_ok.mpr hsigned,
      if_neg (not_not.mpr hfits.payload)⟩

theorem verifyWithDirectory_eq_ok {keyId : Bytes} :
    bundle.verifyWithDirectory platform curve directory requiredId requiredKind requiredVersion =
        .ok keyId ↔
      Fits platform bundle requiredId requiredKind requiredVersion ∧ ∃ root,
        directory.verifyAny curve bundle.manifest.signingBytes bundle.ed25519 = .ok root ∧
          root.keyId = keyId := by
  constructor
  · intro hverify
    unfold verifyWithDirectory at hverify
    split at hverify
    · cases hverify
    · next hformat =>
      obtain ⟨root, hroot, hverify⟩ := except_bind_eq_ok.mp hverify
      dsimp only at hverify
      split at hverify
      · cases hverify
      · next hpayload =>
        obtain ⟨_, hid, hverify⟩ := except_bind_eq_ok.mp hverify
        obtain ⟨_, hkind, hverify⟩ := except_bind_eq_ok.mp hverify
        obtain ⟨_, hversion, hverify⟩ := except_bind_eq_ok.mp hverify
        exact ⟨⟨not_not.mp hformat, not_not.mp hpayload, requireClaim_eq_ok.mp hid,
          requireClaim_eq_ok.mp hkind, requireClaim_eq_ok.mp hversion⟩, root,
          except_mapError_eq_ok.mp hroot, Except.ok.inj hverify⟩
  · rintro ⟨hfits, root, hroot, rfl⟩
    rw [verifyWithDirectory, if_neg (not_not.mpr hfits.format)]
    refine except_bind_eq_ok.mpr ⟨root, except_mapError_eq_ok.mpr hroot, ?_⟩
    rw [if_neg (not_not.mpr hfits.payload)]
    exact except_bind_eq_ok.mpr ⟨(), requireClaim_eq_ok.mpr hfits.id,
      except_bind_eq_ok.mpr ⟨(), requireClaim_eq_ok.mpr hfits.kind,
        except_bind_eq_ok.mpr ⟨(), requireClaim_eq_ok.mpr hfits.version, rfl⟩⟩⟩

/-! ## The two ways of verifying -/

/-- A key of the directory's role that may still verify, and that the bundle is accepted under. -/
def AcceptedUnder (platform : Platform) (curve : Curve) (bundle : Bundle) (directory : KeyDirectory)
    (requiredId requiredKind requiredVersion : Bytes) (root : TrustRoot) : Prop :=
  root ∈ directory.register.roots ∧ root.role = directory.role ∧
    (root.status = .active ∨ root.status = .retired) ∧ ∃ key,
      root.verifyingKey curve = .ok key ∧
        bundle.verifyFor platform curve key requiredId requiredKind requiredVersion = .ok ()

theorem verifies_eq_true {status : KeyStatus} :
    status.verifies = true ↔ status = .active ∨ status = .retired := by
  cases status <;> decide

theorem acceptedUnder_iff {root : TrustRoot} :
    AcceptedUnder platform curve bundle directory requiredId requiredKind requiredVersion root ↔
      Fits platform bundle requiredId requiredKind requiredVersion ∧ root ∈ directory.trusted ∧
        (KeyDirectory.verifyAgainst curve root bundle.manifest.signingBytes
          bundle.ed25519).isOk = true := by
  simp only [AcceptedUnder, verifyFor_eq_ok, Keys.verifyAgainst_isOk, Keys.mem_trusted,
    Keys.verifyingKey_eq_ok, verifies_eq_true]
  constructor
  · rintro ⟨hroot, hrole, hstatus, bytes, ⟨hbytes, hpoint⟩, hfits, hlength, hsigned⟩
    exact ⟨hfits, ⟨hroot, hrole, hstatus⟩, hlength, bytes, hbytes, hpoint, hsigned⟩
  · rintro ⟨hfits, ⟨hroot, hrole, hstatus⟩, hlength, bytes, hbytes, hpoint, hsigned⟩
    exact ⟨hroot, hrole, hstatus, bytes, ⟨hbytes, hpoint⟩, hfits, hlength, hsigned⟩

/-- The key that is told is one that the bundle is accepted under. -/
theorem acceptedUnder_of_verifyWithDirectory {keyId : Bytes}
    (hverify : bundle.verifyWithDirectory platform curve directory requiredId requiredKind
      requiredVersion = .ok keyId) :
    ∃ root, AcceptedUnder platform curve bundle directory requiredId requiredKind requiredVersion
      root ∧ root.keyId = keyId := by
  obtain ⟨hfits, root, hroot, hkeyId⟩ := verifyWithDirectory_eq_ok.mp hverify
  unfold KeyDirectory.verifyAny at hroot
  split at hroot
  · next found hfind =>
    obtain rfl := Except.ok.inj hroot
    have hagainst := List.find?_some hfind
    exact ⟨found, acceptedUnder_iff.mpr ⟨hfits, List.mem_of_find?_eq_some hfind,
      by simpa using hagainst⟩, hkeyId⟩
  · cases hroot

theorem exists_verifyWithDirectory_of_acceptedUnder {root : TrustRoot}
    (haccepted : AcceptedUnder platform curve bundle directory requiredId requiredKind
      requiredVersion root) :
    ∃ keyId, bundle.verifyWithDirectory platform curve directory requiredId requiredKind
      requiredVersion = .ok keyId := by
  obtain ⟨hfits, hroot, hagainst⟩ := acceptedUnder_iff.mp haccepted
  cases hfind : directory.trusted.find? fun root =>
      (KeyDirectory.verifyAgainst curve root bundle.manifest.signingBytes bundle.ed25519).isOk with
  | none => exact absurd hagainst (List.find?_eq_none.mp hfind root hroot)
  | some found =>
      refine ⟨found.keyId, verifyWithDirectory_eq_ok.mpr ⟨hfits, found, ?_, rfl⟩⟩
      rw [KeyDirectory.verifyAny, hfind]

/-- The directory with nothing but the keys of its role that may still verify. -/
def standing (directory : KeyDirectory) : KeyDirectory :=
  { directory with
    register := { directory.register with
      roots := directory.register.roots.filter fun root =>
        root.role = directory.role && root.status.verifies } }

theorem trusted_standing (directory : KeyDirectory) :
    (standing directory).trusted = directory.trusted := by
  simp only [KeyDirectory.trusted, Keys.TrustRootRegister.inRole, standing, List.filter_filter]
  congr 2
  funext root
  by_cases hrole : root.role = directory.role
  · simp [hrole]
  · simp [hrole]

/-- A directory accepts a bundle exactly if one of its keys does that may still verify. The order
of the register does not matter, and neither do the other keys. -/
theorem verifyWithDirectory_iff (platform : Platform) (curve : Curve) (bundle : Bundle)
    (directory : KeyDirectory) (requiredId requiredKind requiredVersion : Bytes) :
    ((∃ keyId, bundle.verifyWithDirectory platform curve directory requiredId requiredKind
        requiredVersion = .ok keyId) ↔
      ∃ root, AcceptedUnder platform curve bundle directory requiredId requiredKind
        requiredVersion root) ∧
    (∀ keyId, bundle.verifyWithDirectory platform curve directory requiredId requiredKind
        requiredVersion = .ok keyId →
      ∃ root, AcceptedUnder platform curve bundle directory requiredId requiredKind
        requiredVersion root ∧ root.keyId = keyId) ∧
    (∀ other : KeyDirectory, other.role = directory.role →
      other.register.roots.Perm directory.register.roots →
      ((∃ keyId, bundle.verifyWithDirectory platform curve other requiredId requiredKind
          requiredVersion = .ok keyId) ↔
        ∃ keyId, bundle.verifyWithDirectory platform curve directory requiredId requiredKind
          requiredVersion = .ok keyId)) ∧
    bundle.verifyWithDirectory platform curve (standing directory) requiredId requiredKind
        requiredVersion =
      bundle.verifyWithDirectory platform curve directory requiredId requiredKind
        requiredVersion := by
  have hiff : ∀ directory : KeyDirectory,
      (∃ keyId, bundle.verifyWithDirectory platform curve directory requiredId requiredKind
          requiredVersion = .ok keyId) ↔
        ∃ root, AcceptedUnder platform curve bundle directory requiredId requiredKind
          requiredVersion root := by
    intro directory
    constructor
    · rintro ⟨keyId, hverify⟩
      obtain ⟨root, haccepted, -⟩ := acceptedUnder_of_verifyWithDirectory hverify
      exact ⟨root, haccepted⟩
    · rintro ⟨root, haccepted⟩
      exact exists_verifyWithDirectory_of_acceptedUnder haccepted
  refine ⟨hiff directory, fun _ => acceptedUnder_of_verifyWithDirectory, ?_, ?_⟩
  · intro other hrole hperm
    rw [hiff, hiff]
    simp only [AcceptedUnder, hrole, hperm.mem_iff]
  · simp only [verifyWithDirectory, KeyDirectory.verifyAny, trusted_standing]
    rfl

end Bundle

end LoomDB
