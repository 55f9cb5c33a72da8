import LoomDB.Core.Describe
import LoomDB.Core.Hex

/-!
# The register of trust roots

Which keys speak for which role, where each of them is in its rotation, and what has
to hold of a register before anything trusts it.
-/

namespace LoomDB

namespace Keys

open Std (ExtTreeSet)

/-- The curve, and the formatting of texts, from outside the repository. -/
structure Curve where
  /-- Whether 32 bytes are a public key, or what is wrong with them. -/
  fromBytes : Bytes → Except Bytes Unit
  /-- Whether a signature over a message is the key's, or what is wrong with it. -/
  verify : Bytes → Bytes → Bytes → Except Bytes Unit
  /-- `{:?}` of a text. -/
  showQuoted : Bytes → Bytes

/-! ## Roles, algorithms and states -/

inductive KeyRole where
  | actorGovernance
  | release
  | backupRoot
  deriving DecidableEq

def KeyRole.asStr : KeyRole → Bytes
  | .actorGovernance => ascii "actor-governance"
  | .release => ascii "release"
  | .backupRoot => ascii "backup-root"

inductive Algorithm where
  | ed25519
  deriving DecidableEq

def Algorithm.asStr : Algorithm → Bytes
  | .ed25519 => ascii "ed25519"

inductive Backend where
  | software
  | awsKms
  deriving DecidableEq

/-- Where a key is in its rotation. -/
inductive KeyStatus where
  | pending
  | active
  | retired
  | revoked
  deriving DecidableEq

namespace KeyStatus

def verifies : KeyStatus → Bool
  | .active | .retired => true
  | .pending | .revoked => false

def signs : KeyStatus → Bool
  | .active => true
  | .pending | .retired | .revoked => false

def asStr : KeyStatus → Bytes
  | .pending => ascii "pending"
  | .active => ascii "active"
  | .retired => ascii "retired"
  | .revoked => ascii "revoked"

end KeyStatus

inductive KeyError where
  | registerInvalid (detail : Bytes)
  | unknownKeyId (keyId : Bytes) (role : KeyRole)
  | roleMismatch (keyId : Bytes) (expected found : KeyRole)
  | keyRevoked (keyId : Bytes) (generation : U64) (reason : Bytes)
  | keyNotTrusted (keyId : Bytes) (status : KeyStatus)
  | algorithmMismatch (keyId : Bytes) (expected : Algorithm) (found : Bytes)
  | signatureInvalid (keyId : Bytes) (detail : Bytes)
  | noTrustedKey (role : KeyRole) (tried : ℕ)
  | noActiveSigner (role : KeyRole)
  | dualControlRequired (keyId : Bytes) (status : KeyStatus) (approvals required : ℕ)
  | invalidTransition (keyId : Bytes) (source target : KeyStatus) (detail : Bytes)
  deriving DecidableEq

/-! ## Trust roots -/

structure Approval where
  approver : Bytes
  atUnix : U64
  deriving DecidableEq

/-- The record behind a key's status. -/
structure Ceremony where
  reference : Bytes
  approvals : List Approval
  deriving DecidableEq

def Ceremony.approvers (ceremony : Ceremony) : ExtTreeSet Bytes :=
  ExtTreeSet.ofList (ceremony.approvals.map Approval.approver) compare

structure TrustRoot where
  keyId : Bytes
  role : KeyRole
  algorithm : Algorithm
  /-- In hexadecimal. -/
  publicKey : Bytes
  backend : Backend
  status : KeyStatus
  generation : U64
  ceremony : Ceremony
  revocationReason : Option Bytes
  deriving DecidableEq

def REGISTER_SCHEMA_VERSION : ℕ := 1

/-- How many people have to approve what changes what verifies. -/
def DUAL_CONTROL : ℕ := 2

namespace TrustRoot

/-- The bytes of the public key, if they are a key. -/
def verifyingKey (curve : Curve) (root : TrustRoot) : Except KeyError Bytes :=
  match decodeHex 32 root.publicKey with
  | none =>
      .error (.registerInvalid (ascii "trust root " ++ curve.showQuoted root.keyId ++
        ascii " public key must be 64 hexadecimal characters"))
  | some bytes =>
      match curve.fromBytes bytes with
      | .ok () => .ok bytes
      | .error error =>
          .error (.registerInvalid (ascii "trust root " ++ curve.showQuoted root.keyId ++
            ascii " public key is not on the curve: " ++ error))

def dualControlSatisfied (root : TrustRoot) : Bool :=
  DUAL_CONTROL ≤ root.ceremony.approvers.size

/-- The refusal of a step that one person has approved. -/
def dualControlRequired (root : TrustRoot) (keyId : Bytes) (status : KeyStatus) : KeyError :=
  .dualControlRequired keyId status root.ceremony.approvers.size DUAL_CONTROL

end TrustRoot

/-- The trust roots, in no significant order. -/
structure TrustRootRegister where
  schemaVersion : ℕ
  roots : List TrustRoot
  deriving DecidableEq

namespace TrustRootRegister

def inRole (register : TrustRootRegister) (role : KeyRole) : List TrustRoot :=
  register.roots.filter fun root => root.role = role

/-- A root by role and id, whatever its status. -/
def find (register : TrustRootRegister) (role : KeyRole) (keyId : Bytes) : Option TrustRoot :=
  (register.inRole role).find? fun root => root.keyId = keyId

/-! ## Validity -/

/-- The status and the recorded reason go together. -/
def validateReason (curve : Curve) (root : TrustRoot) : Except KeyError Unit :=
  match root.status, root.revocationReason with
  | .revoked, none =>
      .error (.registerInvalid (ascii "trust root " ++ curve.showQuoted root.keyId ++
        ascii (" is revoked with no recorded reason; an unexplained revocation cannot be " ++
          "reviewed or reversed")))
  | .revoked, some _ => .ok ()
  | _, none => .ok ()
  | status, some _ =>
      .error (.registerInvalid (ascii "trust root " ++ curve.showQuoted root.keyId ++
        ascii " is " ++ status.asStr ++
        ascii (" but carries a revocation reason; a stale reason must not outlive the " ++
          "revocation it described")))

/-- One root, after the ids that came before it. -/
def validateRoot (curve : Curve) (seen : List (KeyRole × Bytes)) (root : TrustRoot) :
    Except KeyError Unit :=
  if trim root.keyId = [] ∨ root.keyId.length > 128 then
    .error (.registerInvalid (ascii "key id " ++ curve.showQuoted root.keyId ++
      ascii " must contain 1..=128 non-blank bytes"))
  else if (root.role, root.keyId) ∈ seen then
    .error (.registerInvalid (ascii "key id " ++ curve.showQuoted root.keyId ++
      ascii " appears twice in the " ++ root.role.asStr ++ ascii " role"))
  else do
    let _ ← root.verifyingKey curve
    if trim root.ceremony.reference = [] then
      .error (.registerInvalid (ascii "trust root " ++ curve.showQuoted root.keyId ++
        ascii (" records no ceremony reference; a key nobody can trace to an approval is not " ++
          "custodied")))
    else if (root.status = .active ∨ root.status = .revoked) ∧ ¬ root.dualControlSatisfied then
      .error (root.dualControlRequired root.keyId root.status)
    else validateReason curve root

def validateRoots (curve : Curve) :
    List (KeyRole × Bytes) → List TrustRoot → Except KeyError Unit
  | _, [] => .ok ()
  | seen, root :: roots => do
      validateRoot curve seen root
      validateRoots curve ((root.role, root.keyId) :: seen) roots

/-- The roots that sign for a role. -/
def activeIn (register : TrustRootRegister) (role : KeyRole) : List TrustRoot :=
  (register.inRole role).filter fun root => root.status = .active

/-- At most one root signs for a role. -/
def validateActive (register : TrustRootRegister) (role : KeyRole) : Except KeyError Unit :=
  let active := register.activeIn role
  if active.length > 1 then
    .error (.registerInvalid (ascii "the " ++ role.asStr ++ ascii " role has " ++
      decimal active.length ++ ascii " active trust roots (" ++
      (((active.map TrustRoot.keyId).intersperse (ascii ", ")).flatten) ++
      ascii ("); exactly one key signs at a time, and rotation moves the old one to " ++
        "retired")))
  else .ok ()

/-- Everything that holds of a register before anything trusts it. -/
def validate (curve : Curve) (register : TrustRootRegister) : Except KeyError Unit :=
  if register.schemaVersion ≠ REGISTER_SCHEMA_VERSION then
    .error (.registerInvalid (ascii "schemaVersion " ++ decimal register.schemaVersion ++
      ascii " is not the supported " ++ decimal REGISTER_SCHEMA_VERSION))
  else if register.roots = [] then
    .error (.registerInvalid
      (ascii "registers no trust roots; an empty register trusts nothing at all"))
  else do
    validateRoots curve [] register.roots
    [KeyRole.actorGovernance, .release, .backupRoot].forM register.validateActive

end TrustRootRegister

end Keys

end LoomDB
