import LoomDB.Keys.Register
import Mathlib.Data.List.Sort

/-!
# The verifier's view

The trust roots of one role, and whether one of them accepts a signature.
-/

namespace LoomDB

namespace Keys

open TrustRootRegister (inRole find validate)

structure KeyDirectory where
  register : TrustRootRegister
  role : KeyRole

namespace KeyDirectory

variable (curve : Curve)

def new (register : TrustRootRegister) (role : KeyRole) : Except KeyError KeyDirectory := do
  register.validate curve
  return { register, role }

/-- The roots that may still verify, newest generation first. -/
def trusted (directory : KeyDirectory) : List TrustRoot :=
  ((directory.register.inRole directory.role).filter fun root => root.status.verifies)
    |>.insertionSort fun left right => right.generation ≤ left.generation

def signingRoot (directory : KeyDirectory) : Except KeyError TrustRoot :=
  match (directory.register.inRole directory.role).find? fun root => root.status.signs with
  | some root => .ok root
  | none => .error (.noActiveSigner directory.role)

/-- The root with the id, if it may verify. -/
def resolve (directory : KeyDirectory) (keyId : Bytes) : Except KeyError TrustRoot :=
  match directory.register.find directory.role keyId with
  | some root =>
      match root.status with
      | .revoked =>
          .error (.keyRevoked root.keyId root.generation
            (root.revocationReason.getD (ascii "no reason recorded")))
      | .pending => .error (.keyNotTrusted root.keyId root.status)
      | .active | .retired => .ok root
  | none =>
      match directory.register.roots.find? fun root => root.keyId = keyId with
      | some elsewhere => .error (.roleMismatch keyId directory.role elsewhere.role)
      | none => .error (.unknownKeyId keyId directory.role)

def verifyAgainst (root : TrustRoot) (message signature : Bytes) : Except KeyError Unit :=
  match root.algorithm with
  | .ed25519 =>
      if signature.length ≠ 64 then
        .error (.signatureInvalid root.keyId (ascii "an ed25519 signature is 64 bytes; this one is " ++
          decimal signature.length))
      else do
        let key ← root.verifyingKey curve
        (curve.verify key message signature).mapError (KeyError.signatureInvalid root.keyId)

/-- Verify a signature against a named key. -/
def verify (directory : KeyDirectory) (keyId claimedAlgorithm message signature : Bytes) :
    Except KeyError TrustRoot := do
  let root ← directory.resolve keyId
  if claimedAlgorithm ≠ root.algorithm.asStr then
    throw (.algorithmMismatch root.keyId root.algorithm claimedAlgorithm)
  verifyAgainst curve root message signature
  return root

/-- Verify a signature that does not name its key: each trusted root is tried. -/
def verifyAny (directory : KeyDirectory) (message signature : Bytes) :
    Except KeyError TrustRoot :=
  match directory.trusted.find? fun root => (verifyAgainst curve root message signature).isOk with
  | some root => .ok root
  | none => .error (.noTrustedKey directory.role directory.trusted.length)

end KeyDirectory

end Keys

end LoomDB
