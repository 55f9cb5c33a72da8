import LoomDB.Keys.Register

/-!
# Rotation

The four steps of a rotation: stage a key, promote it to signing, stop it signing,
revoke it. Each returns a new register, or refuses.
-/

namespace LoomDB

namespace Keys

open TrustRootRegister (inRole find validate)

variable (curve : Curve)

/-- The register with other roots, if it is valid. -/
def TrustRootRegister.withRoots (register : TrustRootRegister) (roots : List TrustRoot) :
    Except KeyError TrustRootRegister :=
  let next := { register with roots := roots }
  (next.validate curve).map fun () => next

/-- The highest generation of a role, `0` without one. -/
def highestIn (register : TrustRootRegister) (role : KeyRole) : U64 :=
  (((register.inRole role).map TrustRoot.generation).max?).getD 0

/-- Stage a new trust root, whatever status it comes with. -/
def expand (register : TrustRootRegister) (newRoot : TrustRoot) :
    Except KeyError TrustRootRegister :=
  if (register.find newRoot.role newRoot.keyId).isSome then
    .error (.registerInvalid (ascii "key id " ++ curve.showQuoted newRoot.keyId ++
      ascii " is already registered for the " ++ newRoot.role.asStr ++ ascii " role"))
  else
    let highest := highestIn register newRoot.role
    if newRoot.generation ≤ highest then
      .error (.registerInvalid (ascii "generation " ++ decimal newRoot.generation ++
        ascii " does not exceed the " ++ newRoot.role.asStr ++ ascii " role's highest (" ++
        decimal highest ++
        ascii "); a rotation must move forward or it can be replayed backwards"))
    else
      register.withRoots curve
        (register.roots ++ [{ newRoot with status := .pending, revocationReason := none }])

/-- What a promotion does to a root: the promoted key signs, and the one it supersedes
only verifies. -/
def promote (role : KeyRole) (keyId : Bytes) (generation : U64) (root : TrustRoot) :
    Except KeyError TrustRoot :=
  if root.role ≠ role then .ok root
  else if root.keyId = keyId then .ok { root with status := .active }
  else if root.status = .active then
    if root.generation ≥ generation then
      .error (.invalidTransition keyId .pending .active (ascii "generation " ++
        decimal generation ++ ascii " does not exceed the active key " ++
        curve.showQuoted root.keyId ++ ascii " at generation " ++ decimal root.generation))
    else .ok { root with status := .retired }
  else .ok root

/-- Promote a staged key to signing. -/
def activate (register : TrustRootRegister) (role : KeyRole) (keyId : Bytes) :
    Except KeyError TrustRootRegister :=
  match register.find role keyId with
  | none => .error (.unknownKeyId keyId role)
  | some candidate =>
      if candidate.status ≠ .pending then
        .error (.invalidTransition keyId candidate.status .active
          (ascii "only a staged key is activated; expand it first"))
      else if ¬ candidate.dualControlSatisfied then
        .error (candidate.dualControlRequired keyId .active)
      else do
        let roots ← register.roots.mapM (promote curve role keyId candidate.generation)
        register.withRoots curve roots

/-- The root with another status, if it is the one. -/
def restate (role : KeyRole) (keyId : Bytes) (change : TrustRoot → TrustRoot)
    (root : TrustRoot) : TrustRoot :=
  if root.role = role ∧ root.keyId = keyId then change root else root

/-- Stop a key signing. -/
def retire (register : TrustRootRegister) (role : KeyRole) (keyId : Bytes) :
    Except KeyError TrustRootRegister :=
  match register.find role keyId with
  | none => .error (.unknownKeyId keyId role)
  | some candidate =>
      if candidate.status ≠ .active then
        .error (.invalidTransition keyId candidate.status .retired
          (ascii "only an active key retires"))
      else
        register.withRoots curve (register.roots.map (restate role keyId fun root =>
          { root with status := .retired }))

/-- The other keys of the role that verify. -/
def survivors (register : TrustRootRegister) (role : KeyRole) (keyId : Bytes) :
    List TrustRoot :=
  (register.inRole role).filter fun root => root.keyId ≠ keyId ∧ root.status.verifies

/-- Revoke a key, for a recorded reason. -/
def revoke (register : TrustRootRegister) (role : KeyRole) (keyId reason : Bytes)
    (allowSeal : Bool) : Except KeyError TrustRootRegister :=
  if trim reason = [] then
    .error (.registerInvalid (ascii "revoking " ++ curve.showQuoted keyId ++
      ascii (" needs a recorded reason; an unexplained revocation cannot be reviewed or " ++
        "reversed")))
  else
    match register.find role keyId with
    | none => .error (.unknownKeyId keyId role)
    | some candidate =>
        if candidate.status = .revoked then
          .error (.invalidTransition keyId .revoked .revoked (ascii "already revoked"))
        else if ¬ candidate.dualControlSatisfied then
          .error (candidate.dualControlRequired keyId .revoked)
        else if survivors register role keyId = [] ∧ ¬ allowSeal then
          .error (.invalidTransition keyId candidate.status .revoked (ascii "this is the last " ++
            role.asStr ++
            ascii (" key that verifies; revoking it seals the role and nothing signed for it " ++
              "will verify again. Rotate a replacement in first, or say explicitly that " ++
              "sealing is intended")))
        else
          register.withRoots curve (register.roots.map (restate role keyId fun root =>
            { root with status := .revoked, revocationReason := some reason }))

/-! ## Steps -/

/-- A step of a rotation, with what it is given. -/
inductive RotationStep where
  | expand (newRoot : TrustRoot)
  | activate (role : KeyRole) (keyId : Bytes)
  | retire (role : KeyRole) (keyId : Bytes)
  | revoke (role : KeyRole) (keyId reason : Bytes) (allowSeal : Bool)

def RotationStep.apply (register : TrustRootRegister) :
    RotationStep → Except KeyError TrustRootRegister
  | .expand newRoot => Keys.expand curve register newRoot
  | .activate role keyId => Keys.activate curve register role keyId
  | .retire role keyId => Keys.retire curve register role keyId
  | .revoke role keyId reason allowSeal => Keys.revoke curve register role keyId reason allowSeal

end Keys

end LoomDB
