import LoomDB.Core.Platform

/-!
# Capability tokens

A token names a session and an explicit set of branches, under the signature of
the engine that issued it.
-/

namespace LoomDB

open Std (ExtTreeSet)

/-- `u64` addition as compiled: an overflow panics. -/
def U64.add (left right : U64) : Except LoomError U64 :=
  if h : left.val + right.val < 256 ^ 8 then .ok ⟨left.val + right.val, h⟩
  else .error .panicked

structure TokenClaims where
  tenant : TenantId
  session : SessionId
  scope : ExtTreeSet BranchId
  expiresAtMs : U64
  deriving DecidableEq

structure CapabilityToken where
  claims : TokenClaims
  signature : Bytes
  deriving DecidableEq

/-- The bytes that get signed. -/
def canonical (claims : TokenClaims) : Bytes :=
  (Codec.pair Codec.bytes (Codec.pair Codec.bytes (Codec.pair (Codec.set Codec.bytes)
    Codec.u64))).serialize (claims.tenant, claims.session, claims.scope, claims.expiresAtMs)

/-- `Display` of a branch. -/
def showBranch (branch : BranchId) : Bytes :=
  ascii "br_" ++ branch

/-- The engine's signing key. -/
structure TokenIssuer where
  signing : Bytes
  deriving DecidableEq

namespace TokenIssuer

variable (platform : Platform) (issuer : TokenIssuer)

def issue (tenant : TenantId) (session : SessionId) (scope : ExtTreeSet BranchId)
    (expiresAtMs : U64) : CapabilityToken :=
  let claims : TokenClaims := { tenant, session, scope, expiresAtMs }
  { claims := claims, signature := platform.sign issuer.signing (canonical claims) }

/-- Everything an old token covers, plus one more branch. -/
def extend (token : CapabilityToken) (branch : BranchId) : CapabilityToken :=
  issuer.issue platform token.claims.tenant token.claims.session
    (token.claims.scope.insert branch) token.claims.expiresAtMs

/-- Signature, expiry and scope, in that order. -/
def authorize (token : CapabilityToken) (branch : BranchId) (nowMs : U64) :
    Except LoomError Unit :=
  if token.signature.length ≠ 64 then .error .tokenForged
  else if !platform.verify (platform.verifyingKey issuer.signing) (canonical token.claims)
      token.signature then .error .tokenForged
  else if token.claims.expiresAtMs ≤ nowMs then
    .error (.tokenExpired token.claims.session)
  else if !token.claims.scope.contains branch then
    .error (.outOfScope branch
      ((token.claims.scope.toList.map showBranch).intersperse (ascii ", ")).flatten)
  else .ok ()

end TokenIssuer

end LoomDB
