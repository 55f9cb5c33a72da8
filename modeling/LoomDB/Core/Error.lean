import LoomDB.Foundations.Bytes

/-!
# Errors

The errors the modelled paths return, with the data a caller reads from them.
-/

namespace LoomDB

abbrev U32 := Fin (256 ^ 4)
abbrev U64 := Fin (256 ^ 8)

abbrev PageNo := U64
abbrev CommitId := Digest
abbrev BranchId := Bytes
abbrev SessionId := Bytes
abbrev ActorId := Bytes
abbrev TenantId := Bytes
abbrev PolicyDecisionId := Bytes

/-- What the page store refuses. -/
inductive PagerError where
  | pageNotFound (page : PageNo)
  | unreadable (page : PageNo)
  | pageTooLarge (page : PageNo) (len limit : ℕ)
  | manifestNotFound (commit : CommitId)
  | commitFailed
  deriving DecidableEq

inductive LoomError where
  | envelopeUnsigned (actor : ActorId)
  | envelopeSignatureInvalid (actor : ActorId)
  | unknownActor (actor : ActorId)
  | outOfScope (branch : BranchId) (scope : Bytes)
  | tokenExpired (session : SessionId)
  | tokenForged
  | unauthorized
  | missingEnvelope
  | branchExists (name : Bytes)
  | derivationCycle (depth : ℕ)
  | invalidSecurityConfiguration (detail : String)
  | corruptNode (page : PageNo) (detail : String)
  | codec (op what : String)
  | pager (source : PagerError)
  /-- A panic, or a loop that does not end: the call does not return. -/
  | panicked
  deriving DecidableEq

end LoomDB
