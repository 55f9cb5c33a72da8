import LoomDB.Core.Provenance

/-!
# Write envelopes

Who makes a write, in which session, on which branch, from which declared
sources and why, with the actor's signature over it.
-/

namespace LoomDB

structure WriteEnvelope where
  actor : ActorId
  session : SessionId
  branch : BranchId
  contextHash : Digest
  delegation : List ActorId
  derivedFrom : List SourceRef
  intent : Bytes
  policy : Option PolicyDecisionId
  signature : Bytes
  deriving DecidableEq

namespace WriteEnvelope

def new (actor : ActorId) (session : SessionId) (branch : BranchId) (intent : Bytes) :
    WriteEnvelope :=
  { actor := actor
    session := session
    branch := branch
    contextHash := 0
    delegation := []
    derivedFrom := []
    intent := intent
    policy := none
    signature := [] }

/-- One field behind its eight-byte length. -/
def field (bytes : Bytes) : Bytes :=
  leBytes 8 bytes.length ++ bytes

def signingBytes (envelope : WriteEnvelope) : Bytes :=
  field (ascii "loom-envelope-v1") ++ field envelope.actor ++ field envelope.session ++
    field envelope.branch ++ field envelope.contextHash.asBytes ++ field envelope.intent ++
    leBytes 8 envelope.delegation.length ++ envelope.delegation.flatMap field ++
    leBytes 8 envelope.derivedFrom.length ++
    envelope.derivedFrom.flatMap fun source => field source.toBytes

def verify (platform : Platform) (envelope : WriteEnvelope) (key : Bytes) :
    Except LoomError Unit :=
  if envelope.signature = [] then .error (.envelopeUnsigned envelope.actor)
  else if envelope.signature.length ≠ 64 then
    .error (.envelopeSignatureInvalid envelope.actor)
  else if platform.verifyStrict key envelope.signingBytes envelope.signature then .ok ()
  else .error (.envelopeSignatureInvalid envelope.actor)

/-- Drop the white-space characters a UTF-8 text starts with. -/
def trimStart : Bytes → Bytes
  | 0xC2 :: 0x85 :: rest => trimStart rest
  | 0xC2 :: 0xA0 :: rest => trimStart rest
  | 0xE1 :: 0x9A :: 0x80 :: rest => trimStart rest
  | 0xE2 :: 0x81 :: 0x9F :: rest => trimStart rest
  | 0xE3 :: 0x80 :: 0x80 :: rest => trimStart rest
  | 0xE2 :: 0x80 :: byte :: rest =>
      if (0x80 ≤ byte ∧ byte ≤ 0x8A) ∨ byte = 0xA8 ∨ byte = 0xA9 ∨ byte = 0xAF then
        trimStart rest
      else 0xE2 :: 0x80 :: byte :: rest
  | byte :: rest =>
      if (0x09 ≤ byte ∧ byte ≤ 0x0D) ∨ byte = 0x20 then trimStart rest else byte :: rest
  | [] => []

def isValid (envelope : WriteEnvelope) : Bool :=
  envelope.actor ≠ [] && envelope.session ≠ [] && envelope.branch ≠ [] &&
    trimStart envelope.intent ≠ []

end WriteEnvelope

end LoomDB
