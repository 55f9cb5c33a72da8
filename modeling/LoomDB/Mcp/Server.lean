import LoomDB.Action.Record
import LoomDB.Mcp.Protocol
import LoomDB.Memory.Retrieval
import LoomDB.Policy.Engine
import LoomDB.Provenance.Taint

/-!
# The MCP server

The tools an agent can call. Each one takes its arguments out of the request in
its own order and hands them to the engine, the policy or the taint walk.
-/

namespace LoomDB

namespace Mcp

open Std (ExtTreeMap)

/-- What the derived conversions of the engine's values do: tokens from and to
JSON, commit ids from and to hexadecimal, and the texts of errors, commits and
merge results. -/
structure Wire where
  readToken : Json → Except Bytes CapabilityToken
  writeToken : CapabilityToken → Json
  readCommit : Bytes → Option CommitId
  showCommit : CommitId → Bytes
  displayCommit : CommitId → Bytes
  displayError : LoomError → Bytes
  debugMerge : MergeResult → Bytes

structure LoomServer (σ ρ : Type) where
  db : Engine σ ρ
  policy : Policy.Engine
  /-- The gateway's records. -/
  records : List ActionRecord
  now : U64
  ranking : Ranking
  wire : Wire

inductive ToolError where
  | denied (message : Bytes)
  | badArgs (message : Bytes)
  deriving DecidableEq

abbrev ToolM (σ ρ : Type) := ExceptT ToolError (StateM (Loom σ ρ))

/-! ## Arguments -/

def argStr (args : Json) (key : String) : Except ToolError Bytes :=
  match (args.get key).bind Json.asStr with
  | some text => .ok text
  | none => .error (.badArgs (ascii "missing string argument '" ++ ascii key ++ ascii "'"))

/-- An argument with a default. -/
def argStrOr (args : Json) (key : String) (default : String) : Bytes :=
  ((args.get key).bind Json.asStr).getD (ascii default)

def parseTrust (text : Bytes) : Except ToolError TrustClass :=
  if text = ascii "VerifiedSystem" then .ok .verifiedSystem
  else if text = ascii "Human" then .ok .human
  else if text = ascii "ThirdParty" then .ok .thirdParty
  else if text = ascii "Untrusted" then .ok .untrusted
  else .error (.badArgs (ascii "unknown trust class '" ++ text ++ ascii "'"))

def parseToken (wire : Wire) (args : Json) : Except ToolError CapabilityToken :=
  match args.get "token" with
  | none => .error (.badArgs (ascii "every data tool needs a 'token'"))
  | some value =>
      (wire.readToken value).mapError fun detail =>
        .badArgs (ascii "malformed token: " ++ detail)

/-- The signature a request carries, if it carries one. -/
def parseSignature (args : Json) : Except ToolError Bytes :=
  match args.get "signature" with
  | none => .ok []
  | some value =>
      match value.asStr with
      | none => .error (.badArgs (ascii "'signature' must be a hex string, if it is present"))
      | some text =>
          match decodeHex 64 text with
          | some bytes => .ok bytes
          | none =>
              .error (.badArgs (ascii ("'signature' must be exactly 128 hexadecimal characters " ++
                "(a 64-byte Ed25519 signature over the envelope's signing bytes)")))

/-- The envelope a write rides in, under the client's signature. -/
def envelopeOf (args : Json) (branch : BranchId) (intent : String) :
    Except ToolError WriteEnvelope := do
  let session := argStrOr args "session" "s"
  let actor := argStrOr args "actor" "agent"
  let signature ← parseSignature args
  return { WriteEnvelope.new actor session branch (ascii intent) with signature := signature }

/-- The evidence that names a system and a source. -/
def evidenceOf (args : Json) : List SourceRef :=
  match (args.get "evidence").bind Json.asArray with
  | some items =>
      items.filterMap fun item => do
        let system ← (item.get "system").bind Json.asStr
        let source ← (item.get "source").bind Json.asStr
        return { system := system, recordId := source }
  | none => []

def recordKind : Record → String
  | .observation _ => "observation"
  | .claim _ => "claim"
  | .value _ => "value"

/-- `0.9`. -/
def ruleConfidence : F64 := ⟨0x3FECCCCCCCCCCCCD⟩

namespace LoomServer

variable {σ ρ : Type} (server : LoomServer σ ρ)

/-- A call of the engine, whose error is a refusal. -/
def denied {α : Type} (call : LoomM σ ρ α) : ToolM σ ρ α := fun loom =>
  ((call loom).1.mapError fun error => .denied (server.wire.displayError error), (call loom).2)

/-! ## The tools -/

def sessionOpen : ToolM σ ρ Json := do
  let (handle, token) ← server.denied server.db.openSession
  return Json.ofFields [("session", .string handle.id), ("branch", .string handle.branch),
    ("token", server.wire.writeToken token)]

def observe (args : Json) : ToolM σ ρ Json := do
  let token ← FallibleState.lift (parseToken server.wire args)
  let branch ← FallibleState.lift (argStr args "branch")
  let key ← FallibleState.lift (argStr args "key")
  let system ← FallibleState.lift (argStr args "system")
  let source ← FallibleState.lift (argStr args "source")
  let trust ← FallibleState.lift (argStr args "trust")
  let trust ← FallibleState.lift (parseTrust trust)
  let text := argStrOr args "text" ""
  let record := Record.observation {
    id := server.db.platform.blake3 key
    source := { system := system, recordId := source }
    trust := trust
    observedAt := none
    ingestedAt := server.now
    payload := text }
  let envelope ← FallibleState.lift (envelopeOf args branch "observe")
  let commit ← server.denied
    (server.db.writeIndexed token branch key record { text := text, embedding := none } envelope)
  return Json.ofFields [("committed", .string (server.wire.showCommit commit))]

def branchCreate (args : Json) : ToolM σ ρ Json := do
  let token ← FallibleState.lift (parseToken server.wire args)
  let source ← FallibleState.lift (argStr args "from")
  let name ← FallibleState.lift (argStr args "name")
  let (branch, newToken) ← server.denied (server.db.branch token source name)
  return Json.ofFields [("branch", .string branch), ("token", server.wire.writeToken newToken)]

def claimAssert (args : Json) : ToolM σ ρ Json := do
  let token ← FallibleState.lift (parseToken server.wire args)
  let branch ← FallibleState.lift (argStr args "branch")
  let key ← FallibleState.lift (argStr args "key")
  let subject ← FallibleState.lift (argStr args "subject")
  let predicate ← FallibleState.lift (argStr args "predicate")
  let text := argStrOr args "text" ""
  let claim := Record.claim {
    id := server.db.platform.blake3 key
    predicate := predicate
    subject := subject
    object := .text text
    valid := { start := some server.now, stop := none }
    known := { start := some server.now, stop := none }
    confidence := { value := ruleConfidence, method := .rule, calibration := ascii "v1" }
    evidence := evidenceOf args
    status := .asserted
    policy := none
    actor := argStrOr args "actor" "agent" }
  let envelope ← FallibleState.lift (envelopeOf args branch "claim")
  let commit ← server.denied
    (server.db.writeIndexed token branch key claim { text := text, embedding := none } envelope)
  return Json.ofFields [("committed", .string (server.wire.showCommit commit))]

def read (args : Json) : ToolM σ ρ Json := do
  let token ← FallibleState.lift (parseToken server.wire args)
  let branch ← FallibleState.lift (argStr args "branch")
  let key ← FallibleState.lift (argStr args "key")
  let found ← server.denied (server.db.read token branch key)
  return Json.ofFields [("found", .bool found.isSome),
    ("kind", Json.optional (found.map fun record => ascii (recordKind record)))]

def packedItem (item : PackedItem) : Json :=
  Json.ofFields [("key", .string (utf8Lossy item.key)), ("text", .string item.text),
    ("stale", .bool item.stale),
    ("citations", .array (item.citations.map fun source => .string source.toBytes))]

/-- The filter is the policy's answer for each entry. -/
def retrieve (args : Json) : ToolM σ ρ Json := do
  let token ← FallibleState.lift (parseToken server.wire args)
  let branch ← FallibleState.lift (argStr args "branch")
  let query ← FallibleState.lift (argStr args "query")
  let purpose := argStrOr args "purpose" "internal"
  let budget := (((args.get "budget").bind Json.asU64).getD 1000).val % 2 ^ 32
  let actor := argStrOr args "actor" "agent"
  let packed ← server.denied (server.db.retrieveFiltered server.ranking token branch
    { embedding := none, text := query, budget := budget }
    (Policy.mayPack server.db.platform server.policy actor purpose))
  return Json.ofFields [("items", .array (packed.items.map packedItem)),
    ("used_tokens", Json.count packed.usedTokens),
    ("dropped_for_budget", Json.count packed.droppedForBudget)]

def branchMerge (args : Json) : ToolM σ ρ Json := do
  let token ← FallibleState.lift (parseToken server.wire args)
  let source ← FallibleState.lift (argStr args "source")
  let target ← FallibleState.lift (argStr args "target")
  let envelope ← FallibleState.lift (envelopeOf args target "merge")
  let result ← server.denied (server.db.merge token source target .conflict envelope)
  return Json.ofFields [("outcome", .string (server.wire.debugMerge result))]

def branchRewind (args : Json) : ToolM σ ρ Json := do
  let token ← FallibleState.lift (parseToken server.wire args)
  let branch ← FallibleState.lift (argStr args "branch")
  let text ← FallibleState.lift (argStr args "to")
  let commit ← FallibleState.lift
    (match server.wire.readCommit text with
    | some commit => .ok commit
    | none => .error (.badArgs (ascii "'to' is not a valid commit id")))
  let _ ← server.denied (server.db.rewind token branch commit)
  return Json.ofFields [("rewound_to", .string text)]

/-- The policy's answer, without a look at the database. -/
def actionPropose (args : Json) : ToolM σ ρ Json := do
  let action ← FallibleState.lift (argStr args "action")
  let target ← FallibleState.lift (argStr args "target")
  let label ← FallibleState.lift (parseTrust (argStrOr args "evidence_label" "Untrusted"))
  let actor := argStrOr args "actor" "agent"
  let decision :=
    Policy.mayAuthorizeAction server.db.platform server.policy actor action label
  return Json.ofFields [("proposed", .bool true), ("action", .string action),
    ("target", .string target), ("would_be_permitted", .bool decision.decision.isAllowed),
    ("rationale", .string decision.rationale),
    ("note", Json.text
      "proposed only. An agent cannot execute; the gateway acts after approval.")]

def irreversibleItem (item : IrreversibleItem) : Json :=
  Json.ofFields [("action", .string item.actionType), ("target", .string item.target),
    ("receipt", Json.optional item.receipt),
    ("compensating_action", Json.optional item.compensatingAction),
    ("escalation", .string item.escalation)]

/-- The one tool that looks into the branches and takes no token. -/
def auditTaint (args : Json) : ToolM σ ρ Json := do
  let system ← FallibleState.lift (argStr args "system")
  let source ← FallibleState.lift (argStr args "source")
  let executed := server.records.filterMap ActionRecord.toExecuted
  let (plan, _) ← server.denied
    (server.db.taintWithActions { system := system, recordId := source } executed)
  return Json.ofFields [("irreversible", .array (plan.irreversible.map irreversibleItem)),
    ("reversible_count", Json.count plan.reversible.length),
    ("report", .string (plan.report server.wire.displayCommit))]

/-! ## Dispatch -/

inductive Tool where
  | sessionOpen
  | observe
  | branchCreate
  | claimAssert
  | read
  | retrieve
  | branchMerge
  | branchRewind
  | actionPropose
  | auditTaint
  deriving DecidableEq

def toolNamed (name : Bytes) : Option Tool :=
  if name = ascii "session.open" then some .sessionOpen
  else if name = ascii "observe" then some .observe
  else if name = ascii "branch.create" then some .branchCreate
  else if name = ascii "claim.assert" then some .claimAssert
  else if name = ascii "read" then some .read
  else if name = ascii "retrieve" then some .retrieve
  else if name = ascii "branch.merge" then some .branchMerge
  else if name = ascii "branch.rewind" then some .branchRewind
  else if name = ascii "action.propose" then some .actionPropose
  else if name = ascii "audit.taint" then some .auditTaint
  else none

def run (tool : Tool) (args : Json) : ToolM σ ρ Json :=
  match tool with
  | .sessionOpen => server.sessionOpen
  | .observe => server.observe args
  | .branchCreate => server.branchCreate args
  | .claimAssert => server.claimAssert args
  | .read => server.read args
  | .retrieve => server.retrieve args
  | .branchMerge => server.branchMerge args
  | .branchRewind => server.branchRewind args
  | .actionPropose => server.actionPropose args
  | .auditTaint => server.auditTaint args

/-- Without arguments, an empty object. -/
def argumentsOf (req : Request) : Json :=
  (req.params.get "arguments").getD (.object [])

def respond (id : Option Json) : Except ToolError Json → Response
  | .ok result => Response.ok id result
  | .error (.denied message) => Response.err id DENIED message
  | .error (.badArgs message) => Response.err id INVALID_PARAMS message

def callTool (req : Request) (loom : Loom σ ρ) : Response × Loom σ ρ :=
  match (req.params.get "name").bind Json.asStr with
  | none => (Response.err req.id INVALID_PARAMS (ascii "tools/call needs a 'name'"), loom)
  | some name =>
      match toolNamed name with
      | none =>
          (Response.err req.id METHOD_NOT_FOUND
            (ascii "no such tool '" ++ name ++ ascii "'"), loom)
      | some tool =>
          let (result, loom) := server.run tool (argumentsOf req) loom
          (respond req.id result, loom)

end LoomServer

end Mcp

end LoomDB
