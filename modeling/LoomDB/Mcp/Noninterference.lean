import LoomDB.Branch.Steps
import LoomDB.Foundations.TwoRuns
import LoomDB.Mcp.Server

/-!
# What a refused request learns

A request without a token for the branch it names gets the same response from
any two servers that differ in what their branches hold, and changes neither.
The one tool that breaks this is the taint audit, which takes no token.
-/

namespace LoomDB

open FallibleState (Moves Blind Refused)

/-! ## Databases that look the same -/

/-- The same actor keys, and the same time from now on. -/
structure SameOutside {σ ρ : Type} (platform : Platform) (left right : Loom σ ρ) : Prop where
  actorKeys : left.actorKeys = right.actorKeys
  nowMs : ∀ later, platform.nowMs (left.clock + later) = platform.nowMs (right.clock + later)

/-- The database is as it was; only time has passed. -/
structure Undisturbed {σ ρ : Type} (before after : Loom σ ρ) : Prop where
  still : Engine.Still before after
  actorKeys : after.actorKeys = before.actorKeys
  readSets : after.readSets = before.readSets

instance {σ ρ : Type} : IsPreorder (Loom σ ρ) Undisturbed where
  refl loom := ⟨refl loom, rfl, rfl⟩
  trans _ _ _ hfirst hsecond :=
    ⟨trans_of Engine.Still hfirst.still hsecond.still,
      hsecond.actorKeys.trans hfirst.actorKeys, hsecond.readSets.trans hfirst.readSets⟩

namespace Engine

variable {σ ρ α : Type} {engine : Engine σ ρ}

/-- The engine turns the token away from the branch at any time. -/
def TurnsAway (engine : Engine σ ρ) (token : CapabilityToken) (branch : BranchId) : Prop :=
  ∀ nowMs, ∃ error, engine.issuer.authorize engine.platform token branch nowMs = .error error

/-- The signature is not the issuer's over the token's claims. -/
def Forged (engine : Engine σ ρ) (token : CapabilityToken) : Prop :=
  token.signature.length ≠ 64 ∨
    engine.platform.verify (engine.platform.verifyingKey engine.issuer.signing)
      (canonical token.claims) token.signature = false

theorem Forged.turnsAway {token : CapabilityToken} (hforged : engine.Forged token)
    (branch : BranchId) : engine.TurnsAway token branch := by
  intro nowMs
  unfold TokenIssuer.authorize
  by_cases hlength : token.signature.length = 64
  · rw [if_neg (not_not.mpr hlength)]
    have hverify := hforged.resolve_left (not_not.mpr hlength)
    exact ⟨.tokenForged, by rw [hverify]; rfl⟩
  · exact ⟨.tokenForged, if_pos hlength⟩

theorem turnsAway_of_notMem {token : CapabilityToken} {branch : BranchId}
    (hscope : branch ∉ token.claims.scope) : engine.TurnsAway token branch := by
  intro nowMs
  unfold TokenIssuer.authorize
  split
  · exact ⟨_, rfl⟩
  · split
    · exact ⟨_, rfl⟩
    · split
      · exact ⟨_, rfl⟩
      · have hcontains : token.claims.scope.contains branch = false :=
          Bool.eq_false_iff.mpr fun hcontains =>
            hscope (Std.ExtTreeSet.contains_iff_mem.mp hcontains)
        rw [hcontains]
        exact ⟨_, rfl⟩

/-! ## Calls that are refused -/

abbrev BlindCall (engine : Engine σ ρ) (call : LoomM σ ρ α) : Prop :=
  Blind (SameOutside engine.platform) Undisturbed call

abbrev RefusedCall (engine : Engine σ ρ) (call : LoomM σ ρ α) : Prop :=
  Refused (SameOutside engine.platform) Undisturbed call

theorem now_blind : engine.BlindCall engine.now where
  result hsame := congrArg Except.ok (hsame.nowMs 0)
  related hsame :=
    { actorKeys := hsame.actorKeys
      nowMs := fun later => by
        have hlater := hsame.nowMs (later + 1)
        rwa [Nat.add_comm later 1, ← Nat.add_assoc, ← Nat.add_assoc] at hlater }
  moves _ := ⟨⟨rfl, rfl, rfl, rfl⟩, rfl, rfl⟩

theorem authorize_blind (token : CapabilityToken) (branch : BranchId) :
    engine.BlindCall (engine.authorize token branch) :=
  now_blind.bind fun _ => .lift _

theorem TurnsAway.authorize {token : CapabilityToken} {branch : BranchId}
    (haway : engine.TurnsAway token branch) :
    engine.RefusedCall (engine.authorize token branch) where
  toBlind := authorize_blind token branch
  fails loom := haway (engine.platform.nowMs loom.clock)

theorem requireEnvelope_blind (envelope : WriteEnvelope) :
    engine.BlindCall (requireEnvelope envelope : LoomM σ ρ Unit) := by
  unfold requireEnvelope
  split
  · exact .pure _
  · exact .throw _

/-- Authentication looks at the actor keys alone. -/
theorem authenticate_blind (envelope : WriteEnvelope) :
    engine.BlindCall (engine.authenticate envelope) := by
  have hanswer : ∀ loom : Loom σ ρ, engine.authenticate envelope loom =
      (loom.actorKeys.elim (.ok ()) fun keys =>
        keys[envelope.actor]?.elim (.error (.unknownActor envelope.actor)) fun key =>
          envelope.verify engine.platform key, loom) := by
    intro loom
    unfold authenticate
    rw [FallibleState.get_bind]
    cases loom.actorKeys with
    | none => rfl
    | some keys =>
        simp only [Option.elim_some]
        cases keys[envelope.actor]? with
        | none => rfl
        | some key => rfl
  exact {
    result := fun hsame => by rw [hanswer, hanswer, hsame.actorKeys]
    related := fun hsame => by rwa [hanswer, hanswer]
    moves := fun loom => by rw [hanswer]; exact refl loom }

section Denied

variable {token : CapabilityToken} {branch : BranchId} (haway : engine.TurnsAway token branch)
include haway

theorem branch_refused (name : BranchId) :
    engine.RefusedCall (engine.branch token branch name) :=
  haway.authorize.bind

theorem rewind_refused_of_turnsAway (commit : CommitId) :
    engine.RefusedCall (engine.rewind token branch commit) :=
  haway.authorize.bind

theorem read_refused (key : Key) : engine.RefusedCall (engine.read token branch key) :=
  haway.authorize.bind

theorem retrieveFiltered_refused (ranking : Ranking) (query : RetrievalQuery)
    (allow : IndexEntry → Bool) :
    engine.RefusedCall (engine.retrieveFiltered ranking token branch query allow) :=
  Refused.bind haway.authorize.bind

theorem writeIndexed_refused (key : Key) (record : Record) (hint : IndexHint)
    (envelope : WriteEnvelope) :
    engine.RefusedCall (engine.writeIndexed token branch key record hint envelope) :=
  .of_blind (requireEnvelope_blind envelope) fun _ =>
    .of_blind (authenticate_blind envelope) fun _ => haway.authorize.bind

end Denied

/-- A merge asks for both branches before it looks at either. -/
theorem merge_refused {token : CapabilityToken} {source target : BranchId}
    (haway : engine.TurnsAway token source ∨ engine.TurnsAway token target)
    (policy : MergePolicy) (envelope : WriteEnvelope) :
    engine.RefusedCall (engine.merge token source target policy envelope) := by
  refine .of_blind (requireEnvelope_blind envelope) fun _ => ?_
  rcases haway with hsource | htarget
  · exact hsource.authorize.bind
  · exact .of_blind (authorize_blind token source) fun _ => htarget.authorize.bind

end Engine

namespace Mcp

namespace LoomServer

variable {σ ρ α : Type} {server : LoomServer σ ρ} {tool : Tool} {args : Json}

/-! ## Requests without a token for the branch they name -/

/-- The arguments in which a tool names the branches it looks at. -/
def Tool.branchArguments : Tool → List String
  | .observe => ["branch"]
  | .branchCreate => ["from"]
  | .claimAssert => ["branch"]
  | .read => ["branch"]
  | .retrieve => ["branch"]
  | .branchMerge => ["source", "target"]
  | .branchRewind => ["branch"]
  | .sessionOpen => []
  | .actionPropose => []
  | .auditTaint => []

/-- The token is absent, malformed, forged or not scoped to a branch the request
names. -/
inductive Unentitled (server : LoomServer σ ρ) (tool : Tool) (args : Json) : Prop
  | absent (hget : args.get "token" = none)
  | malformed {value : Json} {detail : Bytes} (hget : args.get "token" = some value)
      (hread : server.wire.readToken value = .error detail)
  | forged {value : Json} {token : CapabilityToken} (hget : args.get "token" = some value)
      (hread : server.wire.readToken value = .ok token) (hforged : server.db.Forged token)
  | unscoped {value : Json} {token : CapabilityToken} {name : String} {branch : BranchId}
      (hget : args.get "token" = some value) (hread : server.wire.readToken value = .ok token)
      (hname : name ∈ tool.branchArguments) (hbranch : argStr args name = .ok branch)
      (hscope : branch ∉ token.claims.scope)

/-- A request that gets as far as a token has one that is turned away from a branch
it names. -/
theorem Unentitled.turnsAway {token : CapabilityToken} (hrequest : server.Unentitled tool args)
    (htoken : parseToken server.wire args = .ok token) :
    (∀ branch, server.db.TurnsAway token branch) ∨
      ∃ name ∈ tool.branchArguments, ∃ branch, argStr args name = .ok branch ∧
        server.db.TurnsAway token branch := by
  unfold parseToken at htoken
  cases hrequest with
  | absent hget =>
      rw [hget] at htoken
      cases htoken
  | malformed hget hread =>
      rw [hget] at htoken
      simp only [hread] at htoken
      cases htoken
  | forged hget hread hforged =>
      rw [hget] at htoken
      simp only [hread] at htoken
      cases htoken
      exact Or.inl hforged.turnsAway
  | unscoped hget hread hname hbranch hscope =>
      rw [hget] at htoken
      simp only [hread] at htoken
      cases htoken
      exact Or.inr ⟨_, hname, _, hbranch, Engine.turnsAway_of_notMem hscope⟩

/-- A tool that names one branch. -/
theorem Unentitled.turnsAway_of_single {token : CapabilityToken} {name : String}
    {branch : BranchId} (hrequest : server.Unentitled tool args)
    (hnames : tool.branchArguments = [name])
    (htoken : parseToken server.wire args = .ok token) (hbranch : argStr args name = .ok branch) :
    server.db.TurnsAway token branch := by
  rcases hrequest.turnsAway htoken with haway | ⟨other, hother, found, hfound, haway⟩
  · exact haway branch
  · rw [hnames, List.mem_singleton] at hother
    subst hother
    rw [hbranch] at hfound
    cases hfound
    exact haway

/-! ## The tools, one by one -/

abbrev BlindTool (server : LoomServer σ ρ) (run : ToolM σ ρ α) : Prop :=
  Blind (SameOutside server.db.platform) Undisturbed run

theorem denied_refused {call : LoomM σ ρ α} (hcall : server.db.RefusedCall call) :
    Refused (SameOutside server.db.platform) Undisturbed (server.denied call) where
  result hsame := congrArg (Except.mapError _) (hcall.result hsame)
  related hsame := hcall.related hsame
  moves := hcall.moves
  fails loom := by
    obtain ⟨error, herror⟩ := hcall.fails loom
    exact ⟨_, congrArg (Except.mapError _) herror⟩

theorem observe_blind (hrequest : server.Unentitled .observe args) :
    server.BlindTool (server.observe args) := by
  refine .lift_bind fun token htoken => .lift_bind fun branch hbranch => ?_
  have haway := hrequest.turnsAway_of_single rfl htoken hbranch
  refine .lift_bind fun key _ => .lift_bind fun system _ => .lift_bind fun source _ =>
    .lift_bind fun trust _ => .lift_bind fun label _ => .lift_bind fun envelope _ => ?_
  exact (denied_refused (Engine.writeIndexed_refused haway _ _ _ envelope)).bind.toBlind

theorem branchCreate_blind (hrequest : server.Unentitled .branchCreate args) :
    server.BlindTool (server.branchCreate args) := by
  refine .lift_bind fun token htoken => .lift_bind fun source hsource => ?_
  have haway := hrequest.turnsAway_of_single rfl htoken hsource
  refine .lift_bind fun name _ => ?_
  exact (denied_refused (Engine.branch_refused haway name)).bind.toBlind

theorem claimAssert_blind (hrequest : server.Unentitled .claimAssert args) :
    server.BlindTool (server.claimAssert args) := by
  refine .lift_bind fun token htoken => .lift_bind fun branch hbranch => ?_
  have haway := hrequest.turnsAway_of_single rfl htoken hbranch
  refine .lift_bind fun key _ => .lift_bind fun subject _ => .lift_bind fun predicate _ =>
    .lift_bind fun envelope _ => ?_
  exact (denied_refused (Engine.writeIndexed_refused haway _ _ _ envelope)).bind.toBlind

theorem read_blind (hrequest : server.Unentitled .read args) :
    server.BlindTool (server.read args) := by
  refine .lift_bind fun token htoken => .lift_bind fun branch hbranch => ?_
  have haway := hrequest.turnsAway_of_single rfl htoken hbranch
  refine .lift_bind fun key _ => ?_
  exact (denied_refused (Engine.read_refused haway key)).bind.toBlind

theorem retrieve_blind (hrequest : server.Unentitled .retrieve args) :
    server.BlindTool (server.retrieve args) := by
  refine .lift_bind fun token htoken => .lift_bind fun branch hbranch => ?_
  have haway := hrequest.turnsAway_of_single rfl htoken hbranch
  refine .lift_bind fun query _ => ?_
  exact (denied_refused (Engine.retrieveFiltered_refused haway _ _ _)).bind.toBlind

theorem branchMerge_blind (hrequest : server.Unentitled .branchMerge args) :
    server.BlindTool (server.branchMerge args) := by
  refine .lift_bind fun token htoken => .lift_bind fun source hsource =>
    .lift_bind fun target htarget => ?_
  have haway : server.db.TurnsAway token source ∨ server.db.TurnsAway token target := by
    rcases hrequest.turnsAway htoken with haway | ⟨name, hname, branch, hbranch, haway⟩
    · exact Or.inl (haway source)
    · rcases List.mem_pair.mp hname with rfl | rfl
      · rw [hsource] at hbranch
        cases hbranch
        exact Or.inl haway
      · rw [htarget] at hbranch
        cases hbranch
        exact Or.inr haway
  refine .lift_bind fun envelope _ => ?_
  exact (denied_refused (Engine.merge_refused haway _ envelope)).bind.toBlind

theorem branchRewind_blind (hrequest : server.Unentitled .branchRewind args) :
    server.BlindTool (server.branchRewind args) := by
  refine .lift_bind fun token htoken => .lift_bind fun branch hbranch => ?_
  have haway := hrequest.turnsAway_of_single rfl htoken hbranch
  refine .lift_bind fun text _ => .lift_bind fun commit _ => ?_
  exact (denied_refused (Engine.rewind_refused_of_turnsAway haway commit)).bind.toBlind

/-- A proposal is answered from the policy. -/
theorem actionPropose_blind : server.BlindTool (server.actionPropose args) :=
  .lift_bind fun _ _ => .lift_bind fun _ _ => .lift_bind fun _ _ => .pure _

/-- The arguments that a taint audit needs. -/
def NamesSource (args : Json) : Prop :=
  ∃ system source, argStr args "system" = .ok system ∧ argStr args "source" = .ok source

theorem auditTaint_blind (hnames : ¬ NamesSource args) :
    server.BlindTool (server.auditTaint args) :=
  .lift_bind fun system hsystem => .lift_bind fun source hsource =>
    absurd ⟨system, source, hsystem, hsource⟩ hnames

theorem run_blind (hrequest : server.Unentitled tool args) (hopen : tool ≠ .sessionOpen)
    (htaint : ¬ (tool = .auditTaint ∧ NamesSource args)) :
    server.BlindTool (server.run tool args) := by
  cases tool with
  | sessionOpen => exact absurd rfl hopen
  | observe => exact observe_blind hrequest
  | branchCreate => exact branchCreate_blind hrequest
  | claimAssert => exact claimAssert_blind hrequest
  | read => exact read_blind hrequest
  | retrieve => exact retrieve_blind hrequest
  | branchMerge => exact branchMerge_blind hrequest
  | branchRewind => exact branchRewind_blind hrequest
  | actionPropose => exact actionPropose_blind
  | auditTaint => exact auditTaint_blind fun hnames => htaint ⟨rfl, hnames⟩

/-! ## Requests -/

def requestedTool (req : Request) : Option Tool :=
  ((req.params.get "name").bind Json.asStr).bind toolNamed

theorem callTool_eq {req : Request} (htool : requestedTool req = some tool) (loom : Loom σ ρ) :
    server.callTool req loom =
      (respond req.id (server.run tool (argumentsOf req) loom).1,
        (server.run tool (argumentsOf req) loom).2) := by
  obtain ⟨name, hname, hnamed⟩ := Option.bind_eq_some_iff.mp htool
  unfold callTool
  rw [hname]
  simp only [hnamed]
  rfl

/-- The same key, policy and texts over other stores. -/
def withStores {σ' ρ' : Type} (server : LoomServer σ ρ) (pager : Substrate σ') (store : RefStore ρ') :
    LoomServer σ' ρ' where
  db :=
    { platform := server.db.platform
      pager := pager
      store := store
      issuer := server.db.issuer
      tenant := server.db.tenant }
  policy := server.policy
  records := server.records
  now := server.now
  ranking := server.ranking
  wire := server.wire

theorem Unentitled.withStores {σ' ρ' : Type} (hrequest : server.Unentitled tool args)
    (pager : Substrate σ') (store : RefStore ρ') :
    (server.withStores pager store).Unentitled tool args := by
  cases hrequest with
  | absent hget => exact .absent hget
  | malformed hget hread => exact .malformed hget hread
  | forged hget hread hforged => exact .forged hget hread hforged
  | unscoped hget hread hname hbranch hscope => exact .unscoped hget hread hname hbranch hscope

/-- Two databases that differ in what their branches hold give the same response,
and neither changes. -/
def Noninterfering (server : LoomServer σ ρ) (req : Request) : Prop :=
  ∀ left right : Loom σ ρ, SameOutside server.db.platform left right →
    (server.callTool req left).1 = (server.callTool req right).1 ∧
      Undisturbed left (server.callTool req left).2 ∧ Undisturbed right (server.callTool req right).2

theorem noninterfering_of_blind {req : Request} (htool : requestedTool req = some tool)
    (hblind : server.BlindTool (server.run tool (argumentsOf req))) :
    server.Noninterfering req := by
  intro left right hsame
  rw [callTool_eq htool, callTool_eq htool]
  exact ⟨congrArg (respond req.id) (hblind.result hsame), hblind.moves left, hblind.moves right⟩

/-! ## The audit -/

/-- A database whose main branch has been moved to a commit that is not there. -/
def lostLoom : Loom MemPager (Option Refs) :=
  { Engine.memoryLoom with refs := Refs.rooted MAIN 1 }

section Audit

variable (server) (source : SourceRef) (actions : List ExecutedAction)

/-- Nothing is downstream of any source in a new database. -/
theorem taint_memoryLoom :
    ∃ plan, ((server.withStores (MemPager.substrate 4096) MemRefStore).db.taintWithActions source actions
      Engine.memoryLoom).1 = .ok plan :=
  ⟨_, rfl⟩

theorem taint_lostLoom :
    ((server.withStores (MemPager.substrate 4096) MemRefStore).db.taintWithActions source actions
      lostLoom).1 = .error (.pager (.manifestNotFound 1)) :=
  rfl

end Audit

/-- With the arguments in place, an audit succeeds exactly when the walk does. -/
theorem auditTaint_isOk {system source : Bytes} (hsystem : argStr args "system" = .ok system)
    (hsource : argStr args "source" = .ok source) (loom : Loom σ ρ) :
    (server.auditTaint args loom).1.isOk =
      (server.db.taintWithActions { system := system, recordId := source }
        (server.records.filterMap ActionRecord.toExecuted) loom).1.isOk := by
  unfold auditTaint
  simp only [FallibleState.bind_eq, FallibleState.lift_eq, hsystem, hsource, denied]
  cases (server.db.taintWithActions { system := system, recordId := source }
    (server.records.filterMap ActionRecord.toExecuted) loom).1 with
  | error error => rfl
  | ok answer => rfl

theorem result_respond_isSome (id : Option Json) (result : Except ToolError Json) :
    (respond id result).result.isSome = result.isOk := by
  rcases result with ⟨_ | _⟩ | _ <;> rfl

/-- An audit tells the two apart. -/
theorem not_noninterfering_audit {req : Request} (htool : requestedTool req = some .auditTaint)
    (hnames : NamesSource (argumentsOf req)) :
    ¬ (server.withStores (MemPager.substrate 4096) MemRefStore).Noninterfering req := by
  intro hsame
  obtain ⟨system, source, hsystem, hsource⟩ := hnames
  obtain ⟨heq, -⟩ := hsame Engine.memoryLoom lostLoom ⟨rfl, fun _ => rfl⟩
  let actions := server.records.filterMap ActionRecord.toExecuted
  obtain ⟨plan, hplan⟩ := taint_memoryLoom server ⟨system, source⟩ actions
  have hlost := taint_lostLoom server ⟨system, source⟩ actions
  have hresults := congrArg (fun response => response.result.isSome) heq
  rw [callTool_eq htool, callTool_eq htool] at hresults
  simp only [result_respond_isSome] at hresults
  change (auditTaint _ _ _).1.isOk = (auditTaint _ _ _).1.isOk at hresults
  rw [auditTaint_isOk hsystem hsource, auditTaint_isOk hsystem hsource] at hresults
  change (Engine.taintWithActions _ _ actions _).1.isOk =
    (Engine.taintWithActions _ _ actions _).1.isOk at hresults
  rw [hplan, hlost] at hresults
  cases hresults

/-- A request without a token for the branches it names learns nothing about the
branches exactly when it is not an audit of a source. -/
theorem noninterfering_iff {req : Request} (htool : requestedTool req = some tool)
    (hopen : tool ≠ .sessionOpen) (hrequest : server.Unentitled tool (argumentsOf req)) :
    (∀ {σ' ρ' : Type} (pager : Substrate σ') (store : RefStore ρ'),
      (server.withStores pager store).Noninterfering req) ↔
    ¬ (tool = .auditTaint ∧ NamesSource (argumentsOf req)) := by
  constructor
  · rintro hsame ⟨rfl, hnames⟩
    exact not_noninterfering_audit htool hnames (hsame _ _)
  · intro htaint σ' ρ' pager store
    exact noninterfering_of_blind htool (run_blind (hrequest.withStores pager store) hopen htaint)

/-! ## A server to evaluate -/

/-- A server on the engine in memory, with an empty policy and no actions. It reads
no tokens. -/
def memoryServer : LoomServer MemPager (Option Refs) where
  db := Engine.memoryEngine
  policy := Policy.Engine.new { version := ascii "v0", rules := [] }
  records := []
  now := 0
  ranking :=
    { scoreCandidate := fun _ _ => 0
      sort := id
      perm := fun scored => .refl scored }
  wire :=
    { readToken := fun _ => .error (ascii "invalid type")
      writeToken := fun _ => .null
      readCommit := Digest.fromBytes
      showCommit := Digest.asBytes
      displayCommit := Digest.asBytes
      displayError := fun _ => ascii "denied"
      debugMerge := fun _ => ascii "merged" }

/-- A call of a tool with these string arguments and no token. -/
def requestFor (tool : String) (arguments : List (String × String)) : Request where
  id := none
  params := Json.ofFields [("name", Json.text tool),
    ("arguments", Json.ofFields (arguments.map fun (name, value) => (name, Json.text value)))]

/-- Without a token, `read` learns nothing. -/
theorem noninterfering_iff_read :
    (∀ {σ' ρ' : Type} (pager : Substrate σ') (store : RefStore ρ'),
      (memoryServer.withStores pager store).Noninterfering
        (requestFor "read" [("branch", "s"), ("key", "k")])) ↔
    ¬ (Tool.read = .auditTaint ∧
      NamesSource (argumentsOf (requestFor "read" [("branch", "s"), ("key", "k")]))) :=
  noninterfering_iff (by decide +kernel) (by decide) (.absent (by rfl))

/-- A session that has written an observation of a page, and one that has looked
for it. -/
def observedLoom : Loom MemPager (Option Refs) :=
  Engine.memoryEngine.afterAll [.openSessionNamed (ascii "s"),
    .write (Engine.memoryToken [ascii "s"]) (ascii "s")
      [(ascii "k", .observation {
        id := 0
        source := { system := ascii "web", recordId := ascii "1" }
        trust := .untrusted
        observedAt := none
        ingestedAt := 0
        payload := [] })] ∅ (Engine.memoryEnvelope (ascii "s"))] Engine.memoryLoom

def lookedLoom : Loom MemPager (Option Refs) :=
  Engine.memoryEngine.afterAll [.openSessionNamed (ascii "s"),
    .read (Engine.memoryToken [ascii "s"]) (ascii "s") (ascii "k")] Engine.memoryLoom

/-- How many writes an audit without a token says a source has led to. -/
def auditCount (loom : Loom MemPager (Option Refs)) : Option U64 :=
  (((memoryServer.callTool (requestFor "audit.taint" [("system", "web"), ("source", "1")])
    loom).1.result.bind fun result => result.get "reversible_count").bind Json.asU64)

/-- An audit without a token counts the writes on a session's branch. -/
theorem audit_tells_branches_apart :
    ∃ (req : Request) (left right : Loom MemPager (Option Refs)),
      Engine.memoryEngine.Reachable Engine.memoryLawful left ∧
      Engine.memoryEngine.Reachable Engine.memoryLawful right ∧
      SameOutside Engine.memoryEngine.platform left right ∧
      requestedTool req = some .auditTaint ∧
      memoryServer.Unentitled .auditTaint (argumentsOf req) ∧
      (memoryServer.callTool req left).1 ≠ (memoryServer.callTool req right).1 := by
  refine ⟨requestFor "audit.taint" [("system", "web"), ("source", "1")], observedLoom, lookedLoom,
    Engine.memoryLoom_reachable.afterAll _, Engine.memoryLoom_reachable.afterAll _,
    ⟨by decide +kernel, fun later => ?_⟩, by decide +kernel, .absent (by rfl), fun heq => ?_⟩
  · have hclock : observedLoom.clock = lookedLoom.clock := by decide +kernel
    rw [hclock]
  · have hcounts : auditCount observedLoom ≠ auditCount lookedLoom := by decide +kernel
    exact hcounts (congrArg
      (fun response : Response => (response.result.bind fun result =>
        result.get "reversible_count").bind Json.asU64) heq)

end LoomServer

end Mcp

end LoomDB
