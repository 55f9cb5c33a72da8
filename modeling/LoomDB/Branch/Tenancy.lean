import LoomDB.Branch.Calls

/-!
# Many tenants behind one router

A token names its tenant inside what is signed. The router picks that tenant's engine, and
the engine checks the token against its own key. Whoever is registered beside a tenant, the
tenant's tokens are answered alike, and a token that was tampered with is refused alike.
-/

namespace LoomDB

open Std (ExtTreeMap ExtTreeSet)

/-- The engines behind the router, each with its state. -/
structure Tenancy (σ ρ : Type) where
  engines : ExtTreeMap TenantId (Engine σ ρ × Loom σ ρ)

namespace Tenancy

variable {σ ρ : Type}

def new : Tenancy σ ρ :=
  { engines := ∅ }

def register (tenancy : Tenancy σ ρ) (tenant : TenantId) (engine : Engine σ ρ)
    (loom : Loom σ ρ) : Tenancy σ ρ :=
  { engines := tenancy.engines.insert tenant (engine, loom) }

/-- The engine of the tenant a token names. One that is not registered is refused as one
that rejects the token. -/
def engineFor (tenancy : Tenancy σ ρ) (token : CapabilityToken) :
    Except LoomError (Engine σ ρ × Loom σ ρ) :=
  match tenancy.engines[token.claims.tenant]? with
  | some found => .ok found
  | none => .error .unauthorized

/-- What the router makes of an engine's answer. -/
def normalise {α : Type} : Except LoomError α → Except LoomError α
  | .ok answer => .ok answer
  | .error .tokenForged => .error .unauthorized
  | .error other => .error other

def read (tenancy : Tenancy σ ρ) (token : CapabilityToken) (branch : BranchId) (key : Key) :
    Except LoomError (Option Record) × Tenancy σ ρ :=
  match tenancy.engineFor token with
  | .error error => (.error error, tenancy)
  | .ok (engine, loom) =>
      let (outcome, loom) := engine.read token branch key loom
      (normalise outcome, tenancy.register token.claims.tenant engine loom)

end Tenancy

/-! ## Tokens that were tampered with -/

theorem canonical_injective : Function.Injective canonical := by
  intro left right heq
  have hfields := Codec.serialize_injective _ heq
  cases left
  cases right
  simpa using hfields

/-- The keys sign tokens and nothing else, and nobody else makes a signature: what verifies
under a key is a token issued under it. -/
def Unforgeable (platform : Platform) (issued : Bytes → CapabilityToken → Prop) : Prop :=
  ∀ key message signature,
    platform.verify (platform.verifyingKey key) message signature = true →
      ∃ token, issued key token ∧ canonical token.claims = message ∧
        token.signature = signature

/-- A token with other claims or another signature than the one it was made from, that was
not issued itself. -/
structure Altered (issued : Bytes → CapabilityToken → Prop) (token altered : CapabilityToken) :
    Prop where
  changed : altered.claims ≠ token.claims ∨ altered.signature ≠ token.signature
  fresh : ∀ key, ¬ issued key altered

section Reading

variable {σ ρ : Type} {engine : Engine σ ρ} {issued : Bytes → CapabilityToken → Prop}

/-- The engine's own key does not verify it. -/
theorem authorize_altered (hunforgeable : Unforgeable engine.platform issued)
    {altered : CapabilityToken} (hfresh : ∀ key, ¬ issued key altered) (branch : BranchId)
    (nowMs : U64) :
    engine.issuer.authorize engine.platform altered branch nowMs = .error .tokenForged := by
  have hrejected : engine.platform.verify (engine.platform.verifyingKey engine.issuer.signing)
      (canonical altered.claims) altered.signature = false := by
    by_contra hverified
    obtain ⟨token, hissued, hclaims, hsignature⟩ :=
      hunforgeable _ _ _ (Bool.not_eq_false _ ▸ hverified)
    have htoken : token = altered := by
      cases token
      cases altered
      simp only [CapabilityToken.mk.injEq]
      exact ⟨canonical_injective hclaims, hsignature⟩
    exact hfresh _ (htoken ▸ hissued)
  unfold TokenIssuer.authorize
  split
  · rfl
  · rw [hrejected]
    rfl

theorem read_altered (hunforgeable : Unforgeable engine.platform issued)
    {altered : CapabilityToken} (hfresh : ∀ key, ¬ issued key altered) (branch : BranchId)
    (key : Key) (loom : Loom σ ρ) :
    (engine.read altered branch key loom).1 = .error .tokenForged := by
  have hrejected : engine.admits loom altered branch = .error .tokenForged :=
    authorize_altered hunforgeable hfresh branch _
  rw [Engine.read, FallibleState.bind_eq, Engine.authorize_eq, hrejected]

end Reading

namespace Tenancy

variable {σ ρ : Type} {tenancy left right : Tenancy σ ρ}

/-- Every engine behind the router relies on the same signatures. -/
def Signed (tenancy : Tenancy σ ρ) (issued : Bytes → CapabilityToken → Prop) : Prop :=
  ∀ (tenant : TenantId) (engine : Engine σ ρ) (loom : Loom σ ρ),
    tenancy.engines[tenant]? = some (engine, loom) → Unforgeable engine.platform issued

theorem Signed.register {issued : Bytes → CapabilityToken → Prop}
    (hsigned : tenancy.Signed issued) {engine : Engine σ ρ}
    (hunforgeable : Unforgeable engine.platform issued) (tenant : TenantId) (loom : Loom σ ρ) :
    (tenancy.register tenant engine loom).Signed issued := by
  intro other found state hfound
  rw [Tenancy.register, OrderedMap.getElem?_insert] at hfound
  split at hfound
  · obtain ⟨rfl, -⟩ := Prod.mk.inj (Option.some.inj hfound)
    exact hunforgeable
  · exact hsigned other found state hfound

theorem read_of_engine {token : CapabilityToken} {engine : Engine σ ρ} {loom : Loom σ ρ}
    (hengine : tenancy.engines[token.claims.tenant]? = some (engine, loom)) (branch : BranchId)
    (key : Key) :
    (tenancy.read token branch key).1 = normalise (engine.read token branch key loom).1 := by
  simp only [read, engineFor, hengine]
  rfl

/-- Whether or not somebody is registered where it is sent. -/
theorem read_of_fresh {issued : Bytes → CapabilityToken → Prop} {altered : CapabilityToken}
    (hsigned : tenancy.Signed issued) (hfresh : ∀ key, ¬ issued key altered) (branch : BranchId) (key : Key) :
    (tenancy.read altered branch key).1 = .error .unauthorized := by
  cases hengine : tenancy.engines[altered.claims.tenant]? with
  | none => simp only [read, engineFor, hengine]
  | some found =>
      rw [read_of_engine hengine,
        read_altered (hsigned _ found.1 found.2 hengine) hfresh]
      rfl

/-- Two tenancies with the same engine for a tenant answer the tenant's tokens alike, and
refuse alike whatever is made of one of them. -/
theorem read_isolated {issued : Bytes → CapabilityToken → Prop} {tenant : TenantId}
    {engine : Engine σ ρ} {loom : Loom σ ρ} {token altered : CapabilityToken}
    (hleft : left.engines[tenant]? = some (engine, loom))
    (hright : right.engines[tenant]? = some (engine, loom))
    (hsignedLeft : left.Signed issued) (hsignedRight : right.Signed issued)
    (htenant : token.claims.tenant = tenant) (haltered : Altered issued token altered)
    (branch : BranchId) (key : Key) :
    (left.read token branch key).1 = (right.read token branch key).1 ∧
      (left.read altered branch key).1 = (right.read altered branch key).1 ∧
      (left.read altered branch key).1 = .error .unauthorized := by
  have hrefusedLeft := read_of_fresh hsignedLeft haltered.fresh branch key
  have hrefusedRight := read_of_fresh hsignedRight haltered.fresh branch key
  refine ⟨?_, hrefusedLeft.trans hrefusedRight.symm, hrefusedLeft⟩
  rw [read_of_engine (htenant ▸ hleft), read_of_engine (htenant ▸ hright)]

/-- The token of a session of the tenant `t`. -/
def sessionToken : CapabilityToken where
  claims := {
    tenant := ascii "t"
    session := ascii "s"
    scope := ExtTreeSet.ofList [MAIN] compare
    expiresAtMs := DEFAULT_SESSION_TTL_MS }
  signature := List.replicate 64 7

/-- The same token, sent to the tenant `u`. -/
def redirectedToken : CapabilityToken :=
  { sessionToken with claims := { sessionToken.claims with tenant := ascii "u" } }

/-- A platform on which one token has been issued. -/
def oneTokenPlatform : Platform :=
  { Platform.plain with
    verify := fun key message signature =>
      key == ascii "t" && message == canonical sessionToken.claims &&
        signature == sessionToken.signature }

/-- An engine of the tenant, whose name is its key. -/
def engineOf (tenant : TenantId) : Engine MemPager (Option Refs) :=
  { Engine.memoryEngine with
    platform := oneTokenPlatform
    issuer := { signing := tenant }
    tenant := tenant }

theorem oneTokenPlatform_unforgeable :
    Unforgeable oneTokenPlatform fun key token => key = ascii "t" ∧ token = sessionToken := by
  intro key message signature hverified
  simp only [oneTokenPlatform, Platform.plain, Bool.and_eq_true, beq_iff_eq] at hverified
  obtain ⟨⟨rfl, rfl⟩, rfl⟩ := hverified
  exact ⟨sessionToken, ⟨rfl, rfl⟩, rfl, rfl⟩

/-- It is refused whether the tenant `u` is there or not. -/
theorem read_isolated_redirected :
    let alone := (new : Tenancy MemPager (Option Refs)).register (ascii "t")
      (engineOf (ascii "t")) Engine.memoryLoom
    let beside := alone.register (ascii "u") (engineOf (ascii "u")) Engine.memoryLoom
    (alone.read redirectedToken MAIN (ascii "k")).1 =
        (beside.read redirectedToken MAIN (ascii "k")).1 ∧
      (alone.read redirectedToken MAIN (ascii "k")).1 = .error .unauthorized := by
  intro alone beside
  have halone : alone.engines[ascii "t"]? = some (engineOf (ascii "t"), Engine.memoryLoom) := by
    change (ExtTreeMap.insert ∅ (ascii "t") _)[ascii "t"]? = _
    rw [OrderedMap.getElem?_insert, if_pos rfl]
  have hbeside : beside.engines[ascii "t"]? = some (engineOf (ascii "t"), Engine.memoryLoom) := by
    change (ExtTreeMap.insert alone.engines (ascii "u") _)[ascii "t"]? = _
    rw [OrderedMap.getElem?_insert, if_neg (by decide), halone]
  have hnone : (new : Tenancy MemPager (Option Refs)).Signed fun key token =>
      key = ascii "t" ∧ token = sessionToken := fun _ _ _ hfound => by cases hfound
  have hsigned : alone.Signed _ :=
    hnone.register oneTokenPlatform_unforgeable (ascii "t") Engine.memoryLoom
  have haltered : Altered (fun key token => key = ascii "t" ∧ token = sessionToken) sessionToken
      redirectedToken := by
    have hclaims : redirectedToken.claims ≠ sessionToken.claims := fun heq =>
      absurd (congrArg TokenClaims.tenant heq) (by decide)
    exact ⟨Or.inl hclaims, fun key hissued => hclaims (congrArg CapabilityToken.claims hissued.2)⟩
  exact (read_isolated halone hbeside hsigned
    (hsigned.register oneTokenPlatform_unforgeable (ascii "u") Engine.memoryLoom) rfl haltered MAIN
    (ascii "k")).2

end Tenancy

end LoomDB
