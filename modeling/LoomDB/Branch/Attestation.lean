import LoomDB.Core.Describe
import LoomDB.Foundations.Framing
import LoomDB.Foundations.OrderedMap

/-!
# Actor registry attestations

Which actors may write, and under which keys, is fixed outside the database: governance signs
the fingerprint of the registry together with the tenant and a generation. The fingerprint is
the hash of the entries one after the other, without a count of them.
-/

namespace LoomDB

open Std (ExtTreeMap)

/-! ## The registry -/

/-- The bytes that `fingerprint_actor_key_map` hashes. -/
def actorKeyBytes (keys : ExtTreeMap ActorId Bytes) : Bytes :=
  ascii "loomdb-actor-key-registry-v1\x00" ++
    keys.toList.flatMap fun entry => lengthPrefixed 8 entry.1 ++ entry.2

def fingerprintActorKeyMap (platform : Platform) (keys : ExtTreeMap ActorId Bytes) : Bytes :=
  toHex (platform.blake3 (actorKeyBytes keys)).asBytes

def actorKeyFingerprint (platform : Platform) (keys : List (ActorId × Bytes)) : Bytes :=
  fingerprintActorKeyMap platform (ExtTreeMap.ofList keys compare)

/-- Every key is one of 32 bytes, and every name is one that memory holds. -/
def SizedKeys (keys : ExtTreeMap ActorId Bytes) : Prop :=
  ∀ (actor : ActorId) (key : Bytes), keys[actor]? = some key →
    actor.length < 256 ^ 8 ∧ key.length = 32

theorem entry_delimits :
    Delimits (fun entry : ActorId × Bytes => lengthPrefixed 8 entry.1 ++ entry.2) fun entry =>
      entry.1.length < 256 ^ 8 ∧ entry.2.length = 32 :=
  Delimits.pair (delimits_lengthPrefixed 8) (delimits_fixed 32)

/-- The hashed bytes tell the registry. -/
theorem actorKeyBytes_inj {left right : ExtTreeMap ActorId Bytes} (hleft : SizedKeys left)
    (hright : SizedKeys right) (heq : actorKeyBytes left = actorKeyBytes right) :
    left = right := by
  have hsized : ∀ {keys : ExtTreeMap ActorId Bytes}, SizedKeys keys → ∀ entry ∈ keys.toList,
      entry.1.length < 256 ^ 8 ∧ entry.2.length = 32 := by
    intro keys hkeys entry hentry
    exact hkeys entry.1 entry.2 (ExtTreeMap.mem_toList_iff_getElem?_eq_some.mp hentry)
  have hwritten : ∀ entry : ActorId × Bytes, entry.1.length < 256 ^ 8 ∧ entry.2.length = 32 →
      lengthPrefixed 8 entry.1 ++ entry.2 ≠ [] := by
    intro entry hentry hnil
    have hlength := hentry.2
    rw [(List.append_eq_nil_iff.mp hnil).2] at hlength
    cases hlength
  have hentries : left.toList = right.toList :=
    Delimits.flatMap_injective entry_delimits hwritten (hsized hleft) (hsized hright)
      (List.append_cancel_left heq)
  calc left = ExtTreeMap.ofList left.toList compare := (OrderedMap.ofList_toList left).symm
    _ = ExtTreeMap.ofList right.toList compare := by rw [hentries]
    _ = right := OrderedMap.ofList_toList right

/-! ## The attestation -/

/-- Evidence that governance authorises one generation of a registry. -/
structure ActorRegistryAttestation where
  tenant : TenantId
  generation : U64
  fingerprint : Bytes
  signature : Bytes
  deriving DecidableEq

def actorRegistryAttestationPayload (tenant : TenantId) (generation : U64)
    (fingerprint : Bytes) : Bytes :=
  ascii "loomdb-actor-registry-attestation-v1\x00" ++ lengthPrefixed 8 tenant ++
    leBytes 8 generation.val ++ lengthPrefixed 8 fingerprint

/-- The lengths are ones that eight bytes hold. -/
structure SizedAttestation (tenant : TenantId) (fingerprint : Bytes) : Prop where
  tenant : tenant.length < 256 ^ 8
  fingerprint : fingerprint.length < 256 ^ 8

/-- The attested bytes tell what is attested. -/
theorem actorRegistryAttestationPayload_inj {tenant tenant' : TenantId}
    {generation generation' : U64} {fingerprint fingerprint' : Bytes}
    (hsized : SizedAttestation tenant fingerprint) (hsized' : SizedAttestation tenant' fingerprint')
    (heq : actorRegistryAttestationPayload tenant generation fingerprint =
      actorRegistryAttestationPayload tenant' generation' fingerprint') :
    tenant = tenant' ∧ generation = generation' ∧ fingerprint = fingerprint' := by
  simp only [actorRegistryAttestationPayload, List.append_assoc] at heq
  have heq := List.append_cancel_left heq
  obtain ⟨htenant, heq⟩ := delimits_lengthPrefixed 8 hsized.tenant hsized'.tenant heq
  obtain ⟨hgeneration, heq⟩ := delimits_leBytes 8 generation.isLt generation'.isLt heq
  have hfingerprint :=
    Delimits.injective (delimits_lengthPrefixed 8) hsized.fingerprint hsized'.fingerprint heq
  exact ⟨htenant, Fin.ext hgeneration, hfingerprint⟩

namespace ActorRegistryAttestation

def signedBytes (attestation : ActorRegistryAttestation) : Bytes :=
  actorRegistryAttestationPayload attestation.tenant attestation.generation attestation.fingerprint

def issue (platform : Platform) (tenant : TenantId) (generation : U64)
    (keys : List (ActorId × Bytes)) (governanceKey : Bytes) : ActorRegistryAttestation :=
  let fingerprint := actorKeyFingerprint platform keys
  { tenant, generation, fingerprint
    signature := platform.sign governanceKey
      (actorRegistryAttestationPayload tenant generation fingerprint) }

/-- A refusal is the detail of an invalid security configuration. -/
def verify (platform : Platform) (attestation : ActorRegistryAttestation)
    (expectedTenant : TenantId) (actualFingerprint governanceKey : Bytes)
    (minimumGeneration : U64) : Except Bytes Unit :=
  if attestation.signature.length ≠ 64 then
    .error (ascii "actor registry governance signature has the wrong length")
  else if !platform.verifyStrict governanceKey attestation.signedBytes attestation.signature then
    .error (ascii "actor registry governance signature is invalid")
  else if attestation.tenant ≠ expectedTenant then
    .error (ascii "actor registry attestation tenant mismatch (expected " ++ expectedTenant ++
      ascii ", actual " ++ attestation.tenant ++ ascii ")")
  else if attestation.generation < minimumGeneration then
    .error (ascii "actor registry rollback refused (minimum generation " ++
      decimal minimumGeneration.val ++ ascii ", attested generation " ++
      decimal attestation.generation.val ++ ascii ")")
  else if attestation.fingerprint ≠ actualFingerprint then
    .error (ascii "actor key registry fingerprint mismatch (attested " ++
      attestation.fingerprint ++ ascii ", actual " ++ actualFingerprint ++ ascii ")")
  else .ok ()

theorem verify_eq_ok {platform : Platform} {attestation : ActorRegistryAttestation}
    {expectedTenant : TenantId} {actualFingerprint governanceKey : Bytes}
    {minimumGeneration : U64} :
    attestation.verify platform expectedTenant actualFingerprint governanceKey
        minimumGeneration = .ok () ↔
      attestation.signature.length = 64 ∧
        platform.verifyStrict governanceKey attestation.signedBytes attestation.signature = true ∧
        attestation.tenant = expectedTenant ∧ minimumGeneration ≤ attestation.generation ∧
        attestation.fingerprint = actualFingerprint := by
  simp only [verify]
  split
  · next hlength => exact ⟨nofun, fun haccepted => absurd haccepted.1 hlength⟩
  · next hlength =>
    split
    · next hbad => exact ⟨nofun, fun haccepted => by simp [haccepted.2.1] at hbad⟩
    · next hgood =>
      split
      · next htenant => exact ⟨nofun, fun haccepted => absurd haccepted.2.2.1 htenant⟩
      · next htenant =>
        split
        · next hfloor =>
          exact ⟨nofun, fun haccepted => absurd hfloor (Nat.not_lt.mpr haccepted.2.2.2.1)⟩
        · next hfloor =>
          split
          · next hfingerprint =>
            exact ⟨nofun, fun haccepted => absurd haccepted.2.2.2.2 hfingerprint⟩
          · next hfingerprint =>
            simp only [Decidable.not_not] at hlength htenant hfingerprint
            exact ⟨fun _ => ⟨hlength, by simpa using hgood, htenant, Nat.le_of_not_lt hfloor,
              hfingerprint⟩, fun _ => rfl⟩

end ActorRegistryAttestation

/-! ## What governance signed -/

/-- A registry of a tenant, as one generation of it. -/
structure AttestedRegistry where
  tenant : TenantId
  generation : U64
  keys : ExtTreeMap ActorId Bytes

namespace AttestedRegistry

structure Sized (registry : AttestedRegistry) : Prop where
  tenant : registry.tenant.length < 256 ^ 8
  keys : SizedKeys registry.keys

/-- What governance signs to authorise a registry. -/
def text (platform : Platform) (registry : AttestedRegistry) : Bytes :=
  actorRegistryAttestationPayload registry.tenant registry.generation
    (fingerprintActorKeyMap platform registry.keys)

theorem Sized.attestation {platform : Platform} {registry : AttestedRegistry}
    (hsized : registry.Sized) :
    SizedAttestation registry.tenant (fingerprintActorKeyMap platform registry.keys) where
  tenant := hsized.tenant
  fingerprint := by
    rw [fingerprintActorKeyMap, length_toHex, Digest.length_asBytes]
    decide

/-- Registries with one text are the same, unless their entries collide under the hash. -/
theorem text_inj {platform : Platform} {left right : AttestedRegistry} (hleft : left.Sized)
    (hright : right.Sized)
    (hcollision : platform.blake3 (actorKeyBytes left.keys) =
      platform.blake3 (actorKeyBytes right.keys) →
        actorKeyBytes left.keys = actorKeyBytes right.keys)
    (heq : left.text platform = right.text platform) : left = right := by
  obtain ⟨htenant, hgeneration, hfingerprint⟩ :=
    actorRegistryAttestationPayload_inj hleft.attestation hright.attestation heq
  have hhash := Digest.asBytes_injective (toHex_injective hfingerprint)
  have hkeys := actorKeyBytes_inj hleft.keys hright.keys (hcollision hhash)
  cases left
  cases right
  cases htenant
  cases hgeneration
  cases hkeys
  rfl

end AttestedRegistry

section Attested

variable {platform : Platform} {governanceKey : Bytes} {issued : AttestedRegistry → Prop}

/-- An attestation that is accepted for a registry was issued for it, at a generation that is
not below the floor. -/
theorem issued_of_verify
    (hunforgeable : AcceptsSigned (platform.verifyStrict governanceKey)
      (AttestedRegistry.text platform) issued)
    {attestation : ActorRegistryAttestation} {tenant : TenantId}
    {keys : ExtTreeMap ActorId Bytes} {minimumGeneration : U64}
    (htells : ∀ origin, issued origin → ∀ generation,
      origin.text platform = AttestedRegistry.text platform ⟨tenant, generation, keys⟩ →
        origin = ⟨tenant, generation, keys⟩)
    (hverify : attestation.verify platform tenant (fingerprintActorKeyMap platform keys)
      governanceKey minimumGeneration = .ok ()) :
    ∃ generation, minimumGeneration ≤ generation ∧ issued ⟨tenant, generation, keys⟩ := by
  obtain ⟨-, hgood, htenant, hfloor, hfingerprint⟩ :=
    ActorRegistryAttestation.verify_eq_ok.mp hverify
  refine ⟨attestation.generation, hfloor, ?_⟩
  have htext : attestation.signedBytes =
      AttestedRegistry.text platform ⟨tenant, attestation.generation, keys⟩ := by
    rw [ActorRegistryAttestation.signedBytes, htenant, hfingerprint]
    rfl
  rw [htext] at hgood
  exact hunforgeable.signed hgood fun origin horigin hsame =>
    htells origin horigin attestation.generation hsame

end Attested

/-- The hashed bytes tell the registry, the attested bytes the tenant, the generation and the
fingerprint, and an attestation is accepted for no other registry than the one it was issued
for. -/
theorem attestation_authorises :
    (∀ left right, SizedKeys left → SizedKeys right →
      actorKeyBytes left = actorKeyBytes right → left = right) ∧
    (∀ tenant generation fingerprint tenant' generation' fingerprint',
      SizedAttestation tenant fingerprint → SizedAttestation tenant' fingerprint' →
        actorRegistryAttestationPayload tenant generation fingerprint =
          actorRegistryAttestationPayload tenant' generation' fingerprint' →
        tenant = tenant' ∧ generation = generation' ∧ fingerprint = fingerprint') ∧
    ∀ (platform : Platform) governanceKey issued, AcceptsSigned (platform.verifyStrict governanceKey)
        (AttestedRegistry.text platform) issued →
      (∀ origin, issued origin → origin.Sized) →
      ∀ (attestation : ActorRegistryAttestation) tenant keys minimumGeneration,
        tenant.length < 256 ^ 8 → SizedKeys keys →
        (∀ origin, issued origin →
          platform.blake3 (actorKeyBytes origin.keys) = platform.blake3 (actorKeyBytes keys) →
            actorKeyBytes origin.keys = actorKeyBytes keys) →
        attestation.verify platform tenant (fingerprintActorKeyMap platform keys) governanceKey
          minimumGeneration = .ok () →
        ∃ generation, minimumGeneration ≤ generation ∧ issued ⟨tenant, generation, keys⟩ := by
  refine ⟨fun _ _ => actorKeyBytes_inj, fun _ _ _ _ _ _ => actorRegistryAttestationPayload_inj,
    ?_⟩
  intro platform governanceKey issued hunforgeable hissued attestation tenant keys
    minimumGeneration htenant hkeys hcollision hverify
  refine issued_of_verify hunforgeable (fun origin horigin generation heq => ?_) hverify
  exact AttestedRegistry.text_inj (hissued origin horigin) ⟨htenant, hkeys⟩
    (hcollision origin horigin) heq

/-! ## An attestation to evaluate -/

def agentKey : Bytes :=
  spelled "3d4017c3e843895a92b70aa74d1b7ebc9c982ccf2ec4968cc0cd55f12af4660c"

/-- Agent `a` may write for tenant `t`, in generation 3. -/
def soleAgent : AttestedRegistry where
  tenant := ascii "t"
  generation := 3
  keys := ExtTreeMap.ofList [(ascii "a", agentKey)] compare

theorem soleAgent_sized : soleAgent.Sized where
  tenant := by decide
  keys := by
    intro actor key hkey
    have hentry := ExtTreeMap.mem_toList_iff_getElem?_eq_some.mpr hkey
    have hentries : soleAgent.keys.toList = [(ascii "a", agentKey)] := by
      decide +kernel
    rw [hentries, List.mem_singleton] at hentry
    cases hentry
    exact ⟨by decide, by decide⟩

/-- The hash, as far as this registry goes. -/
def soleAgentHash : Platform :=
  { Platform.plain with
    blake3 := fun bytes =>
      if bytes = actorKeyBytes soleAgent.keys then
        Fin.ofNat (256 ^ 32) (beValue (spelled
          "c8705a0220da19e793ccab200b975bc3cb4f6547219b13f68bb051e6d504ee1e"))
      else Platform.plain.blake3 bytes }

def attestingKey : Bytes :=
  spelled "fc51cd8e6218a1a38da47ed00230f0580816ed13ba3303ac5deb911548908025"

/-- What the governance key makes of the text of the registry. -/
def soleAgentSignature : Bytes :=
  spelled ("2834ab999ae23b1f65407f43a68a0c78fa3690bfd18d4b98a3f0504f9a4634e8" ++
    "6c70a7c2df3d0fceecfd0f6b83d261de405dd918a68e0d4e7536ac5c6160310e")

/-- The hash and the curve, as far as this attestation goes. -/
def oneAttestation : Platform :=
  { soleAgentHash with
    verifyStrict := fun key message signature =>
      key = attestingKey && message = soleAgent.text soleAgentHash &&
        signature = soleAgentSignature }

theorem attestation_authorises_soleAgent :
    ∃ generation : U64, 2 ≤ generation ∧ ⟨ascii "t", generation, soleAgent.keys⟩ = soleAgent := by
  refine attestation_authorises.2.2 oneAttestation attestingKey
    (fun registry => registry = soleAgent) ?_ ?_ ⟨ascii "t", 3,
      fingerprintActorKeyMap oneAttestation soleAgent.keys, soleAgentSignature⟩ (ascii "t")
      soleAgent.keys 2 (by decide) ?_ ?_ ?_
  · intro claim signature haccepts
    have hgood := of_decide_eq_true
      (Bool.and_eq_true_iff.mp (Bool.and_eq_true_iff.mp haccepts).1).2
    exact ⟨soleAgent, rfl, hgood.symm⟩
  · rintro origin rfl
    exact soleAgent_sized
  · exact soleAgent_sized.keys
  · rintro origin rfl _
    rfl
  · decide +kernel

end LoomDB
