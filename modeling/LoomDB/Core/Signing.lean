import LoomDB.Core.Hex
import LoomDB.Foundations.Framing

/-!
# What a signature covers

The signed bytes of an envelope are its signed fields, one after the other, each delimiting
itself. A source is signed as its text, in which the colon does not tell where the system
ends, and the policy decision is not signed.
-/

namespace LoomDB

namespace WriteEnvelope

/-- Every length is one that eight bytes hold, as every length in memory is. -/
structure Sized (envelope : WriteEnvelope) : Prop where
  actor : envelope.actor.length < 256 ^ 8
  session : envelope.session.length < 256 ^ 8
  branch : envelope.branch.length < 256 ^ 8
  intent : envelope.intent.length < 256 ^ 8
  delegation : envelope.delegation.length < 256 ^ 8 ∧
    ∀ actor ∈ envelope.delegation, actor.length < 256 ^ 8
  derivedFrom : envelope.derivedFrom.length < 256 ^ 8 ∧
    ∀ source ∈ envelope.derivedFrom, source.toBytes.length < 256 ^ 8

/-- The envelopes agree on what is signed: on every field but the policy decision and the
signature, and on the sources as they are written out. -/
structure SameSigned (left right : WriteEnvelope) : Prop where
  actor : left.actor = right.actor
  session : left.session = right.session
  branch : left.branch = right.branch
  contextHash : left.contextHash = right.contextHash
  intent : left.intent = right.intent
  delegation : left.delegation = right.delegation
  derivedFrom : left.derivedFrom.map SourceRef.toBytes = right.derivedFrom.map SourceRef.toBytes

theorem field_delimits : Delimits field fun bytes => bytes.length < 256 ^ 8 :=
  delimits_lengthPrefixed 8

variable {left right : WriteEnvelope}

/-- The signed bytes tell the signed fields, and nothing else. -/
theorem signingBytes_eq_iff (hleft : left.Sized) (hright : right.Sized) :
    left.signingBytes = right.signingBytes ↔ SameSigned left right := by
  constructor
  · intro heq
    have hsources : ∀ envelope : WriteEnvelope,
        (envelope.derivedFrom.flatMap fun source => field source.toBytes) =
          (envelope.derivedFrom.map SourceRef.toBytes).flatMap field := by
      intro envelope
      rw [List.flatMap_map]
    have hhash : ∀ digest : Digest, digest.asBytes.length < 256 ^ 8 := by
      intro digest
      rw [Digest.length_asBytes]
      decide
    simp only [signingBytes, List.append_assoc, hsources] at heq
    obtain ⟨-, heq⟩ := field_delimits (by decide) (by decide) heq
    obtain ⟨hactor, heq⟩ := field_delimits hleft.actor hright.actor heq
    obtain ⟨hsession, heq⟩ := field_delimits hleft.session hright.session heq
    obtain ⟨hbranch, heq⟩ := field_delimits hleft.branch hright.branch heq
    obtain ⟨hcontext, heq⟩ := field_delimits (hhash _) (hhash _) heq
    obtain ⟨hintent, heq⟩ := field_delimits hleft.intent hright.intent heq
    rw [← List.append_assoc (leBytes 8 left.delegation.length),
      ← List.append_assoc (leBytes 8 right.delegation.length)] at heq
    obtain ⟨hdelegation, heq⟩ :=
      field_delimits.counted 8 hleft.delegation hright.delegation heq
    have hlast : ∀ envelope : WriteEnvelope, envelope.Sized →
        (envelope.derivedFrom.map SourceRef.toBytes).length < 256 ^ 8 ∧
          ∀ text ∈ envelope.derivedFrom.map SourceRef.toBytes, text.length < 256 ^ 8 := by
      intro envelope hsized
      refine ⟨by rw [List.length_map]; exact hsized.derivedFrom.1, fun text htext => ?_⟩
      obtain ⟨source, hsource, rfl⟩ := List.mem_map.mp htext
      exact hsized.derivedFrom.2 source hsource
    have hcount : ∀ envelope : WriteEnvelope, envelope.derivedFrom.length =
        (envelope.derivedFrom.map SourceRef.toBytes).length := fun envelope =>
      (List.length_map _).symm
    rw [hcount left, hcount right] at heq
    have htexts := Delimits.injective (field_delimits.counted 8) (hlast left hleft)
      (hlast right hright) heq
    exact {
      actor := hactor
      session := hsession
      branch := hbranch
      contextHash := Digest.asBytes_injective hcontext
      intent := hintent
      delegation := hdelegation
      derivedFrom := htexts }
  · rintro ⟨hactor, hsession, hbranch, hcontext, hintent, hdelegation, hderived⟩
    have hcount := congrArg List.length hderived
    rw [List.length_map, List.length_map] at hcount
    have hsources := congrArg (List.flatMap field) hderived
    rw [List.flatMap_map, List.flatMap_map] at hsources
    simp only [signingBytes, hactor, hsession, hbranch, hcontext, hintent, hdelegation, hcount]
    exact congrArg _ hsources

/-- The envelopes are signed apart: their signed bytes differ, and no signature is good for both. -/
def SignedApart (platform : Platform) (left right : WriteEnvelope) : Prop :=
  left.signingBytes ≠ right.signingBytes ∧ ∀ key signature,
    { left with signature := signature }.verify platform key = .ok () →
      { right with signature := signature }.verify platform key ≠ .ok ()

theorem verifyStrict_of_verify {platform : Platform} {envelope : WriteEnvelope} {key : Bytes}
    (hverify : envelope.verify platform key = .ok ()) :
    platform.verifyStrict key envelope.signingBytes envelope.signature = true := by
  unfold verify at hverify
  split at hverify
  · cases hverify
  · split at hverify
    · cases hverify
    · split at hverify
      · assumption
      · cases hverify

/-- Envelopes are signed apart exactly if a signed field tells them apart. -/
theorem signedApart_iff {platform : Platform}
    (hbinds : ∀ key message other signature, platform.verifyStrict key message signature = true →
      platform.verifyStrict key other signature = true → message = other)
    (hleft : left.Sized) (hright : right.Sized) :
    SignedApart platform left right ↔ ¬ SameSigned left right := by
  rw [← signingBytes_eq_iff hleft hright]
  constructor
  · exact And.left
  · intro hne
    refine ⟨hne, fun key signature hgood hother => hne ?_⟩
    exact hbinds key _ _ signature (verifyStrict_of_verify hgood) (verifyStrict_of_verify hother)

/-! ## Envelopes to evaluate -/

/-- What agent `a` signed. -/
def paidInvoice : WriteEnvelope :=
  { WriteEnvelope.new (ascii "a") (ascii "s") (ascii "main") (ascii "pay") with
    derivedFrom := [{ system := ascii "erp", recordId := ascii "eu:7" }] }

/-- The key of agent `a`. -/
def payerKey : Bytes :=
  spelled "3d4017c3e843895a92b70aa74d1b7ebc9c982ccf2ec4968cc0cd55f12af4660c"

/-- What the key makes of the signed bytes. -/
def paidSignature : Bytes :=
  spelled ("2704b4a2a98d195a097f239a5176693852525cbdd6905a38c086e581fb293b7a" ++
    "da7bbc1714703f0ffe0f0557691d5245a170a1698791dac9b8dce7efb5903405")

/-- The curve, as far as this signature goes. -/
def oneSignature : Platform :=
  { Platform.plain with
    verifyStrict := fun key message signature =>
      key = payerKey ∧ message = paidInvoice.signingBytes ∧ signature = paidSignature }

/-- The signature is good for what was signed, and none is good for that and for another intent. -/
theorem signedApart_intent :
    { paidInvoice with signature := paidSignature }.verify oneSignature payerKey = .ok () ∧
      SignedApart oneSignature paidInvoice { paidInvoice with intent := ascii "refund" } := by
  refine ⟨by decide +kernel, (signedApart_iff ?_ ?_ ?_).mpr fun hsame =>
    absurd hsame.intent (by decide)⟩
  · intro key message other signature hgood hother
    have hgood := of_decide_eq_true hgood
    have hother := of_decide_eq_true hother
    exact hgood.2.1.trans hother.2.1.symm
  · constructor <;> decide
  · constructor <;> decide

/-- The policy decision can be exchanged, and a source for another with the same text. -/
theorem not_signedApart_policy :
    let exchanged : WriteEnvelope := { paidInvoice with policy := some (ascii "d") }
    let renamed : WriteEnvelope :=
      { paidInvoice with derivedFrom := [{ system := ascii "erp:eu", recordId := ascii "7" }] }
    exchanged.policy ≠ paidInvoice.policy ∧ ¬ SignedApart oneSignature paidInvoice exchanged ∧
      renamed.derivedFrom ≠ paidInvoice.derivedFrom ∧
      ¬ SignedApart oneSignature paidInvoice renamed :=
  ⟨by decide, fun hapart => hapart.1 rfl, by decide, fun hapart => hapart.1 (by decide)⟩

end WriteEnvelope

end LoomDB
