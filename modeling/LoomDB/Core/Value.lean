import LoomDB.Foundations.OrderedMap
import LoomDB.Core.Error

/-!
# Records

The typed value model: observations, claims and plain values, with the labels
and intervals they carry, and their serialized layouts.
-/

namespace LoomDB

open Std

abbrev Key := Bytes

/-! ## Machine numbers -/

/-- `i64`. -/
structure I64 where
  val : ℤ
  lower : -2 ^ 63 ≤ val
  upper : val < 2 ^ 63
  deriving DecidableEq

namespace I64

@[ext]
theorem ext {left right : I64} (hval : left.val = right.val) : left = right := by
  cases left
  cases right
  simp_all

/-- The nearest representable integer. -/
def clamp (value : ℤ) : I64 where
  val := max (-2 ^ 63) (min value (2 ^ 63 - 1))
  lower := le_max_left _ _
  upper := by omega

def saturatingAdd (left right : I64) : I64 :=
  clamp (left.val + right.val)

def saturatingSub (left right : I64) : I64 :=
  clamp (left.val - right.val)

/-- `as u64`: two's complement. -/
def toU64 (value : I64) : U64 :=
  ⟨(value.val % 2 ^ 64).toNat, by omega⟩

/-- `as i64`. -/
def ofU64 (value : U64) : I64 where
  val := if value.val < 2 ^ 63 then value.val else value.val - 2 ^ 64
  lower := by split <;> omega
  upper := by
    have := value.isLt
    split <;> omega

theorem val_toU64 (value : I64) : value.toU64.val = (value.val % 2 ^ 64).toNat := rfl

theorem val_ofU64 (value : U64) : (ofU64 value).val =
    if value.val < 2 ^ 63 then (value.val : ℤ) else value.val - 2 ^ 64 := rfl

@[simp]
theorem ofU64_toU64 (value : I64) : ofU64 value.toU64 = value := by
  have hlower := value.lower
  have hupper := value.upper
  have hbits := value.val_toU64
  apply I64.ext
  rw [val_ofU64]
  split <;> omega

@[simp]
theorem toU64_ofU64 (value : U64) : (ofU64 value).toU64 = value := by
  have hbound := value.isLt
  have hval := val_ofU64 value
  apply Fin.ext
  rw [val_toU64]
  split at hval <;> omega

def zero : I64 := ⟨0, by decide, by decide⟩

def codec : Codec I64 :=
  Codec.u64.iso ofU64 toU64 ofU64_toU64

end I64

/-- `f64`, by its bits. -/
structure F64 where
  bits : U64
  deriving DecidableEq

namespace F64

/-- All exponent bits set and a mantissa bit. -/
def isNaN (value : F64) : Bool :=
  value.bits.val % 2 ^ 63 > 2047 * 2 ^ 52

def isZero (value : F64) : Bool :=
  value.bits.val % 2 ^ 63 = 0

/-- `==` on `f64`: NaN equals nothing, and the two zeros are equal. -/
def beq (left right : F64) : Bool :=
  !left.isNaN && !right.isNaN && (left = right || (left.isZero && right.isZero))

theorem beq_self {value : F64} (hnan : value.isNaN = false) : value.beq value = true := by
  simp [beq, hnan]

def codec : Codec F64 :=
  Codec.u64.iso F64.mk F64.bits fun _ => rfl

end F64

/-- `f32`, by its bits. -/
abbrev F32 := Fin (256 ^ 4)

namespace F32

def isNaN (value : F32) : Bool :=
  value.val % 2 ^ 31 > 255 * 2 ^ 23

/-- Where a number stands among the others: the highest bit is the sign, and the two zeros stand
in one place. -/
def rank (value : F32) : ℤ :=
  if value.val < 2 ^ 31 then (value.val : ℤ) else -((value.val - 2 ^ 31 : ℕ) : ℤ)

/-- `partial_cmp`: NaN does not compare. -/
def partialCmp (left right : F32) : Option Ordering :=
  if isNaN left || isNaN right then none else some (compare (rank left) (rank right))

end F32

/-! ## Labels, sources and time -/

/-- How far a source is trusted; the later, the more restrictive. -/
inductive TrustClass where
  | verifiedSystem
  | human
  | thirdParty
  | untrusted
  deriving DecidableEq

namespace TrustClass

def rank : TrustClass → Fin 4
  | .verifiedSystem => 0
  | .human => 1
  | .thirdParty => 2
  | .untrusted => 3

def ofRank : Fin 4 → TrustClass
  | 0 => .verifiedSystem
  | 1 => .human
  | 2 => .thirdParty
  | 3 => .untrusted

@[simp]
theorem ofRank_rank (trust : TrustClass) : ofRank trust.rank = trust := by
  cases trust <;> rfl

theorem rank_injective : Function.Injective rank :=
  Function.LeftInverse.injective ofRank_rank

/-- The derived order: declaration order. -/
instance : LinearOrder TrustClass :=
  LinearOrder.lift' rank rank_injective

def mostRestrictive (left right : TrustClass) : TrustClass :=
  max left right

def leastRestrictive : TrustClass :=
  .verifiedSystem

def codec : Codec TrustClass :=
  Codec.enum 4 4 (by decide) ofRank rank ofRank_rank

end TrustClass

structure SourceRef where
  system : Bytes
  recordId : Bytes
  deriving DecidableEq

namespace SourceRef

/-- `Display`: the two parts with a colon between them. -/
def toBytes (source : SourceRef) : Bytes :=
  source.system ++ ascii ":" ++ source.recordId

/-- The derived order: by system, then by record id. -/
instance : Ord SourceRef :=
  ⟨compareLex (compareOn system) (compareOn recordId)⟩

instance : TransOrd SourceRef :=
  inferInstanceAs (TransCmp (compareLex (compareOn system) (compareOn recordId)))

instance : LawfulEqOrd SourceRef where
  compare_self := ReflOrd.compare_self
  eq_of_compare {left right} heq := by
    obtain ⟨hsystem, hrecord⟩ := Ordering.then_eq_eq.mp heq
    have hsystem := LawfulEqOrd.eq_of_compare hsystem
    have hrecord := LawfulEqOrd.eq_of_compare hrecord
    cases left
    cases right
    simp_all

def codec : Codec SourceRef :=
  (Codec.pair Codec.bytes Codec.bytes).iso (fun ⟨system, recordId⟩ => ⟨system, recordId⟩)
    (fun source => (source.system, source.recordId)) fun _ => rfl

end SourceRef

abbrev Timestamp := U64

structure Interval where
  start : Option Timestamp
  stop : Option Timestamp
  deriving DecidableEq

namespace Interval

/-- A bound that is not known does not constrain. -/
def contains (interval : Interval) (instant : Timestamp) : Bool :=
  (interval.start.all fun start => start ≤ instant) &&
    interval.stop.all fun stop => instant < stop

def overlaps (left right : Interval) : Bool :=
  let leftStartsBeforeRightEnds :=
    match left.start, right.stop with
    | some start, some stop => start < stop
    | _, _ => true
  let rightStartsBeforeLeftEnds :=
    match right.start, left.stop with
    | some start, some stop => start < stop
    | _, _ => true
  leftStartsBeforeRightEnds && rightStartsBeforeLeftEnds

def closedAt (interval : Interval) (stop : Timestamp) : Interval :=
  { start := interval.start, stop := some stop }

def codec : Codec Interval :=
  (Codec.pair (Codec.option Codec.u64) (Codec.option Codec.u64)).iso
    (fun ⟨start, stop⟩ => ⟨start, stop⟩)
    (fun interval => (interval.start, interval.stop)) fun _ => rfl

end Interval

/-! ## Observations, claims and values -/

structure Observation where
  id : Digest
  source : SourceRef
  trust : TrustClass
  observedAt : Option Timestamp
  ingestedAt : Timestamp
  payload : Bytes
  deriving DecidableEq

def Observation.codec : Codec Observation :=
  (Codec.pair Codec.digest (Codec.pair SourceRef.codec (Codec.pair TrustClass.codec
    (Codec.pair (Codec.option Codec.u64) (Codec.pair Codec.u64 Codec.bytes))))).iso
    (fun ⟨id, source, trust, observedAt, ingestedAt, payload⟩ =>
      ⟨id, source, trust, observedAt, ingestedAt, payload⟩)
    (fun obs => (obs.id, obs.source, obs.trust, obs.observedAt, obs.ingestedAt, obs.payload))
    fun _ => rfl

inductive Method where
  | direct
  | rule
  | statistical
  | languageModel
  | human
  | imported
  deriving DecidableEq

namespace Method

/-- Higher is better evidence. -/
def rank : Method → ℕ
  | .direct => 5
  | .human => 4
  | .rule => 3
  | .statistical => 2
  | .imported => 1
  | .languageModel => 0

def toTag : Method → Fin 6
  | .direct => 0
  | .rule => 1
  | .statistical => 2
  | .languageModel => 3
  | .human => 4
  | .imported => 5

def ofTag : Fin 6 → Method
  | 0 => .direct
  | 1 => .rule
  | 2 => .statistical
  | 3 => .languageModel
  | 4 => .human
  | 5 => .imported

def codec : Codec Method :=
  Codec.enum 4 6 (by decide) ofTag toTag fun method => by cases method <;> rfl

end Method

structure Confidence where
  value : F64
  method : Method
  calibration : Bytes
  deriving DecidableEq

namespace Confidence

def beq (left right : Confidence) : Bool :=
  left.value.beq right.value && left.method = right.method &&
    left.calibration = right.calibration

def codec : Codec Confidence :=
  (Codec.pair F64.codec (Codec.pair Method.codec Codec.bytes)).iso
    (fun ⟨value, method, calibration⟩ => ⟨value, method, calibration⟩)
    (fun confidence => (confidence.value, confidence.method, confidence.calibration))
    fun _ => rfl

end Confidence

inductive ClaimStatus where
  | asserted
  | superseded
  | contradicted
  | stale
  | invalidated
  | expired
  deriving DecidableEq

namespace ClaimStatus

def toTag : ClaimStatus → Fin 6
  | .asserted => 0
  | .superseded => 1
  | .contradicted => 2
  | .stale => 3
  | .invalidated => 4
  | .expired => 5

def ofTag : Fin 6 → ClaimStatus
  | 0 => .asserted
  | 1 => .superseded
  | 2 => .contradicted
  | 3 => .stale
  | 4 => .invalidated
  | 5 => .expired

def codec : Codec ClaimStatus :=
  Codec.enum 4 6 (by decide) ofTag toTag fun status => by cases status <;> rfl

end ClaimStatus

inductive Value where
  | blob (bytes : Bytes)
  | counter (value : I64)
  | set (items : ExtTreeSet Bytes)
  | bool (value : Bool)
  | text (chars : Bytes)
  | number (value : F64)
  deriving DecidableEq

namespace Value

/-- The derived `==`. -/
def beq : Value → Value → Bool
  | .number left, .number right => left.beq right
  | left, right => left = right

def isNaN : Value → Bool
  | .number value => value.isNaN
  | _ => false

theorem beq_self {value : Value} (hnan : value.isNaN = false) : value.beq value = true := by
  cases value with
  | number value => exact F64.beq_self hnan
  | _ => simp [beq]

/-- The fields of each variant, in tag order. -/
abbrev Payload : Fin 6 → Type
  | 0 => Bytes
  | 1 => I64
  | 2 => ExtTreeSet Bytes
  | 3 => Bool
  | 4 => Bytes
  | 5 => F64

def payloadCodec : (tag : Fin 6) → Codec (Payload tag)
  | 0 => Codec.bytes
  | 1 => I64.codec
  | 2 => Codec.set Codec.bytes
  | 3 => Codec.bool
  | 4 => Codec.bytes
  | 5 => F64.codec

def ofPayload : (Σ tag, Payload tag) → Value
  | ⟨0, bytes⟩ => .blob bytes
  | ⟨1, value⟩ => .counter value
  | ⟨2, items⟩ => .set items
  | ⟨3, value⟩ => .bool value
  | ⟨4, chars⟩ => .text chars
  | ⟨5, value⟩ => .number value

def toPayload : Value → Σ tag, Payload tag
  | .blob bytes => ⟨0, bytes⟩
  | .counter value => ⟨1, value⟩
  | .set items => ⟨2, items⟩
  | .bool value => ⟨3, value⟩
  | .text chars => ⟨4, chars⟩
  | .number value => ⟨5, value⟩

def codec : Codec Value :=
  (Codec.tagged 4 6 (by decide) payloadCodec).iso ofPayload toPayload
    fun value => by cases value <;> rfl

end Value

structure Claim where
  id : Digest
  predicate : Bytes
  subject : Bytes
  object : Value
  valid : Interval
  known : Interval
  confidence : Confidence
  evidence : List SourceRef
  status : ClaimStatus
  policy : Option PolicyDecisionId
  actor : ActorId
  deriving DecidableEq

namespace Claim

/-- The derived `==`. -/
def beq (left right : Claim) : Bool :=
  left.id = right.id && left.predicate = right.predicate && left.subject = right.subject &&
    left.object.beq right.object && left.valid = right.valid && left.known = right.known &&
    left.confidence.beq right.confidence && left.evidence = right.evidence &&
    left.status = right.status && left.policy = right.policy && left.actor = right.actor

/-- A claim without evidence is stored and read, and authorises nothing. -/
def isActionEligible (claim : Claim) : Bool :=
  claim.evidence ≠ [] && claim.status = .asserted

def isNaN (claim : Claim) : Bool :=
  claim.object.isNaN || claim.confidence.value.isNaN

theorem beq_self {claim : Claim} (hnan : claim.isNaN = false) : claim.beq claim = true := by
  simp only [isNaN, Bool.or_eq_false_iff] at hnan
  simp [beq, Value.beq_self hnan.1, Confidence.beq, F64.beq_self hnan.2]

def codec : Codec Claim :=
  (Codec.pair Codec.digest (Codec.pair Codec.bytes (Codec.pair Codec.bytes
    (Codec.pair Value.codec (Codec.pair Interval.codec (Codec.pair Interval.codec
      (Codec.pair Confidence.codec (Codec.pair (Codec.list SourceRef.codec)
        (Codec.pair ClaimStatus.codec
          (Codec.pair (Codec.option Codec.bytes) Codec.bytes)))))))))).iso
    (fun ⟨id, predicate, subject, object, valid, known, confidence, evidence, status, policy,
      actor⟩ => ⟨id, predicate, subject, object, valid, known, confidence, evidence, status,
        policy, actor⟩)
    (fun claim => (claim.id, claim.predicate, claim.subject, claim.object, claim.valid,
      claim.known, claim.confidence, claim.evidence, claim.status, claim.policy, claim.actor))
    fun _ => rfl

end Claim

inductive Record where
  | observation (obs : Observation)
  | claim (fact : Claim)
  | value (plain : Value)
  deriving DecidableEq

namespace Record

/-- The derived `==`. -/
def beq : Record → Record → Bool
  | .observation left, .observation right => left = right
  | .claim left, .claim right => left.beq right
  | .value left, .value right => left.beq right
  | _, _ => false

/-- A number inside the record is NaN. -/
def isNaN : Record → Bool
  | .observation _ => false
  | .claim fact => fact.isNaN
  | .value plain => plain.isNaN

theorem beq_self {record : Record} (hnan : record.isNaN = false) :
    record.beq record = true := by
  cases record with
  | observation obs => simp [beq]
  | claim fact => exact Claim.beq_self hnan
  | value plain => exact Value.beq_self hnan

/-- The fields of each variant, in tag order. -/
abbrev Payload : Fin 3 → Type
  | 0 => Observation
  | 1 => Claim
  | 2 => Value

def payloadCodec : (tag : Fin 3) → Codec (Payload tag)
  | 0 => Observation.codec
  | 1 => Claim.codec
  | 2 => Value.codec

def ofPayload : (Σ tag, Payload tag) → Record
  | ⟨0, obs⟩ => .observation obs
  | ⟨1, fact⟩ => .claim fact
  | ⟨2, plain⟩ => .value plain

def toPayload : Record → Σ tag, Payload tag
  | .observation obs => ⟨0, obs⟩
  | .claim fact => ⟨1, fact⟩
  | .value plain => ⟨2, plain⟩

def codec : Codec Record :=
  (Codec.tagged 4 3 (by decide) payloadCodec).iso ofPayload toPayload
    fun record => by cases record <;> rfl

/-- The record holds opaque bytes. -/
def blob (bytes : Bytes) : Record :=
  .value (.blob bytes)

end Record

end LoomDB
