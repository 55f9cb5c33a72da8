import LoomDB.Core.Hex
import LoomDB.Core.Platform

/-!
# Descriptions of records

The one-line descriptions a merge conflict report is made of.
-/

namespace LoomDB

/-- A text in decimal. -/
def decimal (value : ℕ) : Bytes :=
  ascii (toString value)

/-- `str::from_utf8`: whether the bytes are a text. -/
def isUtf8 : Bytes → Bool
  | [] => true
  | first :: rest =>
      let continues (byte : Byte) : Bool := 0x80 ≤ byte && byte ≤ 0xBF
      if first < 0x80 then isUtf8 rest
      else if 0xC2 ≤ first && first ≤ 0xDF then
        match rest with
        | second :: rest => continues second && isUtf8 rest
        | [] => false
      else if 0xE0 ≤ first && first ≤ 0xEF then
        match rest with
        | second :: third :: rest =>
            continues second && continues third && (first ≠ 0xE0 || 0xA0 ≤ second) &&
              (first ≠ 0xED || second ≤ 0x9F) && isUtf8 rest
        | _ => false
      else if 0xF0 ≤ first && first ≤ 0xF4 then
        match rest with
        | second :: third :: fourth :: rest =>
            continues second && continues third && continues fourth &&
              (first ≠ 0xF0 || 0x90 ≤ second) && (first ≠ 0xF4 || second ≤ 0x8F) && isUtf8 rest
        | _ => false
      else false

/-- Texts one after the other are a text. -/
theorem isUtf8_append {text rest : Bytes} (htext : isUtf8 text = true)
    (hrest : isUtf8 rest = true) : isUtf8 (text ++ rest) = true := by
  induction text using isUtf8.induct with
  | case1 => exact hrest
  | case2 first text hascii ih =>
      rw [isUtf8.eq_def] at htext
      rw [List.cons_append, isUtf8.eq_def]
      simp only [hascii, if_true] at htext ⊢
      exact ih htext
  | case3 first hascii htwo second text ih =>
      rw [isUtf8.eq_def] at htext
      rw [List.cons_append, List.cons_append, isUtf8.eq_def]
      simp only [hascii, htwo, if_true, if_false, Bool.and_eq_true] at htext ⊢
      exact ⟨htext.1, ih htext.2⟩
  | case4 first hascii htwo =>
      rw [isUtf8.eq_def] at htext
      simp only [hascii, htwo, Bool.false_eq_true, if_true, if_false] at htext
  | case5 first hascii htwo hthree second third text ih =>
      rw [isUtf8.eq_def] at htext
      rw [List.cons_append, List.cons_append, List.cons_append, isUtf8.eq_def]
      simp only [hascii, htwo, hthree, Bool.false_eq_true, if_true, if_false,
        Bool.and_eq_true] at htext ⊢
      exact ⟨htext.1, ih htext.2⟩
  | case6 first text hascii htwo hthree hshort =>
      rw [isUtf8.eq_def] at htext
      simp only [hascii, htwo, hthree, Bool.false_eq_true, if_true, if_false] at htext
  | case7 first hascii htwo hthree hfour second third fourth text ih =>
      rw [isUtf8.eq_def] at htext
      rw [List.cons_append, List.cons_append, List.cons_append, List.cons_append, isUtf8.eq_def]
      simp only [hascii, htwo, hthree, hfour, Bool.false_eq_true, if_true, if_false,
        Bool.and_eq_true] at htext ⊢
      exact ⟨htext.1, ih htext.2⟩
  | case8 first text hascii htwo hthree hfour hshort =>
      rw [isUtf8.eq_def] at htext
      simp only [hascii, htwo, hthree, hfour, Bool.false_eq_true, if_true, if_false] at htext
  | case9 first text hascii htwo hthree hfour =>
      rw [isUtf8.eq_def] at htext
      simp only [hascii, htwo, hthree, hfour, Bool.false_eq_true, if_false] at htext

/-- The bytes at the front that make one character, or how many of them belong to
none. -/
def frontChar : Bytes → Bool × ℕ
  | [] => (false, 0)
  | first :: rest =>
      let continues (byte : Byte) : Bool := 0x80 ≤ byte && byte ≤ 0xBF
      if first < 0x80 then (true, 1)
      else if 0xC2 ≤ first && first ≤ 0xDF then
        match rest with
        | second :: _ => if continues second then (true, 2) else (false, 1)
        | [] => (false, 1)
      else if 0xE0 ≤ first && first ≤ 0xEF then
        let starts (second : Byte) : Bool :=
          continues second && (first ≠ 0xE0 || 0xA0 ≤ second) && (first ≠ 0xED || second ≤ 0x9F)
        match rest with
        | second :: third :: _ =>
            if !starts second then (false, 1)
            else if continues third then (true, 3)
            else (false, 2)
        | [second] => (false, if starts second then 2 else 1)
        | [] => (false, 1)
      else if 0xF0 ≤ first && first ≤ 0xF4 then
        let starts (second : Byte) : Bool :=
          continues second && (first ≠ 0xF0 || 0x90 ≤ second) && (first ≠ 0xF4 || second ≤ 0x8F)
        match rest with
        | second :: third :: fourth :: _ =>
            if !starts second then (false, 1)
            else if !continues third then (false, 2)
            else if continues fourth then (true, 4)
            else (false, 3)
        | [second, third] =>
            (false, if !starts second then 1 else if continues third then 3 else 2)
        | [second] => (false, if starts second then 2 else 1)
        | [] => (false, 1)
      else (false, 1)

/-- The replacement character. -/
def replacement : Bytes := [0xEF, 0xBF, 0xBD]

def lossyFrom : ℕ → Bytes → Bytes
  | 0, _ => []
  | _ + 1, [] => []
  | fuel + 1, bytes =>
      let (valid, len) := frontChar bytes
      (if valid then bytes.take len else replacement) ++ lossyFrom fuel (bytes.drop len)

/-- `String::from_utf8_lossy`. -/
def utf8Lossy (bytes : Bytes) : Bytes :=
  lossyFrom bytes.length bytes

example : utf8Lossy [0x61, 0xE2, 0x82, 0xFF, 0xC3, 0xA9] =
    [0x61] ++ replacement ++ replacement ++ [0xC3, 0xA9] := by decide

/-- `&text[..stop]`: a cut inside a character panics. -/
def sliceTo (stop : ℕ) (text : Bytes) : Except LoomError Bytes :=
  match text[stop]? with
  | some byte => if 0x80 ≤ byte ∧ byte ≤ 0xBF then .error .panicked else .ok (text.take stop)
  | none => if stop = text.length then .ok text else .error .panicked

namespace TrustClass

/-- `{:?}`. -/
def debug : TrustClass → Bytes
  | .verifiedSystem => ascii "VerifiedSystem"
  | .human => ascii "Human"
  | .thirdParty => ascii "ThirdParty"
  | .untrusted => ascii "Untrusted"

end TrustClass

namespace Method

/-- `{:?}`. -/
def debug : Method → Bytes
  | .direct => ascii "Direct"
  | .rule => ascii "Rule"
  | .statistical => ascii "Statistical"
  | .languageModel => ascii "LanguageModel"
  | .human => ascii "Human"
  | .imported => ascii "Imported"

end Method

namespace ClaimStatus

/-- `{:?}`. -/
def debug : ClaimStatus → Bytes
  | .asserted => ascii "Asserted"
  | .superseded => ascii "Superseded"
  | .contradicted => ascii "Contradicted"
  | .stale => ascii "Stale"
  | .invalidated => ascii "Invalidated"
  | .expired => ascii "Expired"

end ClaimStatus

/-- `Display` of a claim id. -/
def showClaimId (id : Digest) : Bytes :=
  ascii "clm_" ++ (toHex id.asBytes).take 12

/-- Why a claim cannot justify an action. -/
def Claim.ineligibilityReason (claim : Claim) : Option Bytes :=
  if claim.evidence = [] then
    some (ascii "claim " ++ showClaimId claim.id ++
      ascii (" is unsupported (it cites no evidence) and cannot justify an action. " ++
        "Cite the observations it was derived from, or re-derive it."))
  else
    match claim.status with
    | .asserted => none
    | .stale =>
        some (ascii "claim " ++ showClaimId claim.id ++
          ascii (" is STALE: evidence it depends on was invalidated. " ++
            "Re-derive it before citing it to justify an action."))
    | other =>
        some (ascii "claim " ++ showClaimId claim.id ++ ascii " is " ++ other.debug ++
          ascii " and cannot justify an action.")

theorem Claim.ineligibilityReason_eq_none {claim : Claim} :
    claim.ineligibilityReason = none ↔ claim.isActionEligible = true := by
  unfold Claim.ineligibilityReason Claim.isActionEligible
  by_cases hevidence : claim.evidence = []
  · simp [hevidence]
  · cases hstatus : claim.status <;> simp [hevidence]

variable (platform : Platform)

/-- The three bytes of the ellipsis. -/
def ellipsis : Bytes := [0xE2, 0x80, 0xA6]

def Value.describe : Value → Except LoomError Bytes
  | .blob bytes => .ok (decimal bytes.length ++ ascii " bytes of opaque data")
  | .counter value =>
      .ok (ascii "counter = " ++ (if value.val < 0 then ascii "-" else []) ++
        decimal value.val.natAbs)
  | .set items => .ok (ascii "set of " ++ decimal items.size ++ ascii " items")
  | .bool value => .ok (ascii (if value then "true" else "false"))
  | .text chars =>
      if chars.length ≤ 60 then .ok (platform.showQuoted chars)
      else (sliceTo 60 chars).map fun start =>
        platform.showQuoted start ++ ellipsis ++ ascii " (" ++ decimal chars.length ++
          ascii " chars)"
  | .number value => .ok (platform.showNumber value)

def Record.describe : Record → Except LoomError Bytes
  | .observation obs =>
      .ok (ascii "observation from " ++ obs.source.toBytes ++ ascii " (trust: " ++
        obs.trust.debug ++ ascii ")")
  | .claim fact =>
      (fact.object.describe platform).map fun object =>
        ascii "claim " ++ platform.showQuoted fact.predicate ++ ascii " about " ++
          platform.showQuoted fact.subject ++ ascii " = " ++ object ++ ascii " (method: " ++
          fact.confidence.method.debug ++ ascii ", confidence " ++
          platform.showFixed2 fact.confidence.value ++ ascii ", " ++
          decimal fact.evidence.length ++ ascii " evidence item(s), " ++ fact.status.debug ++
          ascii ")"
  | .value plain => plain.describe platform

end LoomDB
