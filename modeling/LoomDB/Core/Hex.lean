import LoomDB.Core.Envelope

/-!
# Hexadecimal

Keys, signatures and ids as texts.
-/

namespace LoomDB

/-! ## To texts -/

def hexChar (nibble : ℕ) : Byte :=
  Fin.ofNat 256 (if nibble < 10 then 0x30 + nibble else 0x57 + nibble)

/-- `to_hex`. -/
def toHex (bytes : Bytes) : Bytes :=
  bytes.flatMap fun byte => [hexChar (byte.val / 16), hexChar (byte.val % 16)]

example : toHex [0x0F, 0xA9] = ascii "0fa9" := by decide

theorem length_toHex (bytes : Bytes) : (toHex bytes).length = bytes.length * 2 := by
  induction bytes with
  | nil => rfl
  | cons byte bytes ih =>
      have hstep : toHex (byte :: bytes) =
          hexChar (byte.val / 16) :: hexChar (byte.val % 16) :: toHex bytes := rfl
      rw [hstep, List.length_cons, List.length_cons, ih, List.length_cons]
      omega

theorem toHex_injective : Function.Injective toHex := by
  intro left
  induction left with
  | nil =>
      intro right heq
      cases right with
      | nil => rfl
      | cons _ _ => cases heq
  | cons byte left ih =>
      intro right heq
      cases right with
      | nil => cases heq
      | cons other right =>
          obtain ⟨hhigh, hrest⟩ := List.cons.inj heq
          obtain ⟨hlow, hrest⟩ := List.cons.inj hrest
          have hdigit : ∀ first < 16, ∀ second < 16, hexChar first = hexChar second →
              first = second := by decide
          have hhigh := hdigit _ (by omega) _ (by omega) hhigh
          have hlow := hdigit _ (by omega) _ (by omega) hlow
          rw [ih hrest, Fin.ext (by omega : byte.val = other.val)]

/-! ## From texts -/

/-- Drop the white-space characters from the end of a reversed text. -/
def trimReversed : Bytes → Bytes
  | 0x85 :: 0xC2 :: rest => trimReversed rest
  | 0xA0 :: 0xC2 :: rest => trimReversed rest
  | 0x80 :: 0x9A :: 0xE1 :: rest => trimReversed rest
  | 0x9F :: 0x81 :: 0xE2 :: rest => trimReversed rest
  | 0x80 :: 0x80 :: 0xE3 :: rest => trimReversed rest
  | byte :: 0x80 :: 0xE2 :: rest =>
      if (0x80 ≤ byte ∧ byte ≤ 0x8A) ∨ byte = 0xA8 ∨ byte = 0xA9 ∨ byte = 0xAF then
        trimReversed rest
      else byte :: 0x80 :: 0xE2 :: rest
  | byte :: rest =>
      if (0x09 ≤ byte ∧ byte ≤ 0x0D) ∨ byte = 0x20 then trimReversed rest else byte :: rest
  | [] => []

def trim (text : Bytes) : Bytes :=
  (trimReversed (WriteEnvelope.trimStart text).reverse).reverse

def hexDigit (byte : Byte) : Option Byte :=
  if 0x30 ≤ byte ∧ byte ≤ 0x39 then some (byte - 0x30)
  else if 0x41 ≤ byte ∧ byte ≤ 0x46 then some (byte - 0x41 + 10)
  else if 0x61 ≤ byte ∧ byte ≤ 0x66 then some (byte - 0x61 + 10)
  else none

def hexPairs : Bytes → Option Bytes
  | high :: low :: rest => do
      let high ← hexDigit high
      let low ← hexDigit low
      let bytes ← hexPairs rest
      return (16 * high + low) :: bytes
  | [] => some []
  | [_] => none

/-- The bytes of a written-out key, signature or digest. -/
def spelled (text : String) : Bytes :=
  (hexPairs (ascii text)).getD []

/-- Exactly so many bytes, with white space around them. -/
def decodeHex (width : ℕ) (text : Bytes) : Option Bytes :=
  if (trim text).length ≠ width * 2 then none else hexPairs (trim text)

example : decodeHex 2 (ascii "00fF\n") = some [0x00, 0xFF] := by decide

theorem length_hexPairs {text bytes : Bytes} (hpairs : hexPairs text = some bytes) :
    text.length = bytes.length * 2 := by
  fun_induction hexPairs text generalizing bytes with
  | case1 high low rest ih =>
      simp only [Option.bind_eq_bind, Option.bind_eq_some_iff, Option.pure_def,
        Option.some.injEq] at hpairs
      obtain ⟨_, _, _, _, tail, htail, rfl⟩ := hpairs
      rw [List.length_cons, List.length_cons, List.length_cons, ih htail]
      omega
  | case2 => cases hpairs; rfl
  | case3 => cases hpairs

/-- What is decoded has the width that was asked for. -/
theorem length_decodeHex {width : ℕ} {text bytes : Bytes}
    (hdecoded : decodeHex width text = some bytes) : bytes.length = width := by
  unfold decodeHex at hdecoded
  split at hdecoded
  · cases hdecoded
  · next hlength =>
    have hpairs := length_hexPairs hdecoded
    omega

end LoomDB
