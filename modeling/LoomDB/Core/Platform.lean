import LoomDB.Core.Value

/-!
# Platform

The functions the engine takes from outside the repository: the hash, the
signature scheme, the wall clock, floating-point multiplication and the
formatting of floating-point numbers and quoted texts. The last two are those of
the standard library and stay parameters as well: they round products and look for
shortest decimals, and escape by tables of printable characters, and nothing here
depends on what they make of a value.
-/

namespace LoomDB

structure Platform where
  blake3 : Bytes → Digest
  /-- The verifying key of a signing key. -/
  verifyingKey : Bytes → Bytes
  sign : Bytes → Bytes → Bytes
  verify : Bytes → Bytes → Bytes → Bool
  verifyStrict : Bytes → Bytes → Bytes → Bool
  /-- `(value * 1_000_000.0) as u64`. -/
  micros : F64 → U64
  /-- What the `n`-th reading of the clock shows. -/
  nowMs : ℕ → U64
  /-- `{}` and `{:.2}` of a number, and `{:?}` of a text. -/
  showNumber : F64 → Bytes
  showFixed2 : F64 → Bytes
  showQuoted : Bytes → Bytes

/-- A platform whose functions can be evaluated: it accepts every signature of the
right length, and a text is its own rendering. -/
def Platform.plain : Platform where
  blake3 bytes := Fin.ofNat (256 ^ 32) (beValue bytes)
  verifyingKey key := key
  sign _ _ := List.replicate 64 0
  verify _ _ _ := true
  verifyStrict _ _ _ := true
  micros value := value.bits
  nowMs reading := Fin.ofNat (256 ^ 8) reading
  showNumber _ := ascii "0"
  showFixed2 _ := ascii "0.00"
  showQuoted text := text

end LoomDB
