import Mathlib.Data.List.Basic
import Mathlib.Data.List.Lex
import Mathlib.Order.Fin.Basic
import Mathlib.Algebra.Order.Ring.Nat
import Mathlib.Tactic.Ring
import Mathlib.Tactic.Linarith

/-!
# Byte strings and fixed-width integers

Every key, name and payload of the store is a byte string, compared bytewise.
This module fixes that representation and the little- and big-endian layouts
of the fixed-width integers that the keys, frames and encodings contain.
-/

namespace LoomDB

abbrev Byte := Fin 256
abbrev Bytes := List Byte

/-! The instances below are found by their names, and not by a search, wherever an
integer of fixed width or a byte string stands. -/

instance neZero2 : NeZero (2 : ℕ) := ⟨by decide⟩
instance neZero256 : NeZero (256 : ℕ) := ⟨by decide⟩
instance neZero256Pow4 : NeZero (256 ^ 4 : ℕ) := ⟨by decide⟩
instance neZero256Pow8 : NeZero (256 ^ 8 : ℕ) := ⟨by decide⟩
instance neZero256Pow32 : NeZero (256 ^ 32 : ℕ) := ⟨by decide⟩

instance Byte.lawfulBEq : LawfulBEq Byte := inferInstance
instance Bytes.lawfulBEq : LawfulBEq Bytes := inferInstance

/-- The bytes of an ASCII literal. -/
def ascii (text : String) : Bytes :=
  text.toList.map fun char => Fin.ofNat 256 char.toNat

/-- `to_le_bytes` of an integer of `width` bytes; higher digits are cut off, as
an `as` cast does. -/
def leBytes : ℕ → ℕ → Bytes
  | 0, _ => []
  | width + 1, value => Fin.ofNat 256 value :: leBytes width (value / 256)

/-- `from_le_bytes`. -/
def leValue : Bytes → ℕ
  | [] => 0
  | byte :: bytes => byte.val + 256 * leValue bytes

/-- `to_be_bytes`. -/
def beBytes (width value : ℕ) : Bytes :=
  (leBytes width value).reverse

/-- `from_be_bytes`. -/
def beValue (bytes : Bytes) : ℕ :=
  leValue bytes.reverse

@[simp]
theorem length_leBytes (width value : ℕ) :
    (leBytes width value).length = width := by
  induction width generalizing value with
  | zero => rfl
  | succ width ih => simp [leBytes, ih]

@[simp]
theorem length_beBytes (width value : ℕ) :
    (beBytes width value).length = width := by
  simp [beBytes]

theorem leValue_leBytes {width value : ℕ} (hbound : value < 256 ^ width) :
    leValue (leBytes width value) = value := by
  induction width generalizing value with
  | zero =>
      have hzero : value = 0 := by simpa using hbound
      simp [leBytes, leValue, hzero]
  | succ width ih =>
      have hquotient : value / 256 < 256 ^ width := by
        apply Nat.div_lt_of_lt_mul
        rwa [pow_succ, Nat.mul_comm] at hbound
      simp only [leBytes, leValue, ih hquotient, Fin.val_ofNat]
      omega

theorem leValue_lt (bytes : Bytes) : leValue bytes < 256 ^ bytes.length := by
  induction bytes with
  | nil => simp [leValue]
  | cons byte bytes ih =>
      have hbyte := byte.isLt
      simp only [leValue, List.length_cons, pow_succ]
      omega

theorem beValue_beBytes {width value : ℕ} (hbound : value < 256 ^ width) :
    beValue (beBytes width value) = value := by
  simpa [beValue, beBytes] using leValue_leBytes hbound

theorem beValue_lt (bytes : Bytes) : beValue bytes < 256 ^ bytes.length := by
  simpa [beValue] using leValue_lt bytes.reverse

/-- Two integers that fit the width have the same big-endian bytes only if they
are equal. -/
theorem beBytes_inj {width left right : ℕ} (hleft : left < 256 ^ width)
    (hright : right < 256 ^ width)
    (heq : beBytes width left = beBytes width right) : left = right := by
  have hvalue := congrArg beValue heq
  rwa [beValue_beBytes hleft, beValue_beBytes hright] at hvalue

theorem leBytes_leValue (bytes : Bytes) : leBytes bytes.length (leValue bytes) = bytes := by
  induction bytes with
  | nil => rfl
  | cons byte bytes ih =>
      have hbyte := byte.isLt
      have hrest : (byte.val + 256 * leValue bytes) / 256 = leValue bytes := by omega
      rw [List.length_cons, leBytes, leValue, hrest, ih]
      congr 1
      apply Fin.ext
      rw [Fin.val_ofNat]
      omega

theorem beBytes_beValue (bytes : Bytes) : beBytes bytes.length (beValue bytes) = bytes := by
  rw [beBytes, beValue, ← List.length_reverse, leBytes_leValue, List.reverse_reverse]

/-! ## Byte order -/

theorem leValue_append (left right : Bytes) :
    leValue (left ++ right) = leValue left + 256 ^ left.length * leValue right := by
  induction left with
  | nil => simp [leValue]
  | cons byte left ih =>
      rw [List.cons_append, leValue, leValue, ih, List.length_cons, pow_succ]
      ring

theorem beValue_cons (byte : Byte) (bytes : Bytes) :
    beValue (byte :: bytes) = beValue bytes + 256 ^ bytes.length * byte.val := by
  simp only [beValue, List.reverse_cons, leValue_append, leValue, List.length_reverse]
  ring

/-- Byte strings of one length are in the order of the integers they spell, the big end first. -/
theorem lt_iff_beValue_lt {left right : Bytes} (hlength : left.length = right.length) :
    left < right ↔ beValue left < beValue right := by
  induction left generalizing right with
  | nil =>
      obtain rfl := List.length_eq_zero_iff.mp hlength.symm
      simp
  | cons first left ih =>
      cases right with
      | nil => cases hlength
      | cons second right =>
          have hrest : left.length = right.length := Nat.succ.inj hlength
          have hleft := beValue_lt left
          have hright := beValue_lt right
          rw [List.cons_lt_cons_iff, ih hrest, beValue_cons, beValue_cons]
          rw [hrest] at hleft ⊢
          -- A smaller first byte outweighs whatever follows it.
          rcases lt_trichotomy first second with hlt | rfl | hgt
          · have hstep : 256 ^ right.length * (first.val + 1) ≤ 256 ^ right.length * second.val :=
              Nat.mul_le_mul_left _ hlt
            rw [Nat.mul_add, Nat.mul_one] at hstep
            simp only [hlt, true_or, true_iff]
            omega
          · simp
          · have hstep : 256 ^ right.length * (second.val + 1) ≤ 256 ^ right.length * first.val :=
              Nat.mul_le_mul_left _ hgt
            rw [Nat.mul_add, Nat.mul_one] at hstep
            simp only [hgt.not_gt, hgt.ne', false_and, or_self, false_iff]
            omega

theorem beBytes_lt_iff {width left right : ℕ} (hleft : left < 256 ^ width)
    (hright : right < 256 ^ width) : beBytes width left < beBytes width right ↔ left < right := by
  rw [lt_iff_beValue_lt (by rw [length_beBytes, length_beBytes]), beValue_beBytes hleft,
    beValue_beBytes hright]

/-- What stands in front of both does not decide. -/
theorem append_lt_append_iff (front : Bytes) {left right : Bytes} :
    front ++ left < front ++ right ↔ left < right := by
  induction front with
  | nil => rfl
  | cons byte front ih => simp [ih]

/-! ## 32-byte identifiers -/

/-- A 32-byte identifier. Its numeric order is the bytewise order of its
big-endian bytes. -/
abbrev Digest := Fin (256 ^ 32)

instance Digest.lawfulBEq : LawfulBEq Digest := inferInstance
instance Digest.lawfulBEqList : LawfulBEq (List Digest) := inferInstance

/-- `as_bytes` of a 32-byte identifier. -/
def Digest.asBytes (digest : Digest) : Bytes :=
  beBytes 32 digest.val

/-- `from_bytes`: only a string of exactly 32 bytes is an identifier. -/
def Digest.fromBytes (bytes : Bytes) : Option Digest :=
  if h : bytes.length = 32 then some ⟨beValue bytes, h ▸ beValue_lt bytes⟩
  else none

@[simp]
theorem Digest.length_asBytes (digest : Digest) : digest.asBytes.length = 32 :=
  length_beBytes 32 digest.val

@[simp]
theorem Digest.fromBytes_asBytes (digest : Digest) :
    Digest.fromBytes digest.asBytes = some digest := by
  have hvalue : beValue digest.asBytes = digest.val :=
    beValue_beBytes digest.isLt
  simp [Digest.fromBytes, hvalue]

theorem Digest.asBytes_injective : Function.Injective Digest.asBytes := by
  intro left right heq
  have hparsed := congrArg Digest.fromBytes heq
  simpa using hparsed

/-- Every 32 bytes are those of an identifier. -/
theorem Digest.exists_asBytes {bytes : Bytes} (hlength : bytes.length = 32) :
    ∃ digest : Digest, digest.asBytes = bytes := by
  refine ⟨⟨beValue bytes, hlength ▸ beValue_lt bytes⟩, ?_⟩
  change beBytes 32 (beValue bytes) = bytes
  rw [← hlength, beBytes_beValue]

end LoomDB
