import LoomDB.Foundations.Bytes

/-!
# Slices with checked access

A slice of bytes whose length is a signed machine word, with the accesses that a program makes to
it: additions of positions, indexing and subslicing, each of which panics where the language says
so. What stays within the slice does not panic.
-/

namespace LoomDB

/-- Why an access stops the program. -/
inductive Panic where
  | addOverflow
  | indexOutOfRange
  deriving DecidableEq

/-- Bytes on a machine whose words hold a 32-bit length; no allocation is longer than the largest
signed word. -/
structure Slice where
  bytes : Bytes
  wordBits : ℕ
  wide : 32 ≤ wordBits
  short : bytes.length < 2 ^ (wordBits - 1)

namespace Slice

variable (buf : Slice)

def len : ℕ := buf.bytes.length

/-- `left + right`, checked. -/
def add (left right : ℕ) : Except Panic ℕ :=
  if left + right < 2 ^ buf.wordBits then .ok (left + right) else .error .addOverflow

/-- `left.checked_add(right)`. -/
def checkedAdd (left right : ℕ) : Option ℕ :=
  if left + right < 2 ^ buf.wordBits then some (left + right) else none

/-- `buf[pos]`. -/
def index (pos : ℕ) : Except Panic Byte :=
  match buf.bytes[pos]? with
  | some byte => .ok byte
  | none => .error .indexOutOfRange

/-- `&buf[start..stop]`. -/
def range (start stop : ℕ) : Except Panic Bytes :=
  if start ≤ stop ∧ stop ≤ buf.len then .ok ((buf.bytes.drop start).take (stop - start))
  else .error .indexOutOfRange

theorem words_eq : 2 ^ buf.wordBits = 2 * 2 ^ (buf.wordBits - 1) := by
  have hwide := buf.wide
  rw [← pow_succ']
  congr 1
  omega

variable {buf} {left right pos start stop : ℕ}

/-- The word after the longest slice has room for 31 bits. -/
theorem add_eq_ok (hleft : left ≤ buf.len) (hright : right < 2 ^ 31) :
    buf.add left right = .ok (left + right) := by
  have hwide := buf.wide
  have hshort : buf.len < 2 ^ (buf.wordBits - 1) := buf.short
  have hwords : 2 ^ 31 ≤ 2 ^ (buf.wordBits - 1) := Nat.pow_le_pow_right (by decide) (by omega)
  have hfits : left + right < 2 ^ buf.wordBits := by
    rw [buf.words_eq]
    omega
  exact if_pos hfits

/-- An addition that overflows goes past the end of every slice. -/
theorem checkedAdd_eq (buf : Slice) (left right : ℕ) :
    buf.checkedAdd left right = some (left + right) ∨
      buf.checkedAdd left right = none ∧ buf.len < left + right := by
  by_cases hfits : left + right < 2 ^ buf.wordBits
  · exact Or.inl (if_pos hfits)
  · refine Or.inr ⟨if_neg hfits, ?_⟩
    have hshort : buf.len < 2 ^ (buf.wordBits - 1) := buf.short
    have hwords := buf.words_eq
    omega

theorem index_eq_ok (buf : Slice) (hpos : pos < buf.len) : ∃ byte, buf.bytes[pos]? = some byte ∧
    buf.index pos = .ok byte := by
  have hbyte : buf.bytes[pos]? = some buf.bytes[pos] := List.getElem?_eq_getElem hpos
  exact ⟨_, hbyte, by rw [index, hbyte]⟩

theorem range_eq_ok (hstart : start ≤ stop) (hstop : stop ≤ buf.len) :
    buf.range start stop = .ok ((buf.bytes.drop start).take (stop - start)) :=
  if_pos ⟨hstart, hstop⟩

end Slice

end LoomDB
