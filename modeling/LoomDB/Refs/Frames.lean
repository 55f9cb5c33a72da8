import LoomDB.Foundations.Slices
import LoomDB.Refs.Recovery
import LoomDB.Core.Platform

/-!
# Reading frames at positions

The reader of the log keeps a position in one slice, and adds to it what it reads in a length
field. Whatever the bytes are, it comes to an end without an overflow and without an index out of
range, and returns what the frames of the log are. Of a log that was cut it returns the edits whose
frames are whole.
-/

namespace LoomDB

/-- `u32::from_le_bytes` of the four bytes at a position. -/
def lengthField (buf : Slice) (pos : ℕ) : Except Panic ℕ := do
  let first ← buf.index pos
  let second ← buf.index (← buf.add pos 1)
  let third ← buf.index (← buf.add pos 2)
  let fourth ← buf.index (← buf.add pos 3)
  return leValue [first, second, third, fourth]

/-- One round of `frames_decode` at a position: an edit and the next position, or `none` where the
loop ends. -/
def frameAt (blake3 : Bytes → Digest) (buf : Slice) (pos : ℕ) :
    Except Panic (Option (RefEdit × ℕ)) := do
  if buf.len < (← buf.add pos 4) then return none
  let len ← lengthField buf pos
  let start ← buf.add pos 4
  match buf.checkedAdd start len with
  | none => return none
  | some stop =>
      match buf.checkedAdd stop FRAME_CHECKSUM_LEN with
      | none => return none
      | some sumEnd =>
          if buf.len < sumEnd then return none
          let payload ← buf.range start stop
          if (blake3 payload).asBytes.take FRAME_CHECKSUM_LEN ≠ (← buf.range stop sumEnd) then
            return none
          match RefEdit.codec.deserialize payload with
          | none => return none
          | some edit => return some (edit, sumEnd)

/-- The loop of `frames_decode`; `none` where it is still running after `fuel` rounds. -/
def framesFrom (blake3 : Bytes → Digest) (buf : Slice) :
    ℕ → ℕ → List RefEdit → Option (Except Panic (List RefEdit))
  | 0, _, _ => none
  | fuel + 1, pos, edits =>
      match frameAt blake3 buf pos with
      | .error panic => some (.error panic)
      | .ok none => some (.ok edits)
      | .ok (some (edit, next)) => framesFrom blake3 buf fuel next (edits ++ [edit])

section

variable {blake3 : Bytes → Digest} {buf : Slice} {pos : ℕ}

theorem lengthField_eq (hpos : pos + 4 ≤ buf.len) :
    lengthField buf pos = .ok (leValue ((buf.bytes.drop pos).take 4)) := by
  have hin : pos ≤ buf.len := by omega
  obtain ⟨first, hfirst, hat⟩ := buf.index_eq_ok (show pos < buf.len by omega)
  obtain ⟨second, hsecond, hat1⟩ := buf.index_eq_ok (show pos + 1 < buf.len by omega)
  obtain ⟨third, hthird, hat2⟩ := buf.index_eq_ok (show pos + 2 < buf.len by omega)
  obtain ⟨fourth, hfourth, hat3⟩ := buf.index_eq_ok (show pos + 3 < buf.len by omega)
  have hfield : (buf.bytes.drop pos).take 4 = [first, second, third, fourth] := by
    apply List.ext_getElem?
    intro index
    rcases index with _ | _ | _ | _ | index
    · simpa using hfirst
    · simpa using hsecond
    · simpa using hthird
    · simpa using hfourth
    · simp
  unfold lengthField
  rw [hat, Slice.add_eq_ok hin (by decide), Slice.add_eq_ok hin (by decide),
    Slice.add_eq_ok hin (by decide), hfield]
  simp only [bind, Except.bind, hat1, hat2, hat3]
  rfl

/-- The next frame of a log behind a position, at positions. -/
theorem nextFrame_drop (blake3 : Bytes → Digest) {len : ℕ} (hhead : pos + 4 ≤ buf.len)
    (hlen : leValue ((buf.bytes.drop pos).take 4) = len) :
    (refFrame blake3).nextFrame (buf.bytes.drop pos) =
      if pos + 4 + len + FRAME_CHECKSUM_LEN ≤ buf.len then
        if (blake3 ((buf.bytes.drop (pos + 4)).take len)).asBytes.take FRAME_CHECKSUM_LEN =
            (buf.bytes.drop (pos + 4 + len)).take FRAME_CHECKSUM_LEN then
          (RefEdit.codec.deserialize ((buf.bytes.drop (pos + 4)).take len)).map fun edit =>
            (edit, buf.bytes.drop (pos + 4 + len + FRAME_CHECKSUM_LEN))
        else none
      else none := by
  have hrest : (buf.bytes.drop pos).length = buf.len - pos := List.length_drop
  have hwidth : (refFrame blake3).lengthWidth ≤ (buf.bytes.drop pos).length := by
    show 4 ≤ _
    omega
  unfold FrameFormat.nextFrame
  rw [if_pos hwidth]
  simp only [refFrame, hlen, List.drop_drop, List.length_drop]
  by_cases hwhole : pos + 4 + len + FRAME_CHECKSUM_LEN ≤ buf.len
  · rw [if_pos hwhole, if_pos]
    show _ ≤ buf.len - _
    omega
  · rw [if_neg hwhole, if_neg]
    show ¬_ ≤ buf.len - _
    omega

/-- A round reads the next frame of the log, and does not panic. -/
theorem frameAt_spec (blake3 : Bytes → Digest) (hpos : pos ≤ buf.len) :
    (frameAt blake3 buf pos = .ok none ∧
      (refFrame blake3).nextFrame (buf.bytes.drop pos) = none) ∨
    ∃ edit next, frameAt blake3 buf pos = .ok (some (edit, next)) ∧ pos < next ∧
      next ≤ buf.len ∧
      (refFrame blake3).nextFrame (buf.bytes.drop pos) = some (edit, buf.bytes.drop next) := by
  unfold frameAt
  rw [Slice.add_eq_ok hpos (by decide)]
  by_cases hhead : buf.len < pos + 4
  · have hrest : (buf.bytes.drop pos).length = buf.len - pos := List.length_drop
    refine Or.inl ⟨if_pos hhead, if_neg ?_⟩
    show ¬4 ≤ _
    omega
  have hhead : pos + 4 ≤ buf.len := by omega
  obtain ⟨len, hlen⟩ : ∃ len, leValue ((buf.bytes.drop pos).take 4) = len := ⟨_, rfl⟩
  rw [nextFrame_drop blake3 hhead hlen]
  simp only [bind, Except.bind, lengthField_eq hhead, hlen, if_neg (Nat.not_lt.mpr hhead)]
  rcases Slice.checkedAdd_eq buf (pos + 4) len with hstop | ⟨hstop, hpast⟩
  · rcases Slice.checkedAdd_eq buf (pos + 4 + len) FRAME_CHECKSUM_LEN with
      hsum | ⟨hsum, hpast⟩
    · rw [hstop]
      simp only [hsum]
      by_cases hwhole : pos + 4 + len + FRAME_CHECKSUM_LEN ≤ buf.len
      · rw [if_neg (Nat.not_lt.mpr hwhole), if_pos hwhole,
          Slice.range_eq_ok (by omega) (by omega), Slice.range_eq_ok (by omega) hwhole]
        simp only [Nat.add_sub_cancel_left]
        by_cases hsame : (blake3 ((buf.bytes.drop (pos + 4)).take len)).asBytes.take
            FRAME_CHECKSUM_LEN = (buf.bytes.drop (pos + 4 + len)).take FRAME_CHECKSUM_LEN
        · rw [if_neg (not_not.mpr hsame), if_pos hsame]
          cases RefEdit.codec.deserialize ((buf.bytes.drop (pos + 4)).take len) with
          | none => exact Or.inl ⟨rfl, rfl⟩
          | some edit => exact Or.inr ⟨edit, _, rfl, by omega, hwhole, rfl⟩
        · rw [if_pos hsame, if_neg hsame]
          exact Or.inl ⟨rfl, rfl⟩
      · rw [if_pos (by omega), if_neg hwhole]
        exact Or.inl ⟨rfl, rfl⟩
    · rw [hstop]
      simp only [hsum]
      exact Or.inl ⟨rfl, if_neg (by omega)⟩
  · rw [hstop]
    exact Or.inl ⟨rfl, if_neg (by omega)⟩

/-- The loop goes on from a position as the log behind it says. -/
theorem framesFrom_eq (blake3 : Bytes → Digest) (edits : List RefEdit) {fuel : ℕ}
    (hpos : pos ≤ buf.len) (hfuel : buf.len - pos < fuel) :
    framesFrom blake3 buf fuel pos edits =
      some (.ok (edits ++ framesDecode blake3 (buf.bytes.drop pos))) := by
  induction fuel generalizing pos edits with
  | zero => omega
  | succ fuel ih =>
      unfold framesFrom framesDecode
      rw [FrameFormat.decodeFrames_eq]
      rcases frameAt_spec blake3 hpos with
        ⟨hround, hnone⟩ | ⟨edit, next, hround, hlater, hnext, hframe⟩
      · rw [hround, hnone, List.append_nil]
      · rw [hround, hframe]
        have hrest := ih (edits ++ [edit]) hnext (by omega)
        rw [List.append_assoc, List.singleton_append] at hrest
        exact hrest

/-- The edits that a cut leaves are those whose frames end before it. -/
theorem survivors_eq_take (blake3 : Bytes → Digest) (edits : List RefEdit) (count : ℕ) :
    ∃ whole ≤ edits.length,
      (refFrame blake3).survivors edits count = edits.take whole ∧
      ∀ index < edits.length, index < whole ↔
        ((refFrame blake3).frames (edits.take (index + 1))).length ≤ count := by
  induction edits generalizing count with
  | nil => exact ⟨0, le_rfl, rfl, fun index hindex => absurd hindex (Nat.not_lt_zero index)⟩
  | cons edit edits ih =>
      unfold FrameFormat.survivors
      by_cases hfirst : ((refFrame blake3).frame edit).length ≤ count
      · obtain ⟨whole, hwhole, htake, hends⟩ := ih (count - ((refFrame blake3).frame edit).length)
        refine ⟨whole + 1, Nat.succ_le_succ hwhole, ?_, ?_⟩
        · rw [if_pos hfirst, htake, List.take_succ_cons]
        · intro index hindex
          rw [List.take_succ_cons, FrameFormat.frames_cons, List.length_append]
          cases index with
          | zero => simpa using hfirst
          | succ index =>
              have hindex := hends index (Nat.lt_of_succ_lt_succ hindex)
              rw [Nat.succ_lt_succ_iff, hindex]
              omega
      · refine ⟨0, Nat.zero_le _, if_neg hfirst, fun index hindex => ?_⟩
        rw [List.take_succ_cons, FrameFormat.frames_cons, List.length_append]
        omega

/-- The reader returns, of any prefix of any frames, the edits whose frames lie inside it, in order;
and of any slice of bytes, after at most one round for each byte, what its frames are. -/
theorem framesDecode_total (blake3 : Bytes → Digest) :
    (∀ (edits : List RefEdit) (count : ℕ),
      (∀ edit ∈ edits, (RefEdit.codec.serialize edit).length < 2 ^ 32) →
      ∃ whole ≤ edits.length,
        framesDecode blake3 ((edits.flatMap (frameEncode blake3)).take count) =
          edits.take whole ∧
        ∀ index < edits.length, index < whole ↔
          ((edits.take (index + 1)).flatMap (frameEncode blake3)).length ≤ count) ∧
    ∀ (buf : Slice) (fuel : ℕ), buf.len < fuel →
      framesFrom blake3 buf fuel 0 [] = some (.ok (framesDecode blake3 buf.bytes)) := by
  constructor
  · intro edits count hfits
    obtain ⟨whole, hwhole, htake, hends⟩ := survivors_eq_take blake3 edits count
    refine ⟨whole, hwhole, ?_, hends⟩
    rw [← htake]
    exact FrameFormat.decodeFrames_take _ hfits count
  · intro buf fuel hfuel
    exact framesFrom_eq blake3 [] (Nat.zero_le _) hfuel

/-- Two heads, the second cut in its checksum. -/
theorem framesDecode_total_heads :
    ∃ whole ≤ 2,
      framesDecode Platform.plain.blake3 (([RefEdit.setHead (ascii "main") 1,
          .setHead (ascii "main") 2].flatMap (frameEncode Platform.plain.blake3)).take 119) =
        [RefEdit.setHead (ascii "main") 1, .setHead (ascii "main") 2].take whole ∧
      ∀ index < 2, index < whole ↔
        (([RefEdit.setHead (ascii "main") 1, .setHead (ascii "main") 2].take (index + 1)).flatMap
          (frameEncode Platform.plain.blake3)).length ≤ 119 := by
  refine (framesDecode_total Platform.plain.blake3).1
    [.setHead (ascii "main") 1, .setHead (ascii "main") 2] 119 ?_
  simp only [List.forall_mem_cons]
  decide +kernel

end

end LoomDB
