import LoomDB.Foundations.Codec

/-!
# Checksummed frame logs

An append-only log is a concatenation of self-describing frames: the payload
length, the payload, and a checksum of the payload. Reading stops at the first
frame that is short, fails its checksum, or does not decode. This module proves
what such a reader recovers from a log that was cut anywhere: exactly the
values whose frames lie wholly inside the surviving bytes.
-/

namespace LoomDB

/-- The layout of one frame. -/
structure FrameFormat (α : Type) where
  codec : Codec α
  lengthWidth : ℕ
  checksumWidth : ℕ
  checksum : Bytes → Bytes
  lengthWidth_pos : 0 < lengthWidth
  length_checksum : ∀ payload, (checksum payload).length = checksumWidth

namespace FrameFormat

variable {α : Type} (format : FrameFormat α)

def frame (value : α) : Bytes :=
  leBytes format.lengthWidth (format.codec.serialize value).length ++
    format.codec.serialize value ++
    format.checksum (format.codec.serialize value)

/-- The frames of a batch, in order. -/
def frames (values : List α) : Bytes :=
  values.flatMap format.frame

/-- The payload length is representable in the frame's length field. -/
def Fits (value : α) : Prop :=
  (format.codec.serialize value).length < 256 ^ format.lengthWidth

instance (value : α) : Decidable (format.Fits value) :=
  inferInstanceAs (Decidable (_ < _))

/-- Read one frame, or nothing when the bytes are short, corrupt or do not
decode. -/
def nextFrame (buf : Bytes) : Option (α × Bytes) :=
  if format.lengthWidth ≤ buf.length then
    let len := leValue (buf.take format.lengthWidth)
    let body := buf.drop format.lengthWidth
    if len + format.checksumWidth ≤ body.length then
      let payload := body.take len
      let tail := body.drop len
      if format.checksum payload = tail.take format.checksumWidth then
        (format.codec.deserialize payload).map fun value =>
          (value, tail.drop format.checksumWidth)
      else none
    else none
  else none

/-- Read frames until one fails. Every frame consumes a byte, so the length of
the log bounds the number of rounds. -/
def decodeLoop : ℕ → Bytes → List α
  | 0, _ => []
  | fuel + 1, buf =>
      match format.nextFrame buf with
      | none => []
      | some (value, rest) => value :: decodeLoop fuel rest

def decodeFrames (buf : Bytes) : List α :=
  format.decodeLoop buf.length buf

@[simp]
theorem length_frame (value : α) :
    (format.frame value).length = format.lengthWidth +
      (format.codec.serialize value).length + format.checksumWidth := by
  simp [frame, format.length_checksum, Nat.add_assoc]

@[simp]
theorem frames_nil : format.frames [] = [] := rfl

@[simp]
theorem frames_cons (value : α) (values : List α) :
    format.frames (value :: values) =
      format.frame value ++ format.frames values := rfl

@[simp]
theorem frames_append (left right : List α) :
    format.frames (left ++ right) =
      format.frames left ++ format.frames right := by
  simp [frames]

theorem nextFrame_shorter {buf rest : Bytes} {value : α}
    (hnext : format.nextFrame buf = some (value, rest)) :
    rest.length < buf.length := by
  have hpos := format.lengthWidth_pos
  unfold nextFrame at hnext
  split at hnext
  · dsimp only at hnext
    split at hnext
    · split at hnext
      · simp only [Option.map_eq_some_iff, Prod.mk.injEq] at hnext
        obtain ⟨_, _, _, hrest⟩ := hnext
        rw [← hrest]
        simp only [List.length_drop]
        omega
      · cases hnext
    · cases hnext
  · cases hnext

theorem decodeLoop_of_le {fuel : ℕ} {buf : Bytes} (hfuel : buf.length ≤ fuel) :
    format.decodeLoop fuel buf = format.decodeFrames buf := by
  have hloop : ∀ (short long : ℕ) (bytes : Bytes), bytes.length ≤ short →
      short ≤ long →
      format.decodeLoop long bytes = format.decodeLoop short bytes := by
    intro short
    induction short with
    | zero =>
        intro long bytes hbytes _
        have hnil : bytes = [] := List.length_eq_zero_iff.mp (Nat.le_zero.mp hbytes)
        have hpos := format.lengthWidth_pos
        cases long with
        | zero => rfl
        | succ long =>
            have hnone : format.nextFrame [] = none := by
              unfold nextFrame
              rw [if_neg (by simp only [List.length_nil]; omega)]
            simp [decodeLoop, hnil, hnone]
    | succ short ih =>
        intro long bytes hbytes hle
        obtain ⟨long, rfl⟩ := Nat.exists_eq_add_of_lt (Nat.lt_of_succ_le hle)
        simp only [decodeLoop]
        cases hnext : format.nextFrame bytes with
        | none => rfl
        | some pair =>
            obtain ⟨value, rest⟩ := pair
            have hshort := format.nextFrame_shorter hnext
            simp only [List.cons.injEq, true_and]
            exact ih _ rest (by omega) (by omega)
  exact hloop buf.length fuel buf le_rfl hfuel

/-- The reader's recursion equation. -/
theorem decodeFrames_eq (buf : Bytes) :
    format.decodeFrames buf =
      match format.nextFrame buf with
      | none => []
      | some (value, rest) => value :: format.decodeFrames rest := by
  rw [← format.decodeLoop_of_le (Nat.le_succ buf.length), decodeLoop]
  cases hnext : format.nextFrame buf with
  | none => rfl
  | some pair =>
      obtain ⟨value, rest⟩ := pair
      have hshort := format.nextFrame_shorter hnext
      simp only [List.cons.injEq, true_and]
      exact format.decodeLoop_of_le hshort.le

/-- A frame that promises more bytes than there are is not read. -/
theorem nextFrame_short {buf : Bytes}
    (hshort : buf.length < format.lengthWidth +
      leValue (buf.take format.lengthWidth) + format.checksumWidth) :
    format.nextFrame buf = none := by
  unfold nextFrame
  split
  · dsimp only
    rw [if_neg]
    simp only [List.length_drop]
    omega
  · rfl

/-! ## Whole frames -/

theorem nextFrame_frame_append {value : α} (hfits : format.Fits value)
    (rest : Bytes) :
    format.nextFrame (format.frame value ++ rest) = some (value, rest) := by
  have hlen := leValue_leBytes hfits
  simp only [nextFrame, frame, List.append_assoc]
  rw [if_pos (by simp), List.take_left' (by simp), List.drop_left' (by simp), hlen,
    if_pos (by simp [format.length_checksum]), List.take_left' rfl,
    List.drop_left' rfl, List.take_left' (format.length_checksum _),
    List.drop_left' (format.length_checksum _), if_pos rfl]
  simp

/-- A strict prefix of one frame is never read as a frame: its length field
is short, or promises more bytes than there are. -/
theorem nextFrame_take {value : α} (hfits : format.Fits value) {count : ℕ}
    (hcount : count < (format.frame value).length) :
    format.nextFrame ((format.frame value).take count) = none := by
  rw [length_frame] at hcount
  by_cases hwidth : format.lengthWidth ≤ count
  · have hfield : ((format.frame value).take count).take format.lengthWidth =
        leBytes format.lengthWidth (format.codec.serialize value).length := by
      rw [List.take_take, min_eq_left hwidth, frame, List.append_assoc,
        List.take_left' (by simp)]
    apply nextFrame_short
    rw [hfield, leValue_leBytes hfits, List.length_take, length_frame]
    omega
  · apply nextFrame_short
    simp only [List.length_take]
    omega

/-- A frame read from a cut log is the frame the whole log starts with. -/
theorem nextFrame_of_take {buf rest : Bytes} {count : ℕ} {value : α}
    (hnext : format.nextFrame (buf.take count) = some (value, rest)) :
    ∃ tail kept, format.nextFrame buf = some (value, tail) ∧ rest = tail.take kept := by
  unfold nextFrame at hnext ⊢
  split at hnext
  case isFalse => cases hnext
  case isTrue hwidth =>
    rw [List.length_take] at hwidth
    have hfield : (buf.take count).take format.lengthWidth =
        buf.take format.lengthWidth := by
      rw [List.take_take, min_eq_left (by omega)]
    rw [hfield] at hnext
    rw [if_pos (by omega)]
    dsimp only at hnext ⊢
    generalize leValue (buf.take format.lengthWidth) = len at hnext ⊢
    split at hnext
    case isFalse => cases hnext
    case isTrue hlen =>
      simp only [List.length_drop, List.length_take] at hlen
      rw [if_pos (by simp only [List.length_drop]; omega)]
      have hpayload : ((buf.take count).drop format.lengthWidth).take len =
          (buf.drop format.lengthWidth).take len := by
        rw [List.drop_take, List.take_take, min_eq_left (by omega)]
      have htail : ((buf.take count).drop format.lengthWidth).drop len =
          ((buf.drop format.lengthWidth).drop len).take
            (count - format.lengthWidth - len) := by
        rw [List.drop_take, List.drop_take]
      rw [hpayload, htail, List.take_take, min_eq_left (by omega)] at hnext
      split at hnext
      case isFalse => cases hnext
      case isTrue hchecksum =>
        rw [if_pos hchecksum]
        simp only [Option.map_eq_some_iff, Prod.mk.injEq] at hnext ⊢
        obtain ⟨decoded, hdecoded, rfl, hrest⟩ := hnext
        rw [List.drop_take] at hrest
        exact ⟨_, _, ⟨decoded, hdecoded, rfl, rfl⟩, hrest.symm⟩

theorem decodeFrames_frames_append {values : List α}
    (hfits : ∀ value ∈ values, format.Fits value) (rest : Bytes) :
    format.decodeFrames (format.frames values ++ rest) =
      values ++ format.decodeFrames rest := by
  induction values with
  | nil => rfl
  | cons value values ih =>
      rw [frames_cons, List.append_assoc, decodeFrames_eq,
        nextFrame_frame_append format (hfits value List.mem_cons_self)]
      simp only [List.cons_append, List.cons.injEq, true_and]
      exact ih fun other hother => hfits other (List.mem_cons_of_mem _ hother)

theorem decodeFrames_nil : format.decodeFrames [] = [] := rfl

theorem decodeFrames_frames {values : List α}
    (hfits : ∀ value ∈ values, format.Fits value) :
    format.decodeFrames (format.frames values) = values := by
  simpa [decodeFrames_nil] using format.decodeFrames_frames_append hfits []

/-! ## Cut logs -/

/-- The values whose frames lie wholly inside the first `count` bytes. -/
def survivors : List α → ℕ → List α
  | [], _ => []
  | value :: values, count =>
      if (format.frame value).length ≤ count then
        value :: survivors values (count - (format.frame value).length)
      else []

theorem survivors_isPrefix (values : List α) (count : ℕ) :
    format.survivors values count <+: values := by
  induction values generalizing count with
  | nil => exact List.prefix_rfl
  | cons value values ih =>
      unfold survivors
      split
      · exact List.prefix_cons_inj value |>.mpr (ih _)
      · exact List.nil_prefix

/-- A cut log is its whole frames and then a strict prefix of the next one. -/
theorem take_frames (values : List α) (count : ℕ) :
    ∃ torn, (format.frames values).take count =
      format.frames (format.survivors values count) ++ torn ∧
      (torn = [] ∨ ∃ value ∈ values, ∃ kept < (format.frame value).length,
        torn = (format.frame value).take kept) := by
  induction values generalizing count with
  | nil => exact ⟨[], by simp [survivors], Or.inl rfl⟩
  | cons value values ih =>
      by_cases hwhole : (format.frame value).length ≤ count
      · obtain ⟨torn, htake, htorn⟩ := ih (count - (format.frame value).length)
        refine ⟨torn, ?_, htorn.imp id ?_⟩
        · rw [survivors, if_pos hwhole, frames_cons, frames_cons,
            List.take_append, List.take_of_length_le hwhole, htake,
            List.append_assoc]
        · rintro ⟨other, hother, hkept⟩
          exact ⟨other, List.mem_cons_of_mem _ hother, hkept⟩
      · refine ⟨(format.frame value).take count, ?_, Or.inr
          ⟨value, List.mem_cons_self, count, by omega, rfl⟩⟩
        rw [survivors, if_neg hwhole, frames_cons,
          List.take_append_of_le_length (by omega)]
        rfl

/-- What is read from a log cut after any number of bytes. -/
theorem decodeFrames_take {values : List α}
    (hfits : ∀ value ∈ values, format.Fits value) (count : ℕ) :
    format.decodeFrames ((format.frames values).take count) =
      format.survivors values count := by
  obtain ⟨torn, htake, htorn⟩ := format.take_frames values count
  have hstarts := format.survivors_isPrefix values count
  rw [htake, format.decodeFrames_frames_append fun value hvalue =>
    hfits value (hstarts.subset hvalue)]
  have hnone : format.decodeFrames torn = [] := by
    rcases htorn with rfl | ⟨value, hvalue, kept, hkept, rfl⟩
    · rfl
    · rw [decodeFrames_eq, format.nextFrame_take (hfits value hvalue) hkept]
  rw [hnone, List.append_nil]

/-- Frames are read front to back, so a shorter log is read as a prefix. -/
theorem decodeFrames_take_eq (buf : Bytes) (count : ℕ) :
    format.decodeFrames (buf.take count) <+: format.decodeFrames buf := by
  have hloop : ∀ (size : ℕ) (bytes : Bytes) (kept : ℕ), bytes.length ≤ size →
      format.decodeFrames (bytes.take kept) <+: format.decodeFrames bytes := by
    intro size
    induction size with
    | zero =>
        intro bytes kept hsize
        obtain rfl : bytes = [] := List.length_eq_zero_iff.mp (Nat.le_zero.mp hsize)
        simp
    | succ size ih =>
        intro bytes kept hsize
        cases hnext : format.nextFrame (bytes.take kept) with
        | none =>
            rw [decodeFrames_eq, hnext]
            exact List.nil_prefix
        | some pair =>
            obtain ⟨value, rest⟩ := pair
            obtain ⟨tail, kept', hwhole, hrest⟩ := format.nextFrame_of_take hnext
            have hshort := format.nextFrame_shorter hwhole
            rw [decodeFrames_eq, hnext, format.decodeFrames_eq bytes, hwhole, hrest]
            exact List.prefix_cons_inj value |>.mpr (ih tail _ (by omega))
  exact hloop buf.length buf count le_rfl

/-- The cut fell between two frames. -/
def Aligned (values : List α) (count : ℕ) : Prop :=
  (format.frames values).take count =
    format.frames (format.survivors values count)

instance (values : List α) (count : ℕ) :
    Decidable (format.Aligned values count) :=
  inferInstanceAs (Decidable (_ = _))

end FrameFormat

end LoomDB
