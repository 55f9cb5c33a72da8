import LoomDB.Foundations.Bytes

/-!
# Prefix codecs

A codec consumes exactly its own encoding in front of any suffix, so encodings
can be concatenated without delimiters. The layouts are those of a serializer
with fixed-width little-endian integers: eight-byte lengths, four-byte variant
tags, one-byte booleans and option tags, and no framing around a product.
-/

namespace LoomDB

/-- An encoder and a prefix decoder with their round-trip law. -/
structure Codec (α : Type) where
  encode : α → Bytes
  decode : Bytes → Option (α × Bytes)
  decode_encode : ∀ value rest, decode (encode value ++ rest) = some (value, rest)

namespace Codec

variable {α β : Type}

/-- `serialize`. -/
def serialize (codec : Codec α) (value : α) : Bytes :=
  codec.encode value

/-- `deserialize`: trailing bytes are allowed and ignored. -/
def deserialize (codec : Codec α) (bytes : Bytes) : Option α :=
  (codec.decode bytes).map Prod.fst

@[simp]
theorem deserialize_serialize (codec : Codec α) (value : α) :
    codec.deserialize (codec.serialize value) = some value := by
  have hround := codec.decode_encode value []
  rw [List.append_nil] at hround
  simp [deserialize, serialize, hround]

theorem serialize_injective (codec : Codec α) :
    Function.Injective codec.serialize := by
  intro left right heq
  have hparsed := congrArg codec.deserialize heq
  simpa using hparsed

/-- The unit value needs no bytes. -/
def unit : Codec Unit where
  encode _ := []
  decode bytes := some ((), bytes)
  decode_encode _ _ := rfl

/-- An unsigned integer of `width` bytes, little-endian. -/
def uint (width : ℕ) : Codec (Fin (256 ^ width)) where
  encode value := leBytes width value.val
  decode bytes :=
    if h : (bytes.take width).length = width then
      some (⟨leValue (bytes.take width), (leValue_lt _).trans_eq (by rw [h])⟩,
        bytes.drop width)
    else none
  decode_encode value rest := by
    have htake : (leBytes width value.val ++ rest).take width =
        leBytes width value.val := List.take_left' (by simp)
    have hdrop : (leBytes width value.val ++ rest).drop width = rest :=
      List.drop_left' (by simp)
    rw [dif_pos (by rw [htake]; simp)]
    simp only [hdrop]
    congr 3
    rw [htake]
    exact leValue_leBytes value.isLt

/-- A 32-byte identifier: its bytes, with no length in front. -/
def digest : Codec Digest where
  encode value := value.asBytes
  decode bytes := (Digest.fromBytes (bytes.take 32)).map fun value =>
    (value, bytes.drop 32)
  decode_encode value rest := by
    rw [List.take_left' (by simp), List.drop_left' (by simp)]
    simp

/-- One length in eight bytes. No string is `2 ^ 64 - 1` bytes long, so that
pattern is free: it marks the (unreachable) longer lengths and makes the codec
total on the naturals. The serializer refuses the pattern, as the input ends before
so many bytes; here what comes after it is read in ones. -/
def lengthEscape : ℕ := 256 ^ 8 - 1

def encodeLength (length : ℕ) : Bytes :=
  if length < lengthEscape then leBytes 8 length
  else leBytes 8 lengthEscape ++ List.replicate length 1 ++ [0]

def decodeLength (bytes : Bytes) : Option (ℕ × Bytes) :=
  if (bytes.take 8).length = 8 then
    let value := leValue (bytes.take 8)
    let rest := bytes.drop 8
    if value < lengthEscape then some (value, rest)
    else
      let ones := rest.takeWhile (· = 1)
      some (ones.length, rest.drop (ones.length + 1))
  else none

theorem length_encodeLength {length : ℕ} (hbound : length < lengthEscape) :
    (encodeLength length).length = 8 := by
  simp [encodeLength, hbound]

theorem decodeLength_encodeLength (length : ℕ) (rest : Bytes) :
    decodeLength (encodeLength length ++ rest) = some (length, rest) := by
  have hstarts : ∀ (value : ℕ) (tail : Bytes),
      (leBytes 8 value ++ tail).take 8 = leBytes 8 value ∧
        (leBytes 8 value ++ tail).drop 8 = tail := fun value tail =>
    ⟨List.take_left' (by simp), List.drop_left' (by simp)⟩
  by_cases hlength : length < lengthEscape
  · have hbound : length < 256 ^ 8 := by
      unfold lengthEscape at hlength
      omega
    simp [decodeLength, encodeLength, hlength, (hstarts length rest).1,
      (hstarts length rest).2, leValue_leBytes hbound]
  · have hescape : lengthEscape < 256 ^ 8 := by
      unfold lengthEscape
      omega
    have hones : (List.replicate length (1 : Byte) ++ (0 :: rest)).takeWhile
        (· = 1) = List.replicate length 1 := by
      induction length with
      | zero => simp
      | succ length _ =>
          rw [List.takeWhile_append_of_pos (by simp)]
          simp
    simp only [decodeLength, encodeLength, hlength, if_false, List.append_assoc,
      List.singleton_append]
    rw [(hstarts lengthEscape _).1, (hstarts lengthEscape _).2,
      leValue_leBytes hescape]
    simp only [length_leBytes, if_true, lt_irrefl, if_false, hones,
      List.length_replicate]
    rw [List.drop_append]
    simp

/-- A sequence: its length, then its elements. -/
def decodeList (codec : Codec α) : ℕ → Bytes → Option (List α × Bytes)
  | 0, bytes => some ([], bytes)
  | count + 1, bytes => do
      let (value, rest) ← codec.decode bytes
      let (values, rest) ← decodeList codec count rest
      some (value :: values, rest)

theorem decodeList_flatMap (codec : Codec α) (values : List α) (rest : Bytes) :
    decodeList codec values.length (values.flatMap codec.encode ++ rest) =
      some (values, rest) := by
  induction values with
  | nil => rfl
  | cons value values ih =>
      simp only [List.length_cons, decodeList, List.flatMap_cons,
        List.append_assoc, codec.decode_encode, Option.bind_eq_bind,
        Option.bind_some, ih]

def list (codec : Codec α) : Codec (List α) where
  encode values := encodeLength values.length ++ values.flatMap codec.encode
  decode bytes := do
    let (count, rest) ← decodeLength bytes
    decodeList codec count rest
  decode_encode values rest := by
    rw [List.append_assoc, decodeLength_encodeLength]
    exact decodeList_flatMap codec values rest

def pair (left : Codec α) (right : Codec β) : Codec (α × β) where
  encode value := left.encode value.1 ++ right.encode value.2
  decode bytes := do
    let (first, rest) ← left.decode bytes
    let (second, rest) ← right.decode rest
    some ((first, second), rest)
  decode_encode value rest := by
    simp [List.append_assoc, left.decode_encode, right.decode_encode]

/-- Change of representation. -/
def iso (codec : Codec α) (pack : α → β) (unpack : β → α)
    (hinverse : ∀ value, pack (unpack value) = value) : Codec β where
  encode value := codec.encode (unpack value)
  decode bytes := (codec.decode bytes).map fun (value, rest) => (pack value, rest)
  decode_encode value rest := by
    simp [codec.decode_encode, hinverse]

/-- One variant of several, behind a tag of `width` bytes. -/
def tagged (width count : ℕ) (hcount : count ≤ 256 ^ width)
    {Payload : Fin count → Type} (codecs : ∀ tag, Codec (Payload tag)) :
    Codec (Σ tag, Payload tag) where
  encode value := (uint width).encode (Fin.castLE hcount value.1) ++
    (codecs value.1).encode value.2
  decode bytes := do
    let (tag, rest) ← (uint width).decode bytes
    if h : tag.val < count then
      let (payload, rest) ← (codecs ⟨tag.val, h⟩).decode rest
      some (⟨⟨tag.val, h⟩, payload⟩, rest)
    else none
  decode_encode value rest := by
    obtain ⟨tag, payload⟩ := value
    rw [List.append_assoc, (uint width).decode_encode]
    simp [(codecs tag).decode_encode]

def byte : Codec Byte :=
  (uint 1).iso (fun value => ⟨value.val, value.isLt⟩)
    (fun value => ⟨value.val, by simp⟩) (fun _ => rfl)

/-- A byte string or a text: its length, then its bytes. A text is read like a byte
string, so more is read than by the serializer, which refuses what is no UTF-8. -/
def bytes : Codec Bytes :=
  list byte

/-- An eight-byte word. -/
def u64 : Codec (Fin (256 ^ 8)) :=
  uint 8

/-- A field-less enumeration behind a tag of `width` bytes. -/
def enum (width count : ℕ) (hcount : count ≤ 256 ^ width) (pack : Fin count → α)
    (unpack : α → Fin count) (hinverse : ∀ value, pack (unpack value) = value) :
    Codec α :=
  (tagged width count hcount fun _ : Fin count => unit).iso
    (fun value => pack value.1) (fun value => ⟨unpack value, ()⟩) hinverse

def bool : Codec Bool :=
  enum 1 2 (by decide) (fun tag => tag.val = 1) (fun value => if value then 1 else 0)
    (by decide)

def option (codec : Codec α) : Codec (Option α) where
  encode
    | none => [0]
    | some value => 1 :: codec.encode value
  decode
    | 0 :: rest => some (none, rest)
    | 1 :: rest => (codec.decode rest).map fun (value, rest) => (some value, rest)
    | _ => none
  decode_encode
    | none, _ => rfl
    | some value, rest => by simp [codec.decode_encode]

end Codec

end LoomDB
