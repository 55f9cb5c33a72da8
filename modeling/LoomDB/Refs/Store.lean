import LoomDB.Refs.Refs

/-!
# The file-backed ref store

Refs on disk are a full snapshot plus an append-only log of checksummed edit
frames. Loading replays the log on the snapshot; an `apply` appends one batch
and, when the log has outgrown the snapshot, folds it into a new one. The power
can go inside any of the file operations, so each call takes the point at which
it does.
-/

namespace LoomDB

/-- How many bytes of a frame's payload hash are stored. -/
def FRAME_CHECKSUM_LEN : ℕ := 8

/-- Compact once the log outgrows the snapshot, with this floor. -/
def COMPACT_FLOOR_BYTES : ℕ := 256 * 1024

/-- The three files of a database root; `none` is a file that does not exist. -/
structure Disk where
  snapshot : Option Bytes
  log : Option Bytes
  legacy : Option Bytes
  deriving DecidableEq

namespace Disk

def empty : Disk :=
  { snapshot := none, log := none, legacy := none }

/-- `Vfs::append` to the log, which creates the file. -/
def append (disk : Disk) (bytes : Bytes) : Disk :=
  { disk with log := some (disk.log.getD [] ++ bytes) }

end Disk

/-- Where the power goes inside one store call. -/
inductive PowerCut where
  /-- The first `kept` bytes of the append reached the log. -/
  | duringAppend (kept : ℕ)
  /-- The new snapshot was not renamed into place. -/
  | beforeRename
  /-- The new snapshot is in place and `kept` bytes of the old log are left. -/
  | duringTruncate (kept : ℕ)
  deriving DecidableEq

/-- An open store: the files, the compaction floor and the cached sizes. -/
structure FileRefStore where
  disk : Disk
  compactFloor : ℕ
  snapshotBytes : ℕ
  logBytes : ℕ
  deriving DecidableEq

section

variable (blake3 : Bytes → Digest)

/-- One edit as `[u32 len][payload][8-byte hash of the payload]`. -/
def refFrame : FrameFormat RefEdit where
  codec := RefEdit.codec
  lengthWidth := 4
  checksumWidth := FRAME_CHECKSUM_LEN
  checksum payload := (blake3 payload).asBytes.take FRAME_CHECKSUM_LEN
  lengthWidth_pos := by decide
  length_checksum payload := by simp [FRAME_CHECKSUM_LEN]

def frameEncode (edit : RefEdit) : Bytes :=
  (refFrame blake3).frame edit

def framesDecode (buf : Bytes) : List RefEdit :=
  (refFrame blake3).decodeFrames buf

namespace Disk

/-- The snapshot, or the legacy single-file refs where there is no snapshot. -/
def readSnapshot (disk : Disk) : Except LoomError (Option Refs) :=
  match disk.snapshot, disk.legacy with
  | some bytes, _ => (Refs.decode bytes).map some
  | none, some bytes => (Refs.decode bytes).map some
  | none, none => .ok none

/-- The edits of the log, or none where there is no log. -/
def readLog (disk : Disk) : List RefEdit :=
  (disk.log.map (framesDecode blake3)).getD []

/-- The live refs: the snapshot and the replayed log. -/
def reconstruct (disk : Disk) : Except LoomError (Option Refs) := do
  let snapshot ← disk.readSnapshot
  let log := disk.readLog blake3
  match snapshot, log with
  | none, [] => .ok none
  | base, log => .ok (some ((base.getD Refs.default).replay log))

end Disk

namespace FileRefStore

/-- Opening primes the cached sizes from what is on disk, and changes nothing
there. -/
def openInner (disk : Disk) : FileRefStore :=
  { disk := disk
    compactFloor := COMPACT_FLOOR_BYTES
    snapshotBytes := (disk.snapshot.map List.length).getD 0
    logBytes := (disk.log.map List.length).getD 0 }

def withCompactFloor (store : FileRefStore) (bytes : ℕ) : FileRefStore :=
  { store with compactFloor := bytes }

/-- Write a fresh snapshot, then truncate the log. -/
def writeSnapshotAndResetLog (cut : Option PowerCut) (refs : Refs)
    (store : FileRefStore) : Except LoomError Unit × FileRefStore :=
  if cut = some .beforeRename then
    (.error (.corruptNode 0 "cannot write refs.snapshot"), store)
  else
    let bytes := refs.encode
    let renamed := { store.disk with snapshot := some bytes }
    match store.disk.log, cut with
    | some log, some (.duringTruncate kept) =>
        (.error (.corruptNode 0 "cannot truncate refs.log"),
          { store with disk := { renamed with log := some (log.take kept) } })
    | log, _ =>
        (.ok (),
          { store with
            disk := { renamed with log := log.map fun _ => [] }
            snapshotBytes := bytes.length
            logBytes := 0 })

def load (store : FileRefStore) : Except LoomError (Option Refs) :=
  store.disk.reconstruct blake3

def save (cut : Option PowerCut) (refs : Refs) (store : FileRefStore) :
    Except LoomError Unit × FileRefStore :=
  store.writeSnapshotAndResetLog cut refs

/-- Fold the log into a new snapshot. -/
def compact (cut : Option PowerCut) (store : FileRefStore) :
    Except LoomError Unit × FileRefStore :=
  match store.load blake3 with
  | .error error => (.error error, store)
  | .ok refs => store.writeSnapshotAndResetLog cut (refs.getD Refs.default)

/-- Append a batch in one write, then compact if the log has grown too long. -/
def apply (cut : Option PowerCut) (edits : List RefEdit) (store : FileRefStore) :
    Except LoomError Unit × FileRefStore :=
  if edits = [] then (.ok (), store)
  else
    let frameBytes := edits.flatMap (frameEncode blake3)
    match cut with
    | some (.duringAppend kept) =>
        (.error (.corruptNode 0 "cannot append to refs.log"),
          { store with disk := store.disk.append (frameBytes.take kept) })
    | _ =>
        let store :=
          { store with
            disk := store.disk.append frameBytes
            logBytes := store.logBytes + frameBytes.length }
        if store.logBytes > max store.snapshotBytes store.compactFloor then
          store.compact blake3 cut
        else (.ok (), store)

end FileRefStore

/-! ## What a disk holds -/

namespace Disk

/-- The refs a disk stands for; a new database has the default ones. -/
def refs (disk : Disk) : Except LoomError Refs :=
  (disk.reconstruct blake3).map fun loaded => loaded.getD Refs.default

variable {blake3}

/-- The snapshot a log is replayed on stands for `base`. -/
def Baseline (disk : Disk) (base : Refs) : Prop :=
  ∃ snapshot, disk.readSnapshot = .ok snapshot ∧ snapshot.getD Refs.default = base

theorem refs_eq {disk : Disk} {base : Refs} (hbase : disk.Baseline base) :
    disk.refs blake3 = .ok (base.replay (disk.readLog blake3)) := by
  obtain ⟨snapshot, hread, rfl⟩ := hbase
  unfold refs reconstruct
  rw [hread]
  cases snapshot <;> cases disk.readLog blake3 <;> rfl

/-- A baseline read from a file has a format version this build understands. -/
theorem Baseline.readable {disk : Disk} {base : Refs} (hbase : disk.Baseline base) :
    base.Readable := by
  obtain ⟨snapshot, hread, rfl⟩ := hbase
  have hfile : ∀ bytes : Bytes, (Refs.decode bytes).map some = .ok snapshot →
      (snapshot.getD Refs.default).Readable := by
    intro bytes hdecode
    cases hrefs : Refs.decode bytes with
    | error error => rw [hrefs] at hdecode; cases hdecode
    | ok refs =>
        rw [hrefs] at hdecode
        obtain rfl : some refs = snapshot := Except.ok.inj hdecode
        exact Refs.readable_of_decode hrefs
  unfold readSnapshot at hread
  split at hread
  · exact hfile _ hread
  · exact hfile _ hread
  · obtain rfl := Except.ok.inj hread
    exact Nat.zero_le _

/-- A snapshot in place is the baseline, whatever else is on the disk. -/
theorem baseline_snapshot {base : Refs} (hbase : base.Readable) (log legacy : Option Bytes) :
    Baseline { snapshot := some base.encode, log := log, legacy := legacy } base := by
  refine ⟨some base, ?_, rfl⟩
  simp only [readSnapshot, Refs.decode_encode hbase]
  rfl

end Disk

end

end LoomDB
