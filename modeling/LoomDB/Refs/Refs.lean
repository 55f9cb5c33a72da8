import LoomDB.Foundations.OrderedMap
import LoomDB.Foundations.FrameLog
import LoomDB.Core.Error

/-!
# Refs and ref edits

Branch heads, tags and the multi-parent commit table are what must survive a
restart besides the data. Every change to them is a `RefEdit`; the durable
state is the replay of the edits in the order they were appended.
-/

namespace LoomDB

open Std

def REFS_FORMAT_VERSION : ℕ := 1

structure Refs where
  formatVersion : Fin (256 ^ 4)
  branches : ExtTreeMap Bytes CommitId
  tags : ExtTreeMap Bytes CommitId
  commits : ExtTreeMap CommitId (List CommitId)
  deriving DecidableEq

inductive RefEdit where
  | setHead (branch : Bytes) (target : CommitId)
  | createBranch (name : Bytes) (at_ : CommitId)
  | removeBranch (name : Bytes)
  | setTag (tag : Bytes) (target : CommitId)
  | removeTag (tag : Bytes)
  | recordCommit (commit : CommitId) (parents : List CommitId)
  | addParent (commit parent : CommitId)
  deriving DecidableEq

namespace Refs

/-- `Refs::default`. -/
def default : Refs :=
  { formatVersion := 0, branches := ∅, tags := ∅, commits := ∅ }

def rooted (branch : Bytes) (at_ : CommitId) : Refs :=
  { default with
    formatVersion := 1
    branches := (∅ : ExtTreeMap Bytes CommitId).insert branch at_ }

/-- Every commit a branch or a tag points at. -/
def roots (refs : Refs) : List CommitId :=
  (ExtTreeSet.ofList (refs.branches.toList.map Prod.snd ++ refs.tags.toList.map Prod.snd)
    compare).toList

def applyEdit (refs : Refs) : RefEdit → Refs
  | .setHead branch target => { refs with branches := refs.branches.insert branch target }
  | .createBranch name at_ => { refs with branches := refs.branches.insert name at_ }
  | .removeBranch name => { refs with branches := refs.branches.erase name }
  | .setTag tag target => { refs with tags := refs.tags.insert tag target }
  | .removeTag tag => { refs with tags := refs.tags.erase tag }
  | .recordCommit commit parents =>
      { refs with commits := refs.commits.insert commit parents }
  | .addParent commit parent =>
      let entry := (refs.commits[commit]?).getD []
      { refs with
        commits := refs.commits.insert commit
          (if parent ∈ entry then entry else entry ++ [parent]) }

/-- Edits applied in order. -/
def replay (refs : Refs) (edits : List RefEdit) : Refs :=
  edits.foldl applyEdit refs

@[simp]
theorem replay_nil (refs : Refs) : refs.replay [] = refs := rfl

@[simp]
theorem replay_cons (refs : Refs) (edit : RefEdit) (edits : List RefEdit) :
    refs.replay (edit :: edits) = (refs.applyEdit edit).replay edits := rfl

@[simp]
theorem formatVersion_replay (refs : Refs) (edits : List RefEdit) :
    (refs.replay edits).formatVersion = refs.formatVersion := by
  induction edits generalizing refs with
  | nil => rfl
  | cons edit edits ih =>
      rw [replay_cons, ih]
      cases edit <;> rfl

@[simp]
theorem replay_append (refs : Refs) (left right : List RefEdit) :
    refs.replay (left ++ right) = (refs.replay left).replay right := by
  simp [replay]

/-- Two refs with the same contents are equal. -/
theorem ext_getElem? {left right : Refs}
    (hversion : left.formatVersion = right.formatVersion)
    (hbranches : ∀ branch : Bytes, left.branches[branch]? = right.branches[branch]?)
    (htags : ∀ tag : Bytes, left.tags[tag]? = right.tags[tag]?)
    (hcommits : ∀ commit : CommitId, left.commits[commit]? = right.commits[commit]?) :
    left = right := by
  obtain ⟨_, _, _, _⟩ := left
  obtain ⟨_, _, _, _⟩ := right
  simp only [Refs.mk.injEq]
  exact ⟨hversion, ExtTreeMap.ext_getElem? hbranches, ExtTreeMap.ext_getElem? htags,
    ExtTreeMap.ext_getElem? hcommits⟩

end Refs

/-! ## Encodings -/

namespace Refs

def codec : Codec Refs :=
  (Codec.pair (Codec.uint 4) (Codec.pair (Codec.map Codec.bytes Codec.digest)
    (Codec.pair (Codec.map Codec.bytes Codec.digest)
      (Codec.map Codec.digest (Codec.list Codec.digest))))).iso
    (fun ⟨version, branches, tags, commits⟩ => ⟨version, branches, tags, commits⟩)
    (fun refs => (refs.formatVersion, refs.branches, refs.tags, refs.commits))
    (fun _ => rfl)

def encode (refs : Refs) : Bytes :=
  codec.serialize refs

/-- A refs file from a future version is refused, not guessed at. -/
def decode (bytes : Bytes) : Except LoomError Refs :=
  match codec.deserialize bytes with
  | none => .error (.codec "decode" "refs")
  | some refs =>
      if refs.formatVersion.val > REFS_FORMAT_VERSION then
        .error (.corruptNode 0 (s!"refs file is format version {refs.formatVersion.val}, " ++
          s!"but this build understands at most {REFS_FORMAT_VERSION}. Upgrade LoomDB, " ++
          "or restore an older refs file."))
      else .ok refs

/-- A format version this build understands. -/
def Readable (refs : Refs) : Prop :=
  refs.formatVersion.val ≤ REFS_FORMAT_VERSION

instance (refs : Refs) : Decidable refs.Readable :=
  inferInstanceAs (Decidable (_ ≤ _))

theorem decode_encode {refs : Refs} (hreadable : refs.Readable) :
    decode refs.encode = .ok refs := by
  simp [decode, encode, Nat.not_lt.mpr hreadable]

theorem readable_of_decode {bytes : Bytes} {refs : Refs}
    (hdecode : decode bytes = .ok refs) : refs.Readable := by
  unfold decode at hdecode
  split at hdecode
  · cases hdecode
  · split at hdecode
    · cases hdecode
    · next hversion =>
      obtain rfl := Except.ok.inj hdecode
      exact Nat.not_lt.mp hversion

theorem Readable.replay {refs : Refs} (hreadable : refs.Readable) (edits : List RefEdit) :
    (refs.replay edits).Readable := by
  unfold Readable
  rwa [formatVersion_replay]

end Refs

namespace RefEdit

/-- The fields of each variant, in tag order. -/
abbrev Payload : Fin 7 → Type
  | 0 => Bytes × CommitId
  | 1 => Bytes × CommitId
  | 2 => Bytes
  | 3 => Bytes × CommitId
  | 4 => Bytes
  | 5 => CommitId × List CommitId
  | 6 => CommitId × CommitId

def payloadCodec : (tag : Fin 7) → Codec (Payload tag)
  | 0 => Codec.pair Codec.bytes Codec.digest
  | 1 => Codec.pair Codec.bytes Codec.digest
  | 2 => Codec.bytes
  | 3 => Codec.pair Codec.bytes Codec.digest
  | 4 => Codec.bytes
  | 5 => Codec.pair Codec.digest (Codec.list Codec.digest)
  | 6 => Codec.pair Codec.digest Codec.digest

def ofPayload : (Σ tag, Payload tag) → RefEdit
  | ⟨0, branch, target⟩ => .setHead branch target
  | ⟨1, name, at_⟩ => .createBranch name at_
  | ⟨2, name⟩ => .removeBranch name
  | ⟨3, tag, target⟩ => .setTag tag target
  | ⟨4, tag⟩ => .removeTag tag
  | ⟨5, commit, parents⟩ => .recordCommit commit parents
  | ⟨6, commit, parent⟩ => .addParent commit parent

def toPayload : RefEdit → Σ tag, Payload tag
  | .setHead branch target => ⟨0, branch, target⟩
  | .createBranch name at_ => ⟨1, name, at_⟩
  | .removeBranch name => ⟨2, name⟩
  | .setTag tag target => ⟨3, tag, target⟩
  | .removeTag tag => ⟨4, tag⟩
  | .recordCommit commit parents => ⟨5, commit, parents⟩
  | .addParent commit parent => ⟨6, commit, parent⟩

def codec : Codec RefEdit :=
  (Codec.tagged 4 7 (by decide) payloadCodec).iso ofPayload toPayload
    (by rintro (_ | _ | _ | _ | _ | _ | _) <;> rfl)

end RefEdit

end LoomDB
