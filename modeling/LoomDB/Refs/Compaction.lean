import LoomDB.Foundations.Replay
import LoomDB.Refs.Recovery

/-!
# Crashes inside a compaction

A compaction writes the folded refs as the new snapshot and then truncates the
log. A crash in between leaves some prefix of the old log beside a snapshot that
already contains it, and loading replays that prefix once more. Edits overwrite,
so the whole log and the empty log change nothing; a strict prefix puts back
every value that a later edit of the log had replaced.
-/

namespace LoomDB

open Std

namespace RefEdit

/-- The branch whose head an edit decides. -/
def branch? : RefEdit → Option Bytes
  | .setHead branch _ => some branch
  | .createBranch name _ => some name
  | .removeBranch name => some name
  | _ => none

/-- The tag an edit decides. -/
def tag? : RefEdit → Option Bytes
  | .setTag tag _ => some tag
  | .removeTag tag => some tag
  | _ => none

/-- The commit whose parents an edit overwrites. -/
def recorded? : RefEdit → Option CommitId
  | .recordCommit commit _ => some commit
  | _ => none

end RefEdit

namespace Refs

/-! ## Readings and the edits that erase them -/

theorem branches_applyEdit_congr (branch : Bytes) (edit : RefEdit) (left right : Refs)
    (hread : edit.branch? = some branch ∨
      left.branches[branch]? = right.branches[branch]?) :
    (left.applyEdit edit).branches[branch]? = (right.applyEdit edit).branches[branch]? := by
  cases edit <;> simp [applyEdit, RefEdit.branch?, ExtTreeMap.getElem?_insert,
    ExtTreeMap.getElem?_erase] at hread ⊢ <;> grind

theorem tags_applyEdit_congr (tag : Bytes) (edit : RefEdit) (left right : Refs)
    (hread : edit.tag? = some tag ∨ left.tags[tag]? = right.tags[tag]?) :
    (left.applyEdit edit).tags[tag]? = (right.applyEdit edit).tags[tag]? := by
  cases edit <;> simp [applyEdit, RefEdit.tag?, ExtTreeMap.getElem?_insert,
    ExtTreeMap.getElem?_erase] at hread ⊢ <;> grind

theorem commits_applyEdit_congr (commit : CommitId) (edit : RefEdit) (left right : Refs)
    (hread : edit.recorded? = some commit ∨
      left.commits[commit]? = right.commits[commit]?) :
    (left.applyEdit edit).commits[commit]? = (right.applyEdit edit).commits[commit]? := by
  cases edit <;> simp [applyEdit, RefEdit.recorded?, ExtTreeMap.getElem?_insert] at hread ⊢ <;>
    grind

theorem branches_replay_congr {edits : List RefEdit} {left right : Refs} {branch : Bytes}
    (hread : (∃ edit ∈ edits, edit.branch? = some branch) ∨
      left.branches[branch]? = right.branches[branch]?) :
    (left.replay edits).branches[branch]? = (right.replay edits).branches[branch]? :=
  Replay.foldl_congr (branches_applyEdit_congr branch) edits hread

theorem tags_replay_congr {edits : List RefEdit} {left right : Refs} {tag : Bytes}
    (hread : (∃ edit ∈ edits, edit.tag? = some tag) ∨ left.tags[tag]? = right.tags[tag]?) :
    (left.replay edits).tags[tag]? = (right.replay edits).tags[tag]? :=
  Replay.foldl_congr (tags_applyEdit_congr tag) edits hread

theorem commits_replay_congr {edits : List RefEdit} {left right : Refs} {commit : CommitId}
    (hread : (∃ edit ∈ edits, edit.recorded? = some commit) ∨
      left.commits[commit]? = right.commits[commit]?) :
    (left.replay edits).commits[commit]? = (right.replay edits).commits[commit]? :=
  Replay.foldl_congr (commits_applyEdit_congr commit) edits hread

/-! ## Frames of a replay -/

theorem branches_replay_of_untouched {edits : List RefEdit} {branch : Bytes}
    (hedits : ¬∃ edit ∈ edits, edit.branch? = some branch) (refs : Refs) :
    (refs.replay edits).branches[branch]? = refs.branches[branch]? := by
  apply Replay.foldl_unread (fun next : Refs => next.branches[branch]?)
  intro edit hedit refs
  have huntouched : edit.branch? ≠ some branch := fun h => hedits ⟨edit, hedit, h⟩
  cases edit <;> simp_all [applyEdit, RefEdit.branch?, ExtTreeMap.getElem?_insert,
    ExtTreeMap.getElem?_erase]

theorem tags_replay_of_untouched {edits : List RefEdit} {tag : Bytes}
    (hedits : ¬∃ edit ∈ edits, edit.tag? = some tag) (refs : Refs) :
    (refs.replay edits).tags[tag]? = refs.tags[tag]? := by
  apply Replay.foldl_unread (fun next : Refs => next.tags[tag]?)
  intro edit hedit refs
  have huntouched : edit.tag? ≠ some tag := fun h => hedits ⟨edit, hedit, h⟩
  cases edit <;> simp_all [applyEdit, RefEdit.tag?, ExtTreeMap.getElem?_insert,
    ExtTreeMap.getElem?_erase]

/-- The parent is on record for the commit. -/
def HasParent (refs : Refs) (commit parent : CommitId) : Prop :=
  ∃ parents, refs.commits[commit]? = some parents ∧ parent ∈ parents

theorem HasParent.applyEdit {refs : Refs} {commit parent : CommitId} {edit : RefEdit}
    (hedit : edit.recorded? ≠ some commit)
    (hparent : edit = .addParent commit parent ∨ refs.HasParent commit parent) :
    (refs.applyEdit edit).HasParent commit parent := by
  unfold HasParent at hparent ⊢
  cases edit with
  | addParent child added =>
      by_cases hchild : child = commit
      · subst hchild
        refine ⟨_, ExtTreeMap.getElem?_insert_self, ?_⟩
        rcases hparent with hadd | ⟨parents, hparents, hmem⟩
        · obtain rfl : added = parent := by simpa using hadd
          split <;> simp_all
        · rw [hparents]
          split <;> simp_all
      · simp_all [Refs.applyEdit, ExtTreeMap.getElem?_insert]
  | recordCommit child parents =>
      have hchild : child ≠ commit := by simpa [RefEdit.recorded?] using hedit
      simpa [Refs.applyEdit, ExtTreeMap.getElem?_insert, hchild] using hparent
  | _ => simpa [Refs.applyEdit] using hparent

theorem hasParent_replay {edits : List RefEdit} {refs : Refs} {commit parent : CommitId}
    (hedits : ¬∃ edit ∈ edits, edit.recorded? = some commit)
    (hparent : .addParent commit parent ∈ edits ∨ refs.HasParent commit parent) :
    (refs.replay edits).HasParent commit parent := by
  induction edits generalizing refs with
  | nil => simpa using hparent
  | cons edit edits ih =>
      have hedit : edit.recorded? ≠ some commit := fun h =>
        hedits ⟨edit, List.mem_cons_self, h⟩
      apply ih fun ⟨other, hother, h⟩ => hedits ⟨other, List.mem_cons_of_mem _ hother, h⟩
      rcases hparent with hadd | hparent
      · rcases List.mem_cons.mp hadd with hadd | hadd
        · exact Or.inr (HasParent.applyEdit hedit (Or.inl hadd.symm))
        · exact Or.inl hadd
      · exact Or.inr (HasParent.applyEdit hedit (Or.inr hparent))

/-- An edit that only adds a parent already on record changes nothing. -/
theorem commits_applyEdit_of_hasParent {refs : Refs} {commit : CommitId} {edit : RefEdit}
    (hedit : edit.recorded? ≠ some commit)
    (hadds : ∀ parent, edit = .addParent commit parent → refs.HasParent commit parent) :
    (refs.applyEdit edit).commits[commit]? = refs.commits[commit]? := by
  cases edit with
  | addParent child added =>
      by_cases hchild : child = commit
      · subst hchild
        obtain ⟨parents, hparents, hmem⟩ := hadds added rfl
        simp [applyEdit, hparents, hmem]
      · simp [applyEdit, ExtTreeMap.getElem?_insert, hchild]
  | recordCommit child parents =>
      have hchild : child ≠ commit := by simpa [RefEdit.recorded?] using hedit
      simp [applyEdit, ExtTreeMap.getElem?_insert, hchild]
  | _ => rfl

/-- Edits that do not overwrite a commit's parents leave them alone exactly
when every parent they add is on record already. -/
theorem commits_replay_of_unrecorded {edits : List RefEdit} {commit : CommitId}
    (hedits : ¬∃ edit ∈ edits, edit.recorded? = some commit) (refs : Refs) :
    (refs.replay edits).commits[commit]? = refs.commits[commit]? ↔
      ∀ parent, .addParent commit parent ∈ edits → refs.HasParent commit parent := by
  constructor
  · intro hsame parent hadd
    have hparent : (refs.replay edits).HasParent commit parent :=
      hasParent_replay hedits (Or.inl hadd)
    unfold HasParent at hparent ⊢
    rwa [hsame] at hparent
  · intro hadds
    have hkeep : ∀ edit ∈ edits, ∀ next : Refs,
        next.commits[commit]? = refs.commits[commit]? →
        (next.applyEdit edit).commits[commit]? = refs.commits[commit]? := by
      intro edit hedit next hnext
      rw [← hnext]
      apply commits_applyEdit_of_hasParent fun h => hedits ⟨edit, hedit, h⟩
      rintro parent rfl
      unfold HasParent
      rw [hnext]
      exact hadds parent hedit
    exact Replay.foldl_keeps edits hkeep rfl

/-! ## Replaying part of a log again -/

/-- What a second replay of `kept` puts back is what the whole of `log` left:
the heads and tags `kept` decides, the commits it records, and the parents it
adds to other commits. -/
structure Settled (base : Refs) (kept log : List RefEdit) : Prop where
  branches : ∀ branch, (∃ edit ∈ kept, edit.branch? = some branch) →
    (base.replay kept).branches[branch]? = (base.replay log).branches[branch]?
  tags : ∀ tag, (∃ edit ∈ kept, edit.tag? = some tag) →
    (base.replay kept).tags[tag]? = (base.replay log).tags[tag]?
  recorded : ∀ commit, (∃ edit ∈ kept, edit.recorded? = some commit) →
    (base.replay kept).commits[commit]? = (base.replay log).commits[commit]?
  added : ∀ commit parent, (¬∃ edit ∈ kept, edit.recorded? = some commit) →
    .addParent commit parent ∈ kept → (base.replay log).HasParent commit parent

theorem replay_again_iff (base : Refs) (kept log : List RefEdit) :
    (base.replay log).replay kept = base.replay log ↔ Settled base kept log := by
  constructor
  · intro hsame
    refine ⟨?_, ?_, ?_, ?_⟩
    · intro branch htouched
      rw [← hsame]
      exact branches_replay_congr (Or.inl htouched)
    · intro tag htouched
      rw [← hsame]
      exact tags_replay_congr (Or.inl htouched)
    · intro commit hrecorded
      rw [← hsame]
      exact commits_replay_congr (Or.inl hrecorded)
    · intro commit parent hunrecorded hadd
      apply (commits_replay_of_unrecorded hunrecorded _).mp _ parent hadd
      rw [hsame]
  · intro hsettled
    apply ext_getElem?
    · simp
    · intro branch
      by_cases htouched : ∃ edit ∈ kept, edit.branch? = some branch
      · rw [← hsettled.branches branch htouched]
        exact branches_replay_congr (Or.inl htouched)
      · exact branches_replay_of_untouched htouched _
    · intro tag
      by_cases htouched : ∃ edit ∈ kept, edit.tag? = some tag
      · rw [← hsettled.tags tag htouched]
        exact tags_replay_congr (Or.inl htouched)
      · exact tags_replay_of_untouched htouched _
    · intro commit
      by_cases hrecorded : ∃ edit ∈ kept, edit.recorded? = some commit
      · rw [← hsettled.recorded commit hrecorded]
        exact commits_replay_congr (Or.inl hrecorded)
      · exact (commits_replay_of_unrecorded hrecorded _).mpr fun parent =>
          hsettled.added commit parent hrecorded

end Refs

namespace FileRefStore

variable {blake3 : Bytes → Digest}

/-- After a crash at `cut` inside a compaction, loading gives what the disk
stood for before it. -/
def CompactionSafe (blake3 : Bytes → Digest) (store : FileRefStore) (cut : PowerCut) : Prop :=
  (store.compact blake3 (some cut)).2.disk.refs blake3 = store.disk.refs blake3

/-- A compaction cut inside the truncate replays what is left of the log on
the refs it had just folded. -/
theorem compact_duringTruncate {store : FileRefStore} {base : Refs} {log : Bytes}
    (hbase : store.disk.Baseline base) (hlog : store.disk.log = some log) (kept : ℕ) :
    (store.compact blake3 (some (.duringTruncate kept))).2.disk.refs blake3 =
      .ok ((base.replay (framesDecode blake3 log)).replay
        (framesDecode blake3 (log.take kept))) := by
  have hrefs : store.disk.refs blake3 = _ := Disk.refs_eq hbase
  rw [readLog_eq, hlog, Option.getD_some] at hrefs
  have hreadable := hbase.readable.replay (framesDecode blake3 log)
  rw [compact_eq _ hrefs]
  simp only [writeSnapshotAndResetLog, hlog]
  rw [if_neg (by simp), Disk.refs_eq (Disk.baseline_snapshot hreadable _ _), readLog_eq, Option.getD_some]

/-- At the other crash points the log is as it was, or the snapshot has all of
it. -/
theorem compact_otherwise {store : FileRefStore} {base : Refs} {cut : PowerCut}
    (hbase : store.disk.Baseline base)
    (hcut : store.disk.log = none ∨ ∀ kept, cut ≠ .duringTruncate kept) :
    CompactionSafe blake3 store cut := by
  have hrefs : store.disk.refs blake3 = _ := Disk.refs_eq hbase
  have hreadable := hbase.readable.replay (store.disk.readLog blake3)
  unfold CompactionSafe
  rw [compact_eq _ hrefs, hrefs, writeSnapshotAndResetLog]
  by_cases hrename : some cut = some PowerCut.beforeRename
  · rw [if_pos hrename, hrefs]
  · rw [if_neg hrename]
    split
    · next log kept hlog hkept =>
      rcases hcut with hnone | hcut
      · simp [hnone] at hlog
      · exact absurd (Option.some.inj hkept) (hcut kept)
    · have hempty : ∀ log : Option Bytes, framesDecode blake3 ((log.map fun _ => []).getD []) =
          [] := by
        intro log
        cases log <;> simp [framesDecode, FrameFormat.decodeFrames_nil]
      rw [Disk.refs_eq (Disk.baseline_snapshot hreadable _ _)]
      simp only [readLog_eq, hempty, Refs.replay_nil]

/-- A crash inside a compaction is harmless exactly when everything that the
rest of the log decides is settled: nothing it decided was decided again by an
edit of the log that the truncate removed. -/
theorem compactionSafe_iff {store : FileRefStore} {base : Refs}
    (hbase : store.disk.Baseline base) (cut : PowerCut) :
    CompactionSafe blake3 store cut ↔
      ∀ kept, cut = .duringTruncate kept →
        Refs.Settled base (framesDecode blake3 ((store.disk.log.getD []).take kept))
          (store.disk.readLog blake3) := by
  have hrefs : store.disk.refs blake3 = _ := Disk.refs_eq hbase
  cases hlog : store.disk.log with
  | none =>
      refine iff_of_true (compact_otherwise hbase (Or.inl hlog)) ?_
      intro kept _
      rw [← Refs.replay_again_iff]
      simp [framesDecode, FrameFormat.decodeFrames_nil]
  | some log =>
      by_cases hcut : ∀ kept, cut ≠ .duringTruncate kept
      · exact iff_of_true (compact_otherwise hbase (Or.inr hcut))
          fun kept h => absurd h (hcut kept)
      · obtain ⟨kept, rfl⟩ := not_forall_not.mp hcut
        unfold CompactionSafe
        rw [compact_duringTruncate hbase hlog, hrefs, readLog_eq, hlog, Option.getD_some, Except.ok.injEq,
          Refs.replay_again_iff]
        constructor
        · rintro hsettled other hother
          obtain rfl := PowerCut.duringTruncate.inj hother
          exact hsettled
        · exact fun hsettled => hsettled kept rfl

/-- A log whose cut leaves a settled prefix. -/
theorem compactionSafe_iff_settled :
    CompactionSafe (fun payload => Fin.ofNat (256 ^ 32) (leValue payload))
      (openInner { Disk.empty with
        log := some ((refFrame fun payload => Fin.ofNat (256 ^ 32) (leValue payload)).frames
          [.setHead (ascii "main") 1, .setTag (ascii "v1") 1]) })
      (.duringTruncate 60) := by
  refine (compactionSafe_iff ⟨none, rfl, rfl⟩ _).mpr fun kept hkept => ?_
  obtain rfl := PowerCut.duringTruncate.inj hkept
  rw [← Refs.replay_again_iff]
  decide +kernel

def olderHead : RefEdit := .setHead (ascii "main") 1
def newerHead : RefEdit := .setHead (ascii "main") 2

theorem length_heads : (RefEdit.codec.serialize olderHead).length = 48 ∧
    (RefEdit.codec.serialize newerHead).length = 48 := by
  decide +kernel

/-- The truncate leaves the first of two frames: the branch goes back to the
older head, whatever the hash function. -/
theorem torn_truncate_reverts_head :
    ¬∃ blake3, CompactionSafe blake3
      (openInner { Disk.empty with
        log := some ((refFrame blake3).frames [olderHead, newerHead]) })
      (.duringTruncate 60) := by
  rintro ⟨blake3, hsafe⟩
  obtain ⟨hold, hnew⟩ := length_heads
  have hfits : AllFit blake3 [olderHead, newerHead] := by
    simp only [AllFit, List.forall_mem_cons, FrameFormat.Fits, refFrame, hold, hnew]
    simp
  have hkept : (refFrame blake3).survivors [olderHead, newerHead] 60 = [olderHead] := by
    simp only [FrameFormat.survivors, length_refFrame, hold, hnew]
    rfl
  have hbase : Disk.Baseline { Disk.empty with
      log := some ((refFrame blake3).frames [olderHead, newerHead]) } Refs.default :=
    ⟨none, rfl, rfl⟩
  unfold CompactionSafe at hsafe
  rw [compact_duringTruncate hbase rfl] at hsafe
  simp only [openInner] at hsafe
  rw [Disk.refs_eq hbase, readLog_eq, Option.getD_some] at hsafe
  simp only [framesDecode] at hsafe
  rw [FrameFormat.decodeFrames_frames _ hfits, FrameFormat.decodeFrames_take _ hfits,
    hkept] at hsafe
  have hheads := congrArg (fun refs => refs.branches[ascii "main"]?) (Except.ok.inj hsafe)
  simp [olderHead, newerHead, Refs.applyEdit] at hheads

end FileRefStore

end LoomDB
