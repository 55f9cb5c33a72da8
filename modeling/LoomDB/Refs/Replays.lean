import LoomDB.Refs.Compaction

/-!
# Replaying a whole log again

The edits of a log do not commute, but the whole log replayed on refs that already contain it
changes nothing. So a compaction that stops before its truncate leaves a disk that stands for the
same refs, and goes on to do so while the log grows.
-/

namespace LoomDB

namespace Refs

/-- A log settles everything that it decides. -/
theorem settled_self (base : Refs) (log : List RefEdit) : Settled base log log where
  branches _ _ := rfl
  tags _ _ := rfl
  recorded _ _ := rfl
  added _ _ hunrecorded hadd := hasParent_replay hunrecorded (Or.inl hadd)

theorem replay_replay_self (base : Refs) (log : List RefEdit) :
    (base.replay log).replay log = base.replay log :=
  (replay_again_iff base log log).mpr (settled_self base log)

theorem replay_replay_append (base : Refs) (log later : List RefEdit) :
    (base.replay log).replay (log ++ later) = base.replay (log ++ later) := by
  rw [replay_append, replay_replay_self, replay_append]

end Refs

namespace FileRefStore

variable {blake3 : Bytes → Digest}

/-- A compaction that gets this far leaves the whole log. -/
def LeavesLog (log : Bytes) : PowerCut → Prop
  | .duringAppend _ => False
  | .beforeRename => True
  | .duringTruncate kept => log.length ≤ kept

/-- Batches appended, compactions interrupted before their truncate, and reopenings; the batches
are those of the calls, in order. -/
inductive Interrupted (blake3 : Bytes → Digest) (store : FileRefStore) :
    List RefEdit → FileRefStore → Prop
  | refl : Interrupted blake3 store [] store
  | apply {edits : List RefEdit} {next : FileRefStore} {cut : PowerCut} (batch : List RefEdit)
      (ran : Interrupted blake3 store edits next)
      (left : LeavesLog (next.disk.log.getD [] ++ (refFrame blake3).frames batch) cut) :
      Interrupted blake3 store (edits ++ batch) (next.apply blake3 (some cut) batch).2
  | compact {edits : List RefEdit} {next : FileRefStore} {cut : PowerCut}
      (ran : Interrupted blake3 store edits next)
      (left : LeavesLog (next.disk.log.getD []) cut) :
      Interrupted blake3 store edits (next.compact blake3 (some cut)).2
  | reopen {edits : List RefEdit} {next : FileRefStore} (ran : Interrupted blake3 store edits next) :
      Interrupted blake3 store edits next.reopen

/-- The snapshot of the disk already contains the first edits of its log, on top of `base`. -/
def Contains (blake3 : Bytes → Digest) (base : Refs) (disk : Disk) : Prop :=
  ∃ folded, disk.Baseline (base.replay folded) ∧ folded <+: disk.readLog blake3

theorem Contains.refs_eq {base : Refs} {disk : Disk} (hcontains : Contains blake3 base disk) :
    disk.refs blake3 = .ok (base.replay (disk.readLog blake3)) := by
  obtain ⟨folded, hbaseline, later, hlater⟩ := hcontains
  rw [Disk.refs_eq hbaseline, ← hlater, Refs.replay_replay_append]

/-- Appending to a log keeps what was read from it. -/
theorem readLog_append (disk : Disk) (bytes : Bytes) :
    disk.readLog blake3 <+: (disk.append bytes).readLog blake3 := by
  rw [readLog_eq, readLog_eq]
  have hstarts := (refFrame blake3).decodeFrames_take_eq (disk.log.getD [] ++ bytes)
    (disk.log.getD []).length
  rw [List.take_left] at hstarts
  exact hstarts

theorem Contains.append {base : Refs} {disk : Disk} (hcontains : Contains blake3 base disk)
    (bytes : Bytes) : Contains blake3 base (disk.append bytes) := by
  obtain ⟨folded, hbaseline, hfolded⟩ := hcontains
  exact ⟨folded, baseline_append hbaseline bytes, hfolded.trans (readLog_append disk bytes)⟩

/-- Up to there a compaction has changed nothing but the snapshot. -/
theorem writeSnapshotAndResetLog_left {store : FileRefStore} {cut : PowerCut} (refs : Refs)
    (hleft : LeavesLog (store.disk.log.getD []) cut) :
    (store.writeSnapshotAndResetLog (some cut) refs).2.disk = store.disk ∨
      (store.writeSnapshotAndResetLog (some cut) refs).2.disk =
        { store.disk with snapshot := some refs.encode } := by
  unfold writeSnapshotAndResetLog
  cases cut with
  | duringAppend kept => exact absurd hleft id
  | beforeRename => exact Or.inl rfl
  | duringTruncate kept =>
      right
      rw [if_neg (by simp)]
      cases hlog : store.disk.log with
      | none => simp [hlog]
      | some log =>
          rw [hlog] at hleft
          have hwhole : log.take kept = log := List.take_of_length_le hleft
          simp [hlog, hwhole]

theorem Contains.compact {base : Refs} {store : FileRefStore} {cut : PowerCut}
    (hcontains : Contains blake3 base store.disk)
    (hleft : LeavesLog (store.disk.log.getD []) cut) :
    (store.compact blake3 (some cut)).2.disk.log = store.disk.log ∧
      Contains blake3 base (store.compact blake3 (some cut)).2.disk := by
  have hreadable : (base.replay (store.disk.readLog blake3)).Readable := by
    obtain ⟨folded, hbaseline, later, hlater⟩ := hcontains
    rw [← hlater, Refs.replay_append]
    exact hbaseline.readable.replay later
  rw [compact_eq _ hcontains.refs_eq]
  rcases writeSnapshotAndResetLog_left (base.replay (store.disk.readLog blake3)) hleft with
    hsame | hfolded
  · rw [hsame]
    exact ⟨rfl, hcontains⟩
  · rw [hfolded]
    exact ⟨rfl, store.disk.readLog blake3, Disk.baseline_snapshot hreadable _ _, List.prefix_rfl⟩

/-- The store once the batch is in its log. -/
def appended (blake3 : Bytes → Digest) (store : FileRefStore) (batch : List RefEdit) :
    FileRefStore :=
  { store with
    disk := store.disk.append ((refFrame blake3).frames batch)
    logBytes := store.logBytes + ((refFrame blake3).frames batch).length }

/-- A call whose append goes through compacts what it appended, or stops there. -/
theorem apply_appended (blake3 : Bytes → Digest) (store : FileRefStore) {cut : PowerCut}
    {batch : List RefEdit} {log : Bytes} (hbatch : batch ≠ []) (hleft : LeavesLog log cut) :
    store.apply blake3 (some cut) batch = (store.appended blake3 batch).compact blake3 (some cut) ∨
      store.apply blake3 (some cut) batch = (.ok (), store.appended blake3 batch) := by
  unfold FileRefStore.apply
  rw [if_neg hbatch]
  cases cut with
  | duringAppend kept => exact absurd hleft id
  | beforeRename => exact ite_eq_or_eq _ _ _
  | duringTruncate kept => exact ite_eq_or_eq _ _ _

/-- An interrupted call appends its batch and nothing else. -/
theorem Contains.apply {base : Refs} {store : FileRefStore} {cut : PowerCut} {batch : List RefEdit}
    (hcontains : Contains blake3 base store.disk)
    (hleft : LeavesLog (store.disk.log.getD [] ++ (refFrame blake3).frames batch) cut) :
    (store.apply blake3 (some cut) batch).2.disk.log.getD [] =
        store.disk.log.getD [] ++ (refFrame blake3).frames batch ∧
      Contains blake3 base (store.apply blake3 (some cut) batch).2.disk := by
  by_cases hbatch : batch = []
  · subst hbatch
    rw [FrameFormat.frames_nil, List.append_nil]
    exact ⟨rfl, hcontains⟩
  have happended : Contains blake3 base (store.appended blake3 batch).disk := hcontains.append _
  rcases apply_appended blake3 store hbatch hleft with hcompacts | hstops
  · rw [hcompacts]
    obtain ⟨hlog, hnext⟩ := happended.compact hleft
    exact ⟨congrArg (fun log => log.getD []) hlog, hnext⟩
  · rw [hstops]
    exact ⟨rfl, happended⟩

/-- The log has grown by the batches of the run, and the snapshot is some of it. -/
theorem Interrupted.contains {base : Refs} {store next : FileRefStore} {edits : List RefEdit}
    (hran : Interrupted blake3 store edits next) (hbaseline : store.disk.Baseline base) :
    next.disk.log.getD [] = store.disk.log.getD [] ++ (refFrame blake3).frames edits ∧
      Contains blake3 base next.disk := by
  induction hran with
  | refl =>
      rw [FrameFormat.frames_nil, List.append_nil]
      exact ⟨rfl, [], hbaseline, List.nil_prefix⟩
  | apply batch _ left ih =>
      obtain ⟨hlog, hcontains⟩ := ih
      obtain ⟨hgrown, hnext⟩ := hcontains.apply left
      rw [hgrown, hlog, FrameFormat.frames_append, List.append_assoc]
      exact ⟨rfl, hnext⟩
  | compact _ left ih =>
      obtain ⟨hlog, hcontains⟩ := ih
      obtain ⟨hkept, hnext⟩ := hcontains.compact left
      rw [hkept]
      exact ⟨hlog, hnext⟩
  | reopen _ ih => exact ih

/-- A whole log may be replayed again, with what was appended to it since: any number of
compactions interrupted before their truncate leave a disk that stands for the replay of its log on
the first snapshot, and where the log is whole frames, for the refs of the first disk with all
edits since. -/
theorem replay_twice (blake3 : Bytes → Digest) :
    (∀ (refs : Refs) (log : List RefEdit), (refs.replay log).replay log = refs.replay log) ∧
    (∀ (refs : Refs) (log later : List RefEdit),
      (refs.replay log).replay (log ++ later) = refs.replay (log ++ later)) ∧
    (∀ {store next : FileRefStore} {base : Refs} {edits : List RefEdit},
      store.disk.Baseline base → Interrupted blake3 store edits next →
      next.disk.log.getD [] = store.disk.log.getD [] ++ (refFrame blake3).frames edits ∧
        next.disk.refs blake3 = .ok (base.replay (next.disk.readLog blake3))) ∧
    ∀ {store next : FileRefStore} {refs : Refs} {edits : List RefEdit},
      Clean blake3 store refs → AllFit blake3 edits → Interrupted blake3 store edits next →
      next.disk.refs blake3 = .ok (refs.replay edits) := by
  refine ⟨Refs.replay_replay_self, Refs.replay_replay_append, ?_, ?_⟩
  · intro store next base edits hbaseline hran
    obtain ⟨hlog, hcontains⟩ := hran.contains hbaseline
    exact ⟨hlog, hcontains.refs_eq⟩
  · rintro store next refs edits ⟨base, kept, hbaseline, hkept, hstart, rfl⟩ hfits hran
    obtain ⟨hlog, hcontains⟩ := hran.contains hbaseline
    have hall : AllFit blake3 (kept ++ edits) := List.forall_mem_append.mpr ⟨hkept, hfits⟩
    have hread : next.disk.readLog blake3 = kept ++ edits := by
      rw [readLog_eq, hlog, hstart, ← FrameFormat.frames_append]
      exact FrameFormat.decodeFrames_frames _ hall
    rw [hcontains.refs_eq, hread, Refs.replay_append]

/-- A store that compacts at every call. -/
def eagerStore : FileRefStore :=
  (openInner Disk.empty).withCompactFloor 0

/-- A hash of 32 bytes. -/
def valueHash (payload : Bytes) : Digest :=
  Fin.ofNat (256 ^ 32) (leValue payload)

/-- The first call is interrupted in its truncate, the second before its rename. -/
def eagerTwice : FileRefStore :=
  ((eagerStore.apply valueHash (some (.duringTruncate 60)) [.setHead (ascii "main") 1]).2.apply
    valueHash (some .beforeRename) [.setHead (ascii "main") 2]).2

theorem replay_twice_eager :
    eagerTwice.disk.refs valueHash =
      .ok (Refs.default.replay [.setHead (ascii "main") 1, .setHead (ascii "main") 2]) := by
  have hclean : Clean valueHash eagerStore Refs.default := clean_empty
  have hran : Interrupted valueHash eagerStore
      ([] ++ [.setHead (ascii "main") 1] ++ [.setHead (ascii "main") 2]) eagerTwice := by
    refine .apply _ (.apply _ .refl ?_) trivial
    show _ ≤ _
    decide +kernel
  refine (replay_twice valueHash).2.2.2 hclean ?_ hran
  simp only [AllFit, List.forall_mem_cons]
  decide +kernel

end FileRefStore

end LoomDB
