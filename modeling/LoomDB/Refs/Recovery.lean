import LoomDB.Refs.Store

/-!
# Recovery after torn appends

Runs of the ref store through any number of acknowledged batches, power cuts
inside an append, and reopenings. Opening leaves a torn tail in place and the
next append goes behind it, so what is acknowledged after a tear is only
recovered when the tear fell between two frames.
-/

namespace LoomDB

inductive StoreEvent where
  /-- A call that the power does not interrupt. -/
  | apply (batch : List RefEdit)
  /-- A call whose append stops after `kept` bytes; a new process then opens
  the store. -/
  | powerCut (batch : List RefEdit) (kept : ℕ)
  | reopen
  deriving DecidableEq

namespace StoreEvent

/-- The batch an event hands to the store. -/
def batch : StoreEvent → List RefEdit
  | .apply batch => batch
  | .powerCut batch _ => batch
  | .reopen => []

/-- The event puts bytes at the end of the log. -/
def Appends : StoreEvent → Prop
  | .apply batch => batch ≠ []
  | .powerCut batch kept => batch ≠ [] ∧ kept ≠ 0
  | .reopen => False

end StoreEvent

/-- A batch handed to the store, and whether its call returned `Ok`. -/
structure Submitted where
  batch : List RefEdit
  acknowledged : Bool
  deriving DecidableEq

/-- The edits contain every acknowledged batch in full and a prefix of each of
the others, in the order the batches were submitted. -/
inductive Accounted : List Submitted → List RefEdit → Prop
  | nil : Accounted [] []
  | acknowledged {batch edits : List RefEdit} {rest : List Submitted} :
      Accounted rest edits → Accounted (⟨batch, true⟩ :: rest) (batch ++ edits)
  | interrupted {batch kept edits : List RefEdit} {rest : List Submitted} :
      kept <+: batch → Accounted rest edits →
      Accounted (⟨batch, false⟩ :: rest) (kept ++ edits)

namespace FileRefStore

variable (blake3 : Bytes → Digest)

def reopen (store : FileRefStore) : FileRefStore :=
  (openInner store.disk).withCompactFloor store.compactFloor

def step (store : FileRefStore) : StoreEvent → List Submitted × FileRefStore
  | .apply batch =>
      let (result, store) := store.apply blake3 none batch
      ([⟨batch, result.isOk⟩], store)
  | .powerCut batch kept =>
      let (result, store) := store.apply blake3 (some (.duringAppend kept)) batch
      ([⟨batch, result.isOk⟩], store.reopen)
  | .reopen => ([], store.reopen)

def run : FileRefStore → List StoreEvent → List Submitted × FileRefStore
  | store, [] => ([], store)
  | store, event :: events =>
      let (submitted, store) := store.step blake3 event
      let (later, store) := run store events
      (submitted ++ later, store)

/-- The refs loaded at the end of a run are the replay of what was submitted:
acknowledged batches in full, the others up to a prefix. -/
def NothingLost (store : FileRefStore) (base : Refs) (events : List StoreEvent) : Prop :=
  ∃ edits, Accounted (store.run blake3 events).1 edits ∧
    (store.run blake3 events).2.reopen.disk.refs blake3 =
      .ok (base.replay edits)

/-- Every cut that is followed by another append fell between two frames. -/
def TearsAreLast : List StoreEvent → Prop
  | [] => True
  | .powerCut batch kept :: events =>
      ((refFrame blake3).Aligned batch kept ∨ ∀ event ∈ events, ¬event.Appends) ∧
        TearsAreLast events
  | _ :: events => TearsAreLast events

/-- The length of every edit is representable in its frame. -/
def AllFit (edits : List RefEdit) : Prop :=
  ∀ edit ∈ edits, (refFrame blake3).Fits edit

variable {blake3}

/-! ## Stores without a torn tail -/

/-- The log is whole frames, and the disk stands for `refs`. -/
def Clean (blake3 : Bytes → Digest) (store : FileRefStore) (refs : Refs) : Prop :=
  ∃ base edits, store.disk.Baseline base ∧ AllFit blake3 edits ∧
    store.disk.log.getD [] = (refFrame blake3).frames edits ∧
    refs = base.replay edits

theorem readLog_eq (disk : Disk) :
    disk.readLog blake3 = framesDecode blake3 (disk.log.getD []) := by
  cases hlog : disk.log <;> simp [Disk.readLog, hlog, framesDecode,
    FrameFormat.decodeFrames_nil]

theorem baseline_append {disk : Disk} {base : Refs} (hbase : disk.Baseline base)
    (bytes : Bytes) : (disk.append bytes).Baseline base := hbase

/-- A clean store loads the refs it stands for, and so does one with a torn
frame behind them. -/
theorem Clean.refs_append {store : FileRefStore} {refs : Refs}
    (hclean : Clean blake3 store refs) (bytes : Bytes) :
    (store.disk.append bytes).refs blake3 =
      .ok (refs.replay (framesDecode blake3 bytes)) := by
  obtain ⟨base, edits, hbase, hfits, hlog, rfl⟩ := hclean
  rw [Disk.refs_eq (baseline_append hbase bytes), readLog_eq]
  simp only [Disk.append, Option.getD_some, hlog, framesDecode]
  rw [FrameFormat.decodeFrames_frames_append _ hfits, Refs.replay_append]

theorem Clean.refs_eq {store : FileRefStore} {refs : Refs}
    (hclean : Clean blake3 store refs) :
    store.disk.refs blake3 = .ok refs := by
  obtain ⟨base, edits, hbase, hfits, hlog, rfl⟩ := hclean
  rw [Disk.refs_eq hbase, readLog_eq, hlog, framesDecode,
    FrameFormat.decodeFrames_frames _ hfits]

theorem Clean.append {store : FileRefStore} {refs : Refs}
    (hclean : Clean blake3 store refs) {batch : List RefEdit}
    (hfits : AllFit blake3 batch) {next : FileRefStore}
    (hnext : next.disk = store.disk.append ((refFrame blake3).frames batch)) :
    Clean blake3 next (refs.replay batch) := by
  obtain ⟨base, edits, hbase, hold, hlog, rfl⟩ := hclean
  refine ⟨base, edits ++ batch, hnext ▸ hbase, ?_, ?_, ?_⟩
  · intro edit hedit
    rcases List.mem_append.mp hedit with hedit | hedit
    · exact hold edit hedit
    · exact hfits edit hedit
  · simp [hnext, Disk.append, hlog]
  · simp

theorem writeSnapshotAndResetLog_none (store : FileRefStore) (refs : Refs) :
    store.writeSnapshotAndResetLog none refs =
      (.ok (), { store with
        disk := { snapshot := some refs.encode
                  log := store.disk.log.map fun _ => []
                  legacy := store.disk.legacy }
        snapshotBytes := refs.encode.length
        logBytes := 0 }) := by
  cases hlog : store.disk.log <;> simp [writeSnapshotAndResetLog, hlog]

/-- What is folded into the new snapshot is what the disk stands for. -/
theorem compact_eq {store : FileRefStore} {refs : Refs} (cut : Option PowerCut)
    (hrefs : store.disk.refs blake3 = .ok refs) :
    store.compact blake3 cut = store.writeSnapshotAndResetLog cut refs := by
  unfold Disk.refs at hrefs
  unfold FileRefStore.compact load
  cases hload : store.disk.reconstruct blake3 with
  | error error => rw [hload] at hrefs; cases hrefs
  | ok loaded =>
      rw [hload] at hrefs
      obtain rfl : loaded.getD Refs.default = refs := Except.ok.inj hrefs
      rfl

/-- Compaction of a clean store keeps the refs. -/
theorem Clean.compact {store : FileRefStore} {refs : Refs}
    (hclean : Clean blake3 store refs) :
    ∃ next, store.compact blake3 none = (.ok (), next) ∧ Clean blake3 next refs := by
  rw [compact_eq none hclean.refs_eq, writeSnapshotAndResetLog_none]
  obtain ⟨base, edits, hbase, _, _, rfl⟩ := hclean
  have hreadable := hbase.readable.replay edits
  refine ⟨_, rfl, base.replay edits, [], Disk.baseline_snapshot hreadable _ _,
    by simp [AllFit], ?_, rfl⟩
  cases store.disk.log <;> rfl

/-- An uninterrupted call on a clean store is acknowledged and keeps it
clean. -/
theorem Clean.apply {store : FileRefStore} {refs : Refs}
    (hclean : Clean blake3 store refs) {batch : List RefEdit}
    (hfits : AllFit blake3 batch) :
    ∃ next, store.apply blake3 none batch = (.ok (), next) ∧
      Clean blake3 next (refs.replay batch) := by
  by_cases hbatch : batch = []
  · exact ⟨store, by simp [FileRefStore.apply, hbatch], by simpa [hbatch] using hclean⟩
  · simp only [FileRefStore.apply, if_neg hbatch]
    split
    · exact (hclean.append hfits rfl).compact
    · exact ⟨_, rfl, hclean.append hfits rfl⟩

theorem Clean.reopen {store : FileRefStore} {refs : Refs}
    (hclean : Clean blake3 store refs) : Clean blake3 store.reopen refs := hclean

/-! ## Runs -/

theorem refs_append_nil (disk : Disk) :
    (disk.append []).refs blake3 = disk.refs blake3 := by
  have hlog : (disk.append []).readLog blake3 = disk.readLog blake3 := by
    simp [readLog_eq, Disk.append]
  unfold Disk.refs Disk.reconstruct
  rw [hlog]
  rfl

/-- An event that appends nothing leaves the disk as it is, and what it owes
is already there. -/
theorem step_of_not_appends {event : StoreEvent} {store : FileRefStore}
    (hquiet : ¬event.Appends) {rest : List Submitted} (hrest : Accounted rest []) :
    Accounted ((store.step blake3 event).1 ++ rest) [] ∧
      (store.step blake3 event).2.disk.refs blake3 =
        store.disk.refs blake3 := by
  cases event with
  | apply batch =>
      obtain rfl : batch = [] := by simpa [StoreEvent.Appends] using hquiet
      exact ⟨hrest.acknowledged, rfl⟩
  | reopen => exact ⟨hrest, rfl⟩
  | powerCut batch kept =>
      by_cases hbatch : batch = []
      · subst hbatch
        exact ⟨hrest.acknowledged, rfl⟩
      · obtain rfl : kept = 0 := by simpa [StoreEvent.Appends, hbatch] using hquiet
        simp only [step, FileRefStore.apply, if_neg hbatch]
        refine ⟨hrest.interrupted List.nil_prefix, ?_⟩
        exact refs_append_nil store.disk

theorem run_of_no_appends {events : List StoreEvent} {store : FileRefStore}
    (hquiet : ∀ event ∈ events, ¬event.Appends) :
    Accounted (store.run blake3 events).1 [] ∧
      (store.run blake3 events).2.disk.refs blake3 =
        store.disk.refs blake3 := by
  induction events generalizing store with
  | nil => exact ⟨.nil, rfl⟩
  | cons event events ih =>
      have hrest : ∀ other ∈ events, ¬other.Appends := fun other hother =>
        hquiet other (List.mem_cons_of_mem _ hother)
      obtain ⟨hlater, hload⟩ := ih hrest
      obtain ⟨haccounted, hsame⟩ :=
        step_of_not_appends (hquiet event List.mem_cons_self) hlater
      exact ⟨haccounted, hload.trans hsame⟩

/-- Acknowledged batches are loaded in full and interrupted ones up to a
prefix, whatever the crashes, as long as nothing is appended behind a torn
frame. -/
theorem nothingLost_of_tearsAreLast {events : List StoreEvent} {store : FileRefStore}
    {base : Refs} (hclean : Clean blake3 store base)
    (hfits : ∀ event ∈ events, AllFit blake3 event.batch)
    (htears : TearsAreLast blake3 events) :
    NothingLost blake3 store base events := by
  induction events generalizing store base with
  | nil => exact ⟨[], .nil, hclean.reopen.refs_eq⟩
  | cons event events ih =>
      have hrest : ∀ other ∈ events, AllFit blake3 other.batch := fun other hother =>
        hfits other (List.mem_cons_of_mem _ hother)
      have hfit := hfits event List.mem_cons_self
      cases event with
      | apply batch =>
          have hbatch : AllFit blake3 batch := hfit
          obtain ⟨next, happly, hnext⟩ := hclean.apply hbatch
          obtain ⟨edits, haccounted, hload⟩ := ih hnext hrest htears
          refine ⟨batch ++ edits, ?_, ?_⟩
          · simp only [run, step, happly]
            exact haccounted.acknowledged
          · simpa [run, step, happly] using hload
      | reopen =>
          obtain ⟨edits, haccounted, hload⟩ := ih hclean.reopen hrest htears
          exact ⟨edits, haccounted, hload⟩
      | powerCut batch kept =>
          have hbatch : AllFit blake3 batch := hfit
          by_cases hempty : batch = []
          · subst hempty
            obtain ⟨edits, haccounted, hload⟩ := ih hclean.reopen hrest htears.2
            exact ⟨edits, haccounted.acknowledged, hload⟩
          obtain ⟨htear, htears⟩ := htears
          have hstarts := (refFrame blake3).survivors_isPrefix batch kept
          have hstep : store.step blake3 (.powerCut batch kept) =
              ([⟨batch, false⟩], FileRefStore.reopen { store with
                disk := store.disk.append (((refFrame blake3).frames batch).take kept) }) := by
            simp only [step, FileRefStore.apply, if_neg hempty]
            rfl
          simp only [NothingLost, run, hstep]
          rcases htear with haligned | hquiet
          · -- The cut fell between two frames: the log is whole frames again.
            rw [haligned]
            have hsurvivors : AllFit blake3 ((refFrame blake3).survivors batch kept) :=
              fun edit hedit => hbatch edit (hstarts.subset hedit)
            have hnext : Clean blake3 { store with disk := store.disk.append _ } _ :=
              hclean.append hsurvivors rfl
            obtain ⟨edits, haccounted, hload⟩ := ih hnext.reopen hrest htears
            refine ⟨_, haccounted.interrupted hstarts, ?_⟩
            rw [Refs.replay_append]
            exact hload
          · obtain ⟨haccounted, hload⟩ := run_of_no_appends hquiet
            refine ⟨_, haccounted.interrupted hstarts, ?_⟩
            have htorn := hclean.refs_append (((refFrame blake3).frames batch).take kept)
            rw [framesDecode, FrameFormat.decodeFrames_take _ hbatch] at htorn
            rw [List.append_nil]
            exact hload.trans htorn

/-- A store on a new disk is clean. -/
theorem clean_empty : Clean blake3 (openInner Disk.empty) Refs.default :=
  ⟨Refs.default, [], ⟨none, rfl, rfl⟩, by simp [AllFit], rfl, rfl⟩

/-- A batch cut between its two frames, and an acknowledged batch behind it. -/
theorem nothingLost_of_tearsAreLast_aligned :
    NothingLost (fun payload => Fin.ofNat (256 ^ 32) (leValue payload))
      (openInner Disk.empty) Refs.default
      [.powerCut [.setHead (ascii "main") 1, .setHead (ascii "main") 2] 60,
        .apply [.setHead (ascii "main") 3], .reopen] := by
  apply nothingLost_of_tearsAreLast clean_empty
  · simp only [List.forall_mem_cons, StoreEvent.batch, AllFit]
    decide +kernel
  · exact ⟨Or.inl (by decide +kernel), trivial⟩

/-! ## A batch behind a torn frame -/

theorem length_refFrame (blake3 : Bytes → Digest) (edit : RefEdit) :
    ((refFrame blake3).frame edit).length = 12 + (RefEdit.codec.serialize edit).length := by
  rw [FrameFormat.length_frame]
  simp only [refFrame, FRAME_CHECKSUM_LEN]
  omega

/-- The length field of a torn frame survives a cut of four bytes or more. -/
theorem lengthField_torn {edit : RefEdit} (hfits : (refFrame blake3).Fits edit) {kept : ℕ}
    (hkept : 4 ≤ kept) (rest : Bytes) :
    leValue ((((refFrame blake3).frame edit).take kept ++ rest).take 4) =
      (RefEdit.codec.serialize edit).length := by
  have hlong := length_refFrame blake3 edit
  have hfield : ((refFrame blake3).frame edit).take 4 =
      leBytes 4 (RefEdit.codec.serialize edit).length := by
    rw [FrameFormat.frame, List.append_assoc]
    exact List.take_left' (length_leBytes 4 _)
  rw [List.take_append_of_le_length (by rw [List.length_take]; omega), List.take_take,
    min_eq_left hkept, hfield]
  exact leValue_leBytes hfits

/-- A torn frame hides what is appended behind it for as long as the log stays
shorter than the frame promised. -/
theorem framesDecode_torn {edit : RefEdit} (hfits : (refFrame blake3).Fits edit) {kept : ℕ}
    (hkept : 4 ≤ kept) {rest : Bytes}
    (hshort : kept + rest.length < ((refFrame blake3).frame edit).length) :
    framesDecode blake3 (((refFrame blake3).frame edit).take kept ++ rest) = [] := by
  have hpromise := lengthField_torn hfits hkept rest
  rw [length_refFrame] at hshort
  have hlength : (((refFrame blake3).frame edit).take kept ++ rest).length ≤
      kept + rest.length := by
    simp only [List.length_append, List.length_take]
    omega
  rw [framesDecode, FrameFormat.decodeFrames_eq, FrameFormat.nextFrame_short]
  simp only [refFrame, FRAME_CHECKSUM_LEN] at hpromise hlength ⊢
  rw [hpromise]
  omega

/-- Below the compaction trigger a call only appends. -/
theorem apply_below_trigger {store : FileRefStore} {batch : List RefEdit}
    (hbatch : batch ≠ [])
    (hsmall : store.logBytes + ((refFrame blake3).frames batch).length ≤
      max store.snapshotBytes store.compactFloor) :
    store.apply blake3 none batch =
      (.ok (), { store with
        disk := store.disk.append ((refFrame blake3).frames batch)
        logBytes := store.logBytes + ((refFrame blake3).frames batch).length }) := by
  simp only [FileRefStore.apply, if_neg hbatch]
  exact if_neg (Nat.not_lt.mpr hsmall)

/-- The edit whose append is torn: its frame is 116 bytes long. -/
def tornEdit : RefEdit :=
  .createBranch (List.replicate 60 97) 1

/-- The edit acknowledged afterwards: its frame is 60 bytes long. -/
def lostEdit : RefEdit :=
  .setHead (ascii "main") 2

theorem length_tornEdit : (RefEdit.codec.serialize tornEdit).length = 104 := by
  decide +kernel

theorem length_lostEdit : (RefEdit.codec.serialize lostEdit).length = 48 := by
  decide +kernel

/-- Ten bytes of a frame reach the disk, then a second batch is acknowledged. -/
def tornThenAppended : List StoreEvent :=
  [.powerCut [tornEdit] 10, .apply [lostEdit], .reopen]

theorem tornThenAppended_run (blake3 : Bytes → Digest) :
    ((openInner Disk.empty).run blake3 tornThenAppended).1 =
        [⟨[tornEdit], false⟩, ⟨[lostEdit], true⟩] ∧
      ((openInner Disk.empty).run blake3 tornThenAppended).2.disk =
        { Disk.empty with
          log := some (((refFrame blake3).frame tornEdit).take 10 ++
            (refFrame blake3).frame lostEdit) } := by
  have hlost := length_refFrame blake3 lostEdit
  rw [length_lostEdit] at hlost
  have hsmall : (openInner (Disk.empty.append
      (((refFrame blake3).frame tornEdit).take 10))).logBytes +
      ((refFrame blake3).frames [lostEdit]).length ≤ max 0 COMPACT_FLOOR_BYTES := by
    simp only [FrameFormat.frames_cons, FrameFormat.frames_nil, List.append_nil,
      openInner, COMPACT_FLOOR_BYTES, Disk.append, Disk.empty, Option.map_some,
      Option.getD_some, Option.getD_none, List.nil_append, List.length_take]
    omega
  have happly := apply_below_trigger (by simp) hsmall
  have hcut : (openInner Disk.empty).step blake3 (.powerCut [tornEdit] 10) =
      ([⟨[tornEdit], false⟩], openInner (Disk.empty.append
        (((refFrame blake3).frames [tornEdit]).take 10))) := rfl
  rw [FrameFormat.frames_cons, FrameFormat.frames_nil, List.append_nil] at hcut
  simp only [tornThenAppended, run, hcut]
  simp only [step, happly]
  simp [reopen, openInner, withCompactFloor, Disk.append, Disk.empty, Except.isOk,
    Except.toBool]

theorem tornThenAppended_refs {blake3 : Bytes → Digest} {disk : Disk}
    (hdisk : disk = { Disk.empty with
      log := some (((refFrame blake3).frame tornEdit).take 10 ++
        (refFrame blake3).frame lostEdit) }) :
    disk.refs blake3 = .ok Refs.default := by
  have hfits : (refFrame blake3).Fits tornEdit := by
    change (RefEdit.codec.serialize tornEdit).length < 256 ^ 4
    rw [length_tornEdit]
    decide
  have hshort : 10 + ((refFrame blake3).frame lostEdit).length <
      ((refFrame blake3).frame tornEdit).length := by
    rw [length_refFrame, length_refFrame, length_tornEdit, length_lostEdit]
    decide
  have hnone := framesDecode_torn hfits (by decide) hshort
  rw [Disk.refs_eq ⟨none, by rw [hdisk]; rfl, rfl⟩, readLog_eq, hdisk]
  simp [hnone]

/-- The acknowledged batch is lost, whatever the hash function. -/
theorem torn_append_loses_batch :
    ¬∃ blake3, NothingLost blake3 (openInner Disk.empty) Refs.default tornThenAppended := by
  rintro ⟨blake3, edits, haccounted, hload⟩
  obtain ⟨hledger, hdisk⟩ := tornThenAppended_run blake3
  have hempty := tornThenAppended_refs hdisk
  have hheads := congrArg (fun refs => refs.branches[ascii "main"]?)
    (Except.ok.inj (hempty.symm.trans hload))
  rw [hledger] at haccounted
  cases haccounted with
  | interrupted hstarts hrest =>
    cases hrest with
    | acknowledged hrest =>
      cases hrest
      simp [lostEdit, Refs.applyEdit, Refs.default] at hheads

end FileRefStore

end LoomDB
