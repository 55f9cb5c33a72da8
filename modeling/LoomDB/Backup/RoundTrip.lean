import LoomDB.Backup.BackupSpec
import Mathlib.Data.List.Pairwise
import Mathlib.Data.List.Perm.Subperm

/-!
# The round trip of a backup

Restoring a backup gives back the files it was made from, under their names, if no name has a
backslash in it: the manifest writes one as a slash. A directory that was tampered with after
that is accepted only if files were added whose names spell the paths of others so.
-/

namespace LoomDB

open Std (ExtTreeMap ExtTreeSet)
open StateExcept (except_bind_eq_ok)

namespace Files

/-- No name has a backslash in it. -/
def Portable (files : Files) : Prop :=
  ∀ (path : Path) (entry : Entry), files.entries[path]? = some entry →
    ∀ name ∈ path, BACKSLASH ∉ name

/-- The files of the source, without the lock of the process and the two files of a backup. -/
def Reproduces (restored source : Files) : Prop :=
  ∀ path : Path, restored.entries[path]? =
    if excluded true true (spell path) then none else source.entries[path]?

/-- A directory with every file of a backup, and more files that a walk takes for those
declared. -/
structure Smuggled (backup tampered : Files) (records : List BackupFile) : Prop where
  plain : PlainEntries tampered.entries.toList
  few : (walked true false tampered.entries.toList).length ≤ MAX_BACKUP_FILES
  kept : ∀ (path : Path) (entry : Entry), backup.entries[path]? = some entry →
    tampered.entries[path]? = some entry
  spelled : ∀ path ∈ walked true false tampered.entries.toList,
    slashed path ∈ records.map BackupFile.path

theorem Portable.spell {files : Files} (hportable : files.Portable) {path : Path} {entry : Entry}
    (hentry : files.entries[path]? = some entry) : BACKSLASH ∉ spell path := by
  intro hmem
  obtain ⟨name, hname, hbyte⟩ := exists_mem_of_mem_spell hmem (by decide)
  exact hportable path entry hentry name hname hbyte

end Files

/-- What a walk passes over has no backslash in its name. -/
theorem excluded_eq_false {excludeManifest excludeProcessLock : Bool} {path : Path}
    (hbackslash : BACKSLASH ∈ spell path) :
    excluded excludeManifest excludeProcessLock (spell path) = false := by
  by_contra hexcluded
  simp only [excluded, Bool.not_eq_false, Bool.or_eq_true, Bool.and_eq_true,
    decide_eq_true_eq] at hexcluded
  rcases hexcluded with ⟨-, hname | hname⟩ | ⟨-, hname⟩
  all_goals
    rw [hname] at hbackslash
    revert hbackslash
    decide

/-- The place of a path that is read is the file of neither the manifest nor its signature,
if the path is not. -/
theorem excluded_spell_place {value : Bytes} {place : Path} (hlegal : legalPath place = true)
    (hchecked : checkedRelative value = .ok value) (hresolve : Path.resolve value = some place)
    (hmanifest : place ≠ [BACKUP_MANIFEST_FILE]) (hsignature : value ≠ BACKUP_SIGNATURE_FILE) :
    excluded true false (spell place) = false := by
  have hnames : ∀ name : Name, legalPath [name] = true → spell place = name → place = [name] := by
    intro name hname hspell
    refine spell_injective hlegal hname ?_
    rw [hspell, spell, List.intercalate_singleton]
  obtain ⟨hempty, -, hrelative, -⟩ := checkedRelative_eq_ok.mp hchecked
  simp only [excluded, Bool.true_and, Bool.false_and, Bool.or_false, Bool.or_eq_false_iff,
    decide_eq_false_iff_not]
  constructor
  · intro hspell
    exact hmanifest (hnames _ (by decide +kernel) hspell)
  · intro hspell
    obtain rfl := hnames _ (by decide +kernel) hspell
    exact hsignature (eq_of_resolve_singleton hempty hrelative hresolve)

namespace Created

variable {platform : Platform} {source backup tampered : Files} {tenant : TenantId}

theorem mem_files {record : BackupFile} :
    record ∈ (manifestOf platform source tenant).files ↔
      ∃ path ∈ walked true true source.entries.toList,
        recordOf platform source path = some record := by
  rw [manifestOf, List.mem_mergeSort, List.mem_filterMap]

/-- The path and the place of a record, and the file it is of. -/
theorem exists_of_mem_files (hcreated : Created platform source tenant backup)
    {record : BackupFile} (hrecord : record ∈ (manifestOf platform source tenant).files) :
    ∃ path ∈ walked true true source.entries.toList, ∃ place content,
      record.path = slashed path ∧ checkedRelative record.path = .ok record.path ∧
      Path.resolve record.path = some place ∧ place ≠ [BACKUP_MANIFEST_FILE] ∧
      source.entries[path]? = some (.file content) ∧
      backup.entries[place]? = some (.file content) ∧ RecordOf platform record content := by
  obtain ⟨target, hcopied, hfree, hentries⟩ := hcreated.copied
  obtain ⟨path, hpath, hof⟩ := mem_files.mp hrecord
  obtain ⟨content, place, record', hcontent, hchecked, hresolve, -, hof', hname, hdescribes⟩ :=
    hcopied.each path hpath
  rw [hof] at hof'
  obtain rfl := Option.some.inj hof'
  have htarget := (hcopied.entries place (.file content)).mpr
    (Or.inr ⟨path, hpath, hresolve, hcontent⟩)
  have hne := Files.prefix_absurd hfree htarget
  refine ⟨path, hpath, place, content, hname, hname ▸ hchecked, hname ▸ hresolve, hne, hcontent,
    ?_, hdescribes⟩
  rw [hentries, OrderedMap.getElem?_insert, if_neg (Ne.symm hne), htarget]

theorem exists_record (hcreated : Created platform source tenant backup) {path : Path}
    (hpath : path ∈ walked true true source.entries.toList) :
    ∃ record ∈ (manifestOf platform source tenant).files, record.path = slashed path := by
  obtain ⟨target, hcopied, -, -⟩ := hcreated.copied
  obtain ⟨_, _, record, _, _, _, _, hof, hname, _⟩ := hcopied.each path hpath
  exact ⟨record, mem_files.mpr ⟨path, hpath, hof⟩, hname⟩

/-- The manifest, and what was copied. -/
theorem backup_entries (hcreated : Created platform source tenant backup) (at' : Path)
    (entry : Entry) :
    backup.entries[at']? = some entry ↔
      (at' = [BACKUP_MANIFEST_FILE] ∧
        entry = .file (manifestBytes (manifestOf platform source tenant))) ∨
      ∃ path ∈ walked true true source.entries.toList, Path.resolve (slashed path) = some at' ∧
        source.entries[path]? = some entry := by
  obtain ⟨target, hcopied, hfree, hentries⟩ := hcreated.copied
  have htarget := hcopied.entries at' entry
  rw [show (Files.empty.entries[at']? = some entry) = False by simp [Files.empty], false_or]
    at htarget
  rw [hentries, OrderedMap.getElem?_insert, ← htarget]
  split
  · next heq =>
    have hnone : target.entries[at']? ≠ some entry := fun hentry =>
      Files.prefix_absurd hfree hentry heq.symm
    simp [heq, hnone, eq_comm]
  · next hne => simp [Ne.symm hne]

theorem manifest_entry (hcreated : Created platform source tenant backup) :
    backup.entries[[BACKUP_MANIFEST_FILE]]? =
      some (.file (manifestBytes (manifestOf platform source tenant))) :=
  (hcreated.backup_entries _ _).mpr (Or.inl ⟨rfl, rfl⟩)

theorem path_recordOf {path : Path} {record : BackupFile}
    (hrecord : recordOf platform source path = some record) : record.path = slashed path := by
  unfold recordOf at hrecord
  split at hrecord
  · split at hrecord
    · obtain rfl := Option.some.inj hrecord
      rfl
    · cases hrecord
  · cases hrecord

/-- No two records are read as one path. -/
theorem files_apart (hcreated : Created platform source tenant backup) :
    (manifestOf platform source tenant).files.Pairwise fun record other =>
      Path.resolve record.path ≠ Path.resolve other.path := by
  obtain ⟨target, hcopied, -, -⟩ := hcreated.copied
  refine ((List.mergeSort_perm _ _).pairwise_iff fun hne => Ne.symm hne).mpr ?_
  refine List.pairwise_filterMap.mpr (hcopied.apart.imp fun hne record hrecord other hother => ?_)
  rw [path_recordOf hrecord, path_recordOf hother]
  exact hne

theorem eq_of_resolve_eq (hcreated : Created platform source tenant backup)
    {record other : BackupFile} (hrecord : record ∈ (manifestOf platform source tenant).files)
    (hother : other ∈ (manifestOf platform source tenant).files)
    (hsame : Path.resolve record.path = Path.resolve other.path) : record = other := by
  by_contra hne
  have hsymm : Std.Symm fun record other : BackupFile =>
      Path.resolve record.path ≠ Path.resolve other.path := ⟨fun _ _ => Ne.symm⟩
  exact hcreated.files_apart.forall hrecord hother hne hsame

theorem nodup_files (hcreated : Created platform source tenant backup) :
    ((manifestOf platform source tenant).files.map BackupFile.path).Nodup :=
  List.pairwise_map.mpr (hcreated.files_apart.imp fun hne heq => hne (congrArg Path.resolve heq))

theorem length_files (hcreated : Created platform source tenant backup) :
    (manifestOf platform source tenant).files.length ≤ MAX_BACKUP_FILES := by
  rw [manifestOf, List.length_mergeSort]
  exact (List.length_filterMap_le _ _).trans hcreated.few

theorem notMem_excluded {record : BackupFile}
    (hrecord : record ∈ (manifestOf platform source tenant).files) :
    record.path ≠ BACKUP_MANIFEST_FILE ∧ record.path ≠ BACKUP_SIGNATURE_FILE := by
  obtain ⟨path, hpath, hof⟩ := mem_files.mp hrecord
  have hexcluded := (mem_walked.mp hpath).2
  rw [path_recordOf hof]
  simp only [excluded, Bool.true_and, Bool.or_eq_false_iff, decide_eq_false_iff_not] at hexcluded
  exact hexcluded.1

/-! ## Tampering -/

/-- A walk finds what is declared, each with its digest, if the directory was tampered with by
smuggling files in or not at all. -/
theorem holding_iff (hcreated : Created platform source tenant backup)
    (hmanifest : tampered.entries[[BACKUP_MANIFEST_FILE]]? =
      backup.entries[[BACKUP_MANIFEST_FILE]]?)
    (hcollision : ∀ (path : Path) (content content' : Bytes),
      tampered.entries[path]? = some (.file content) →
      backup.entries[path]? = some (.file content') →
      platform.blake3 content = platform.blake3 content' → content = content') :
    Holding platform tampered (manifestOf platform source tenant).files ↔
      Files.Smuggled backup tampered (manifestOf platform source tenant).files := by
  constructor
  · intro hholding
    refine ⟨hholding.plain, hholding.few, fun path entry hentry => ?_, fun path hpath =>
      (hholding.same _).mp (List.mem_map_of_mem hpath)⟩
    rcases (hcreated.backup_entries path entry).mp hentry with
      ⟨rfl, -⟩ | ⟨from', hfrom, hresolve, -⟩
    · rw [hmanifest, hentry]
    · obtain ⟨record, hrecord, hname⟩ := hcreated.exists_record hfrom
      obtain ⟨-, -, place, content, -, -, hplace, -, -, hbackup, hdescribes⟩ :=
        hcreated.exists_of_mem_files hrecord
      obtain ⟨place', content', hplace', htampered, hdescribes'⟩ := hholding.present record hrecord
      rw [hname, hresolve] at hplace hplace'
      obtain rfl := Option.some.inj hplace
      obtain rfl := Option.some.inj hplace'
      have hdigest : platform.blake3 content' = platform.blake3 content :=
        Digest.asBytes_injective (toHex_injective (hdescribes'.blake3.symm.trans hdescribes.blake3))
      rw [htampered, hcollision _ _ _ htampered hbackup hdigest, ← hbackup, hentry]
  · intro hsmuggled
    refine ⟨fun record hrecord => ?_, hcreated.nodup_files, hsmuggled.plain, hsmuggled.few,
      fun name => ⟨?_, ?_⟩, fun record hrecord => ?_⟩
    · obtain ⟨-, -, -, -, -, hchecked, -⟩ := hcreated.exists_of_mem_files hrecord
      exact hchecked
    · rw [List.mem_map]
      rintro ⟨path, hpath, rfl⟩
      exact hsmuggled.spelled path hpath
    · intro hname
      obtain ⟨record, hrecord, rfl⟩ := List.mem_map.mp hname
      obtain ⟨path, -, place, content, hpath, hchecked, hresolve, hne, -, hbackup, -⟩ :=
        hcreated.exists_of_mem_files hrecord
      have htampered := hsmuggled.kept place _ hbackup
      have hlegal := tampered.legal place _ htampered
      have hslashed : slashed place = spell place := by
        refine slashed_of_portable (backslash_notMem_spell ?_ hresolve)
        rw [hpath]
        exact backslash_notMem_slashed path
      -- The place is the path of a record, and of which else.
      have hwalked : place ∈ walked true false tampered.entries.toList := by
        refine mem_walked.mpr ⟨⟨_, htampered⟩, ?_⟩
        rw [hslashed]
        exact excluded_spell_place hlegal hchecked hresolve hne (notMem_excluded hrecord).2
      obtain ⟨other, hother, hspelled⟩ := List.mem_map.mp (hsmuggled.spelled place hwalked)
      have hsame : Path.resolve other.path = Path.resolve record.path := by
        rw [hspelled, hslashed, resolve_spell hlegal, hresolve]
      obtain rfl := hcreated.eq_of_resolve_eq hother hrecord hsame
      exact List.mem_map.mpr ⟨place, hwalked, hspelled.symm⟩
    · obtain ⟨-, -, place, content, -, -, hresolve, -, -, hbackup, hdescribes⟩ :=
        hcreated.exists_of_mem_files hrecord
      exact ⟨place, content, hresolve, hsmuggled.kept place _ hbackup, hdescribes⟩

/-! ## Backups of portable files -/

/-- The files of a backup are those of the source, if each name is written as it is. -/
theorem backup_entries_of_portable (hcreated : Created platform source tenant backup)
    (hportable : source.Portable) (path : Path) (entry : Entry) :
    backup.entries[path]? = some entry ↔
      (path = [BACKUP_MANIFEST_FILE] ∧
        entry = .file (manifestBytes (manifestOf platform source tenant))) ∨
      path ∈ walked true true source.entries.toList ∧ source.entries[path]? = some entry := by
  rw [hcreated.backup_entries]
  refine or_congr_right ⟨?_, ?_⟩
  · rintro ⟨from', hfrom, hresolve, hentry⟩
    rw [slashed_of_portable (hportable.spell hentry),
      resolve_spell (source.legal from' entry hentry)] at hresolve
    obtain rfl := Option.some.inj hresolve
    exact ⟨hfrom, hentry⟩
  · rintro ⟨hfrom, hentry⟩
    refine ⟨path, hfrom, ?_, hentry⟩
    rw [slashed_of_portable (hportable.spell hentry),
      resolve_spell (source.legal path entry hentry)]

theorem excluded_manifest :
    excluded true false (slashed [BACKUP_MANIFEST_FILE]) = true := by
  decide +kernel

theorem isUtf8_manifest : isUtf8 (spell [BACKUP_MANIFEST_FILE]) = true := by
  decide +kernel

/-- A backup that was not tampered with. -/
theorem smuggled_self (hcreated : Created platform source tenant backup)
    (hportable : source.Portable) :
    Files.Smuggled backup backup (manifestOf platform source tenant).files := by
  have hfrom : ∀ path ∈ walked true false backup.entries.toList,
      path ∈ walked true true source.entries.toList := by
    intro path hpath
    obtain ⟨⟨entry, hentry⟩, hexcluded⟩ := mem_walked.mp hpath
    rcases (hcreated.backup_entries_of_portable hportable path entry).mp hentry with
      ⟨rfl, -⟩ | ⟨hwalked, -⟩
    · rw [excluded_manifest] at hexcluded
      cases hexcluded
    · exact hwalked
  refine ⟨fun pair hpair => ?_, ?_, fun _ _ hentry => hentry, fun path hpath => ?_⟩
  · obtain ⟨path, entry⟩ := pair
    have hentry := ExtTreeMap.mem_toList_iff_getElem?_eq_some.mp hpair
    rcases (hcreated.backup_entries_of_portable hportable path entry).mp hentry with
      ⟨rfl, rfl⟩ | ⟨-, hsource⟩
    · exact ⟨⟨_, rfl⟩, isUtf8_manifest⟩
    · exact hcreated.plain (path, entry) (ExtTreeMap.mem_toList_iff_getElem?_eq_some.mpr hsource)
  · exact ((List.subperm_of_subset nodup_walked hfrom).length_le).trans hcreated.few
  · obtain ⟨record, hrecord, hname⟩ := hcreated.exists_record (hfrom path hpath)
    exact List.mem_map.mpr ⟨record, hrecord, hname⟩

theorem holding_self (hcreated : Created platform source tenant backup)
    (hportable : source.Portable) :
    Holding platform backup (manifestOf platform source tenant).files := by
  refine (hcreated.holding_iff rfl fun path content content' hcontent hcontent' _ => ?_).mpr
    (hcreated.smuggled_self hportable)
  rw [hcontent] at hcontent'
  exact Entry.file.inj (Option.some.inj hcontent')

/-- What is restored of a backup are the files of the source that were walked, each at the place
its text is read as. -/
theorem restored_entries (hcreated : Created platform source tenant backup) {restored : Files}
    (hrestore : restoreFiles platform backup (manifestOf platform source tenant).files Files.empty =
      .ok restored) (path : Path) (entry : Entry) :
    restored.entries[path]? = some entry ↔
      ∃ from' ∈ walked true true source.entries.toList, Path.resolve (slashed from') = some path ∧
        source.entries[from']? = some entry := by
  rw [restoreFiles_entries hrestore]
  constructor
  · rintro (hempty | ⟨record, hrecord, hresolve, hentry⟩)
    · simp [Files.empty] at hempty
    · obtain ⟨-, -, place, -, -, -, hplace, hne, -⟩ := hcreated.exists_of_mem_files hrecord
      rw [hresolve] at hplace
      obtain rfl := Option.some.inj hplace
      exact ((hcreated.backup_entries path entry).mp hentry).resolve_left fun h => hne h.1
  · rintro ⟨from', hfrom, hresolve, hentry⟩
    obtain ⟨record, hrecord, hname⟩ := hcreated.exists_record hfrom
    exact Or.inr ⟨record, hrecord, hname ▸ hresolve,
      (hcreated.backup_entries path entry).mpr (Or.inr ⟨from', hfrom, hresolve, hentry⟩)⟩

/-- A restored directory has no backslash in a name. -/
theorem portable_of_reproduces (hcreated : Created platform source tenant backup)
    {restored : Files} (hrestore : restoreFiles platform backup
      (manifestOf platform source tenant).files Files.empty = .ok restored)
    (hreproduces : restored.Reproduces source) : source.Portable := by
  intro path entry hentry name hname hbyte
  have hspell : BACKSLASH ∈ spell path := mem_intercalate hname hbyte
  have hrestored := hreproduces path
  rw [excluded_eq_false hspell, if_neg Bool.false_ne_true, hentry] at hrestored
  obtain ⟨from', -, hresolve, -⟩ := (hcreated.restored_entries hrestore path entry).mp hrestored
  exact backslash_notMem_spell (backslash_notMem_slashed from') hresolve hspell

theorem reproduces_of_portable (hcreated : Created platform source tenant backup)
    (hportable : source.Portable) {restored : Files} (hrestore : restoreFiles platform backup
      (manifestOf platform source tenant).files Files.empty = .ok restored) :
    restored.Reproduces source := by
  intro path
  ext entry
  have hplain : ∀ from' entry, source.entries[from']? = some entry →
      slashed from' = spell from' ∧ Path.resolve (slashed from') = some from' := by
    intro from' entry hentry
    have hslashed := slashed_of_portable (hportable.spell hentry)
    exact ⟨hslashed, hslashed ▸ resolve_spell (source.legal from' entry hentry)⟩
  rw [hcreated.restored_entries hrestore]
  constructor
  · rintro ⟨from', hfrom, hresolve, hentry⟩
    obtain ⟨hslashed, hresolved⟩ := hplain from' entry hentry
    obtain rfl := Option.some.inj (hresolved.symm.trans hresolve)
    rw [← hslashed, (mem_walked.mp hfrom).2, if_neg Bool.false_ne_true, hentry]
  · intro hentry
    split at hentry
    · cases hentry
    · next hexcluded =>
      obtain ⟨hslashed, hresolved⟩ := hplain path entry hentry
      refine ⟨path, mem_walked.mpr ⟨⟨entry, hentry⟩, ?_⟩, hresolved, hentry⟩
      rw [hslashed]
      exact Bool.eq_false_iff.mpr hexcluded

theorem restoreFiles_self (hcreated : Created platform source tenant backup)
    (hportable : source.Portable) :
    ∃ restored, restoreFiles platform backup (manifestOf platform source tenant).files
      Files.empty = .ok restored := by
  have hholding := hcreated.holding_self hportable
  refine restoreFiles_succeeds hholding.checked hholding.present (fun _ _ path _ => ?_)
    hcreated.files_apart fun path entry hentry => ?_
  · simp [Files.empty]
  · simp [Files.empty] at hentry

/-- A directory with the manifest of a backup is accepted if the manifest is fit to be read and
the files are held. -/
theorem verifyBackup_iff (hcreated : Created platform source tenant backup)
    {fromSlice : Bytes → Option BackupManifest}
    (hread : fromSlice (manifestBytes (manifestOf platform source tenant)) =
      some (manifestOf platform source tenant))
    (hmanifest : tampered.entries[[BACKUP_MANIFEST_FILE]]? =
      backup.entries[[BACKUP_MANIFEST_FILE]]?) (found : BackupManifest) :
    verifyBackup platform fromSlice tampered = .ok found ↔
      found = manifestOf platform source tenant ∧ tenant ≠ [] ∧
        (manifestBytes (manifestOf platform source tenant)).length ≤ MAX_MANIFEST_BYTES ∧
        Holding platform tampered (manifestOf platform source tenant).files := by
  rw [verifyBackup_eq_ok, hmanifest, hcreated.manifest_entry]
  constructor
  · rintro ⟨content, hcontent, hfits, hslice, -, htenant, -, hholding⟩
    obtain rfl := Entry.file.inj (Option.some.inj hcontent)
    rw [hread] at hslice
    obtain rfl := Option.some.inj hslice
    exact ⟨rfl, htenant, hfits, hholding⟩
  · rintro ⟨rfl, htenant, hfits, hholding⟩
    exact ⟨_, rfl, hfits, hread, rfl, htenant, hcreated.length_files, hholding⟩

end Created

variable {platform : Platform}

theorem restoreBackup_eq_ok {fromSlice : Bytes → Option BackupManifest} {backup restored : Files}
    {place : Destination} {manifest : BackupManifest} :
    restoreBackup platform fromSlice backup place = .ok (manifest, restored) ↔
      verifyBackup platform fromSlice backup = .ok manifest ∧ place.check = .ok () ∧
        restoreFiles platform backup manifest.files Files.empty = .ok restored := by
  simp only [restoreBackup, except_bind_eq_ok]
  constructor
  · rintro ⟨found, hverify, ⟨⟩, hadmit, files, hfiles, hresult⟩
    obtain ⟨rfl, rfl⟩ := Prod.mk.inj (Except.ok.inj hresult)
    exact ⟨hverify, hadmit, hfiles⟩
  · rintro ⟨hverify, hadmit, hfiles⟩
    exact ⟨manifest, hverify, (), hadmit, restored, hfiles, rfl⟩

/-- A backup is accepted and its restore reproduces the source, unless a name has a backslash,
the tenant is empty or the manifest is too large to be read. A directory with its manifest is
accepted only if it has the files of the backup, and others only under names that spell the
paths of those. -/
theorem backup_round_trip (platform : Platform) (fromSlice : Bytes → Option BackupManifest)
    (source backup : Files) (destination place : Destination) (tenant : TenantId)
    (manifest : BackupManifest)
    (hcreate : createBackup platform source destination tenant = .ok (manifest, backup))
    (hread : fromSlice (manifestBytes manifest) = some manifest)
    (hplace : place.check = .ok ()) :
    ((∃ restored, verifyBackup platform fromSlice backup = .ok manifest ∧
        restoreBackup platform fromSlice backup place = .ok (manifest, restored) ∧
        restored.Reproduces source) ↔
      source.Portable ∧ tenant ≠ [] ∧ (manifestBytes manifest).length ≤ MAX_MANIFEST_BYTES) ∧
    ∀ tampered : Files,
      tampered.entries[[BACKUP_MANIFEST_FILE]]? = backup.entries[[BACKUP_MANIFEST_FILE]]? →
      (∀ (path : Path) (content content' : Bytes),
        tampered.entries[path]? = some (.file content) →
        backup.entries[path]? = some (.file content') →
        platform.blake3 content = platform.blake3 content' → content = content') →
      ((∀ found, verifyBackup platform fromSlice tampered ≠ .ok found) ↔
        ¬ (tenant ≠ [] ∧ (manifestBytes manifest).length ≤ MAX_MANIFEST_BYTES ∧
          Files.Smuggled backup tampered manifest.files)) := by
  obtain ⟨rfl, hcreated⟩ := createBackup_spec hcreate
  refine ⟨⟨?_, ?_⟩, fun tampered hmanifest hcollision => ?_⟩
  · rintro ⟨restored, hverify, hrestore, hreproduces⟩
    obtain ⟨-, -, hfiles⟩ := restoreBackup_eq_ok.mp hrestore
    obtain ⟨-, htenant, hfits, -⟩ := (hcreated.verifyBackup_iff hread rfl _).mp hverify
    exact ⟨hcreated.portable_of_reproduces hfiles hreproduces, htenant, hfits⟩
  · rintro ⟨hportable, htenant, hfits⟩
    obtain ⟨restored, hfiles⟩ := hcreated.restoreFiles_self hportable
    have hverify := (hcreated.verifyBackup_iff hread rfl _).mpr
      ⟨rfl, htenant, hfits, hcreated.holding_self hportable⟩
    exact ⟨restored, hverify, restoreBackup_eq_ok.mpr ⟨hverify, hplace, hfiles⟩,
      hcreated.reproduces_of_portable hportable hfiles⟩
  · rw [← hcreated.holding_iff hmanifest hcollision]
    constructor
    · rintro hrefused ⟨htenant, hfits, hholding⟩
      exact hrefused _ ((hcreated.verifyBackup_iff hread hmanifest _).mpr
        ⟨rfl, htenant, hfits, hholding⟩)
    · intro hunfit found hverify
      exact hunfit ((hcreated.verifyBackup_iff hread hmanifest found).mp hverify).2

/-! ## A portable source and one that is not -/

/-- A source with one file. -/
def single (name : Name) : Files :=
  (Files.empty.create [name] (ascii "x")).getD Files.empty

/-- A source with these files. -/
def sourceOf (files : List (Path × Bytes)) : Files :=
  files.foldl (fun source file => (source.create file.1 file.2).getD source) .empty

/-- Pages, refs and the lock of a database, in directories. -/
def nestedSource : Files :=
  sourceOf [([ascii "loom", ascii "pages", ascii "00", ascii "7f"], ascii "page 127"),
    ([ascii "loom", ascii "pages", ascii "01", ascii "02"], []),
    ([ascii "loom", ascii "refs.log"], ascii "edits"),
    ([ascii "loom", ascii "store.lock"], ascii "1"), ([ascii "readme"], ascii "text")]

def vacant : Destination where
  taken := false
  parentPath := ascii "/backups"
  parent := .directory
  insideSource := false
  nameText := true

/-- The files were copied in the order of their paths, and there is place beside them for a manifest
that can be read again. -/
def copiedInOrder (tenant : TenantId) : Except BackupError (List BackupFile × Files) → Bool
  | .ok (files, target) =>
      let bytes := manifestBytes { formatVersion := BACKUP_FORMAT_VERSION, tenant, files }
      (target.create [BACKUP_MANIFEST_FILE] bytes).isSome && bytes.length ≤ MAX_MANIFEST_BYTES &&
        Decidable.decide (files.Pairwise fun left right => left.path ≤ right.path)
  | .error _ => false

theorem exists_backup_of_copiedInOrder {platform : Platform} {source : Files} {paths : List Path}
    {tenant : TenantId} (hwalk : walkFiles true true source = .ok paths)
    (hcopied : copiedInOrder tenant (copyFiles platform source paths Files.empty []) = true) :
    ∃ manifest backup, createBackup platform source vacant tenant = .ok (manifest, backup) ∧
      (manifestBytes manifest).length ≤ MAX_MANIFEST_BYTES := by
  cases hcopy : copyFiles platform source paths Files.empty [] with
  | error _ =>
      rw [hcopy] at hcopied
      cases hcopied
  | ok copied =>
      obtain ⟨files, target⟩ := copied
      simp only [hcopy, copiedInOrder, Bool.and_eq_true, Option.isSome_iff_exists,
        decide_eq_true_eq] at hcopied
      obtain ⟨⟨⟨backup, hcreate⟩, hfits⟩, hordered⟩ := hcopied
      have hsort : (files.mergeSort fun left right => left.path ≤ right.path) = files :=
        List.mergeSort_of_pairwise (hordered.imp decide_eq_true)
      refine ⟨{ formatVersion := BACKUP_FORMAT_VERSION, tenant, files }, backup, ?_, hfits⟩
      refine except_bind_eq_ok.mpr ⟨(), rfl, except_bind_eq_ok.mpr ⟨paths, hwalk,
        except_bind_eq_ok.mpr ⟨_, hcopy, ?_⟩⟩⟩
      dsimp only
      rw [hsort, hcreate]
      rfl

theorem single_entries {name : Name} (hlegal : legalPath [name] = true) (path : Path) :
    (single name).entries[path]? = if [name] = path then some (.file (ascii "x")) else none := by
  have hfree : Files.empty.free [name] = true :=
    Files.free_eq_true.mpr fun other entry hentry => by simp [Files.empty] at hentry
  rw [single, Files.create, dif_pos ⟨hlegal, hfree⟩, Option.getD_some,
    OrderedMap.getElem?_insert]
  simp [Files.empty]

theorem backup_round_trip_nested :
    ∃ manifest backup restored,
      createBackup Platform.plain nestedSource vacant (ascii "t") = .ok (manifest, backup) ∧
      restoreBackup Platform.plain
        (fun bytes => if bytes = manifestBytes manifest then some manifest else none) backup
          vacant = .ok (manifest, restored) ∧
      restored.Reproduces nestedSource := by
  have hwalk : walkFiles true true nestedSource = .ok
      [[ascii "loom", ascii "pages", ascii "00", ascii "7f"],
        [ascii "loom", ascii "pages", ascii "01", ascii "02"], [ascii "loom", ascii "refs.log"],
        [ascii "readme"]] := by decide +kernel
  obtain ⟨manifest, backup, hcreate, hfits⟩ := exists_backup_of_copiedInOrder hwalk
    (show copiedInOrder (ascii "t") (copyFiles Platform.plain _ _ _ _) = true by decide +kernel)
  have hportable : nestedSource.Portable := by
    intro path entry hentry
    have hall : ∀ found ∈ nestedSource.entries.toList, ∀ name ∈ found.1, BACKSLASH ∉ name := by
      decide +kernel
    exact hall (path, entry) (ExtTreeMap.mem_toList_iff_getElem?_eq_some.mpr hentry)
  obtain ⟨restored, -, hrestore, hreproduces⟩ := (backup_round_trip Platform.plain
    (fun bytes => if bytes = manifestBytes manifest then some manifest else none) _ backup vacant
    vacant (ascii "t") manifest hcreate (if_pos rfl) rfl).1.mpr ⟨hportable, by decide, hfits⟩
  exact ⟨manifest, backup, restored, hcreate, hrestore, hreproduces⟩

/-- A name with a backslash is not given back. -/
theorem backup_of_backslash :
    ∃ manifest backup, createBackup Platform.plain (single (ascii "a\\b")) vacant (ascii "t") =
        .ok (manifest, backup) ∧
      ∀ fromSlice place restored,
        restoreBackup Platform.plain fromSlice backup place = .ok (manifest, restored) →
        ¬ restored.Reproduces (single (ascii "a\\b")) := by
  have hwalk : walkFiles true true (single (ascii "a\\b")) = .ok [[ascii "a\\b"]] := by
    decide +kernel
  obtain ⟨manifest, backup, hcreate, -⟩ := exists_backup_of_copiedInOrder hwalk
    (show copiedInOrder (ascii "t") (copyFiles Platform.plain _ _ _ _) = true by decide +kernel)
  refine ⟨manifest, backup, hcreate, fun fromSlice place restored hrestore hreproduces => ?_⟩
  obtain ⟨rfl, hcreated⟩ := createBackup_spec hcreate
  obtain ⟨-, -, hfiles⟩ := restoreBackup_eq_ok.mp hrestore
  have hentry : (single (ascii "a\\b")).entries[[ascii "a\\b"]]? = some (.file (ascii "x")) := by
    rw [single_entries (by decide), if_pos rfl]
  exact hcreated.portable_of_reproduces hfiles hreproduces _ _ hentry _ (List.mem_singleton_self _)
    (by decide)

end LoomDB
