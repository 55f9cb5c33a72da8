import LoomDB.Backup.Backup
import LoomDB.Foundations.StateExcept

/-!
# What the parts of a backup do

A walk succeeds on regular files with texts for names, and not too many; copying makes one
file of each, at the path its text is read as; verifying accepts a directory whose files are
those declared, each with the length and the digest declared.
-/

namespace LoomDB

open Std (ExtTreeMap ExtTreeSet)
open StateExcept (except_bind_eq_ok except_forM_eq_ok)

/-! ## Slashes -/

theorem backslash_notMem_slashed (path : Path) : BACKSLASH ∉ slashed path := by
  rw [slashed, List.mem_map]
  rintro ⟨byte, -, hbyte⟩
  split at hbyte
  · cases hbyte
  · contradiction

theorem slashed_of_portable {path : Path} (hportable : BACKSLASH ∉ spell path) :
    slashed path = spell path := by
  have hsame : ∀ byte ∈ spell path, (if byte = BACKSLASH then SLASH else byte) = id byte := by
    intro byte hbyte
    refine if_neg ?_
    rintro rfl
    exact hportable hbyte
  rw [slashed, List.map_congr_left hsame, List.map_id]

theorem exists_mem_of_mem_spell {path : Path} {byte : Byte} (hbyte : byte ∈ spell path)
    (hslash : byte ≠ SLASH) : ∃ name ∈ path, byte ∈ name := by
  induction path with
  | nil => simp [spell] at hbyte
  | cons first path ih =>
      cases path with
      | nil => exact ⟨first, List.mem_singleton_self first, by simpa [spell] using hbyte⟩
      | cons second path =>
          rw [spell, List.intercalate_cons_cons, List.mem_append, List.mem_append,
            List.mem_singleton] at hbyte
          rcases hbyte with (hbyte | hbyte) | hbyte
          · exact ⟨first, List.mem_cons_self, hbyte⟩
          · exact absurd hbyte hslash
          · obtain ⟨name, hname, hmem⟩ := ih hbyte
            exact ⟨name, List.mem_cons_of_mem _ hname, hmem⟩

/-- The names a text is read as have no backslash if it has none. -/
theorem backslash_notMem_spell {value : Bytes} {path : Path} (hvalue : BACKSLASH ∉ value)
    (hresolve : Path.resolve value = some path) : BACKSLASH ∉ spell path := by
  intro hmem
  obtain ⟨name, hname, hbyte⟩ := exists_mem_of_mem_spell hmem (by decide)
  exact hvalue (mem_of_resolve hresolve hname hbyte)

/-- A text that is read as one name is that name. -/
theorem eq_of_resolve_singleton {value : Bytes} {name : Name}
    (hempty : value ≠ []) (hrelative : value.head? ≠ some SLASH)
    (hresolve : Path.resolve value = some [name]) : value = name := by
  have hwhole : [SLASH].intercalate (segments value) = value := List.intercalate_splitOn SLASH
  unfold Path.resolve components at hresolve
  split at hresolve
  · cases hresolve
  · next hlast =>
    dsimp only at hresolve
    split at hresolve
    · cases hresolve
    · next hhead =>
      have hnames := Option.some.inj hresolve
      simp only [Bool.or_eq_true, decide_eq_true_eq, not_or] at hlast hhead
      cases hsegments : segments value with
      | nil =>
          rw [hsegments] at hnames
          cases hnames
      | cons first rest =>
          rw [hsegments] at hwhole hnames hlast hhead
          -- The first name is neither empty nor a dot.
          have hfirst : first ≠ [] := by
            rintro rfl
            cases rest with
            | nil => exact hempty (hwhole.symm.trans List.intercalate_singleton)
            | cons second rest =>
                rw [List.intercalate_cons_cons] at hwhole
                exact hrelative (by rw [← hwhole]; rfl)
          have hdot : first ≠ ascii "." := fun heq => hhead.1 (by rw [heq]; rfl)
          rw [List.filter_cons_of_pos (by simp [hfirst, hdot])] at hnames
          obtain ⟨rfl, hrest⟩ := List.cons.inj hnames
          -- Nor is the last one.
          rcases List.eq_nil_or_concat rest with rfl | ⟨middle, last, hconcat⟩
          · rw [← hwhole, List.intercalate_singleton]
          · rw [List.concat_eq_append] at hconcat
            rw [hconcat, ← List.cons_append, List.getLast?_concat] at hlast
            have hmem : last ∈ rest.filter fun name => name ≠ [] && name ≠ ascii "." := by
              rw [hconcat]
              refine List.mem_filter.mpr ⟨by simp, ?_⟩
              simpa using ⟨fun heq => hlast.1 (heq ▸ rfl), fun heq => hlast.2 (heq ▸ rfl)⟩
            rw [hrest] at hmem
            cases hmem

/-! ## Walking -/

/-- The paths a walk does not pass over. -/
def walked (excludeManifest excludeProcessLock : Bool) (entries : List (Path × Entry)) :
    List Path :=
  (entries.map Prod.fst).filter fun path =>
    !excluded excludeManifest excludeProcessLock (slashed path)

/-- Only regular files, each with a text for its path. -/
def PlainEntries (entries : List (Path × Entry)) : Prop :=
  ∀ entry ∈ entries, (∃ content, entry.2 = .file content) ∧ isUtf8 (spell entry.1) = true

theorem relativeString_eq_ok {path : Path} {relative : Bytes} :
    relativeString path = .ok relative ↔ isUtf8 (spell path) = true ∧ relative = slashed path := by
  unfold relativeString
  split
  · next htext => simp [htext, eq_comm]
  · next htext => simp [htext]

theorem walkEntries_eq_ok {excludeManifest excludeProcessLock : Bool}
    {entries : List (Path × Entry)} {output paths : List Path}
    (houtput : output.length ≤ MAX_BACKUP_FILES) :
    walkEntries excludeManifest excludeProcessLock entries output = .ok paths ↔
      PlainEntries entries ∧ paths = output ++ walked excludeManifest excludeProcessLock entries ∧
        paths.length ≤ MAX_BACKUP_FILES := by
  induction entries generalizing output with
  | nil =>
      simp only [walkEntries, Except.ok.injEq, PlainEntries, walked, List.map_nil,
        List.filter_nil, List.append_nil, List.not_mem_nil, false_implies, implies_true, true_and]
      constructor
      · rintro rfl
        exact ⟨rfl, houtput⟩
      · exact fun hpaths => hpaths.1.symm
  | cons entry entries ih =>
      obtain ⟨path, entry⟩ := entry
      have hplain : PlainEntries ((path, entry) :: entries) ↔
          ((∃ content, entry = .file content) ∧ isUtf8 (spell path) = true) ∧
            PlainEntries entries := List.forall_mem_cons
      cases entry with
      | symlink => simp [walkEntries, hplain]
      | special => simp [walkEntries, hplain]
      | file content =>
          rw [hplain, walkEntries, except_bind_eq_ok]
          simp only [relativeString_eq_ok]
          constructor
          · rintro ⟨relative, ⟨htext, rfl⟩, hrest⟩
            split at hrest
            · next hexcluded =>
              obtain ⟨hentries, rfl, hlength⟩ := (ih houtput).mp hrest
              exact ⟨⟨⟨⟨content, rfl⟩, htext⟩, hentries⟩, by simp [walked, hexcluded], hlength⟩
            · next hexcluded =>
              split at hrest
              · cases hrest
              · next hfew =>
                obtain ⟨hentries, rfl, hlength⟩ := (ih (not_lt.mp hfew)).mp hrest
                exact ⟨⟨⟨⟨content, rfl⟩, htext⟩, hentries⟩, by simp [walked, hexcluded], hlength⟩
          · rintro ⟨⟨⟨-, htext⟩, hentries⟩, hpaths, hlength⟩
            refine ⟨slashed path, ⟨htext, rfl⟩, ?_⟩
            split
            · next hexcluded =>
              exact (ih houtput).mpr ⟨hentries, by simpa [walked, hexcluded] using hpaths, hlength⟩
            · next hexcluded =>
              have hmore : paths = output ++ [path] ++
                  walked excludeManifest excludeProcessLock entries := by
                simpa [walked, hexcluded] using hpaths
              have hfew : (output ++ [path]).length ≤ MAX_BACKUP_FILES := by
                rw [hmore, List.length_append] at hlength
                omega
              rw [if_neg (not_lt.mpr hfew)]
              exact (ih hfew).mpr ⟨hentries, hmore, hlength⟩

theorem walkFiles_eq_ok {excludeManifest excludeProcessLock : Bool} {root : Files}
    {paths : List Path} :
    walkFiles excludeManifest excludeProcessLock root = .ok paths ↔
      PlainEntries root.entries.toList ∧
        paths = walked excludeManifest excludeProcessLock root.entries.toList ∧
        paths.length ≤ MAX_BACKUP_FILES := by
  rw [walkFiles, walkEntries_eq_ok (Nat.zero_le _), List.nil_append]

theorem mem_walked {excludeManifest excludeProcessLock : Bool} {root : Files} {path : Path} :
    path ∈ walked excludeManifest excludeProcessLock root.entries.toList ↔
      (∃ entry, root.entries[path]? = some entry) ∧
        excluded excludeManifest excludeProcessLock (slashed path) = false := by
  simp only [walked, List.mem_filter, List.mem_map, Bool.not_eq_true']
  refine and_congr_left fun _ => ⟨?_, ?_⟩
  · rintro ⟨⟨path, entry⟩, hentry, rfl⟩
    exact ⟨entry, ExtTreeMap.mem_toList_iff_getElem?_eq_some.mp hentry⟩
  · rintro ⟨entry, hentry⟩
    exact ⟨(path, entry), ExtTreeMap.mem_toList_iff_getElem?_eq_some.mpr hentry, rfl⟩

theorem nodup_walked {excludeManifest excludeProcessLock : Bool} {root : Files} :
    (walked excludeManifest excludeProcessLock root.entries.toList).Nodup := by
  refine List.filter_sublist.nodup ?_
  rw [ExtTreeMap.map_fst_toList_eq_keys]
  refine ExtTreeMap.distinct_keys.imp ?_
  rintro path _ hne rfl
  exact hne Std.ReflOrd.compare_self

/-! ## Copying -/

variable {platform : Platform}

/-- The record a manifest gets for a path. -/
def recordOf (platform : Platform) (source : Files) (path : Path) : Option BackupFile :=
  match source.entries[path]? with
  | some (.file content) =>
      match hashFile platform path content with
      | .ok (bytes, blake3) => some { path := slashed path, bytes := bytes, blake3 := blake3 }
      | .error _ => none
  | _ => none

/-- The record is of a file with the content. -/
structure RecordOf (platform : Platform) (record : BackupFile) (content : Bytes) : Prop where
  bytes : record.bytes.val = content.length
  blake3 : record.blake3 = toHex (platform.blake3 content).asBytes

theorem hashFile_eq_ok {path : Path} {content : Bytes} {result : U64 × Bytes} :
    hashFile platform path content = .ok result ↔
      result.1.val = content.length ∧ result.2 = toHex (platform.blake3 content).asBytes := by
  obtain ⟨bytes, blake3⟩ := result
  unfold hashFile
  split
  · next hshort =>
    simp only [Except.ok.injEq, Prod.mk.injEq, Fin.ext_iff]
    constructor
    · rintro ⟨hbytes, rfl⟩
      exact ⟨hbytes.symm, rfl⟩
    · rintro ⟨hbytes, rfl⟩
      exact ⟨hbytes.symm, rfl⟩
  · next hlong =>
    simp only [reduceCtorEq, false_iff, not_and]
    exact fun hbytes => absurd (hbytes ▸ bytes.isLt) hlong

theorem checkedRelative_eq_ok {value result : Bytes} :
    checkedRelative value = .ok result ↔
      value ≠ [] ∧ BACKSLASH ∉ value ∧ value.head? ≠ some SLASH ∧
        (∃ path, components value = some path) ∧ result = value := by
  unfold checkedRelative
  split
  · next hvalue =>
    simp only [Bool.or_eq_true, decide_eq_true_eq] at hvalue
    simp only [reduceCtorEq, false_iff]
    rintro ⟨hempty, hbackslash, -⟩
    exact hvalue.elim hempty hbackslash
  · next hvalue =>
    simp only [Bool.or_eq_true, decide_eq_true_eq, not_or] at hvalue
    split
    · next hescapes =>
      simp only [Bool.or_eq_true, decide_eq_true_eq, Option.isNone_iff_eq_none] at hescapes
      simp only [reduceCtorEq, false_iff]
      rintro ⟨-, -, hrelative, ⟨path, hpath⟩, -⟩
      rcases hescapes with habsolute | hnone
      · exact hrelative habsolute
      · rw [hpath] at hnone
        cases hnone
    · next hescapes =>
      simp only [Bool.or_eq_true, decide_eq_true_eq, Option.isNone_iff_eq_none, not_or] at hescapes
      simp only [Except.ok.injEq]
      constructor
      · rintro rfl
        exact ⟨hvalue.1, hvalue.2, hescapes.1, Option.ne_none_iff_exists'.mp hescapes.2, rfl⟩
      · exact fun hchecked => hchecked.2.2.2.2.symm

theorem copyHashed_eq_ok {source target target' : Files} {path : Path} {value : Bytes}
    {record : BackupFile} :
    copyHashed platform source path target value = .ok (record, target') ↔
      ∃ content place, source.entries[path]? = some (.file content) ∧
        Path.resolve value = some place ∧ target.create place content = some target' ∧
        RecordOf platform record content ∧
        record.path = [] := by
  unfold copyHashed
  cases hentry : source.entries[path]? with
  | none => simp
  | some entry =>
      cases entry with
      | symlink => simp
      | special => simp
      | file content =>
          dsimp only
          cases hcreate : (Path.resolve value).bind fun path => target.create path content with
          | none =>
              simp only [reduceCtorEq, false_iff]
              rintro ⟨_, place, ⟨⟩, hresolve, hcreated, -⟩
              rw [hresolve, Option.bind_some, hcreated] at hcreate
              cases hcreate
          | some created =>
              obtain ⟨place, hresolve, hcreated⟩ := Option.bind_eq_some_iff.mp hcreate
              rw [except_bind_eq_ok]
              constructor
              · rintro ⟨⟨bytes, blake3⟩, hhash, hresult⟩
                obtain ⟨rfl, rfl⟩ := Prod.mk.inj (Except.ok.inj hresult)
                obtain ⟨hbytes, hblake3⟩ := hashFile_eq_ok.mp hhash
                exact ⟨content, place, rfl, hresolve, hcreated, ⟨hbytes, hblake3⟩, rfl⟩
              · rintro ⟨_, _, ⟨⟩, hresolve', hcreated', hdescribes, hpath⟩
                rw [hresolve] at hresolve'
                obtain rfl := Option.some.inj hresolve'
                rw [hcreated] at hcreated'
                obtain rfl := Option.some.inj hcreated'
                refine ⟨(record.bytes, record.blake3),
                  hashFile_eq_ok.mpr ⟨hdescribes.bytes, hdescribes.blake3⟩, ?_⟩
                obtain ⟨_, _, _⟩ := record
                obtain rfl := hpath
                rfl

/-- What copying files to a directory without them makes of it. -/
structure Copied (platform : Platform) (source target target' : Files) (paths : List Path)
    (records : List BackupFile) : Prop where
  records : records = paths.filterMap (recordOf platform source)
  each : ∀ path ∈ paths, ∃ content place record, source.entries[path]? = some (.file content) ∧
    checkedRelative (slashed path) = .ok (slashed path) ∧ Path.resolve (slashed path) = some place ∧
    target.entries[place]? = none ∧ recordOf platform source path = some record ∧
    record.path = slashed path ∧ RecordOf platform record content
  apart : paths.Pairwise fun path other =>
    Path.resolve (slashed path) ≠ Path.resolve (slashed other)
  entries : ∀ at' entry, target'.entries[at']? = some entry ↔
    target.entries[at']? = some entry ∨ ∃ path ∈ paths, Path.resolve (slashed path) = some at' ∧
      source.entries[path]? = some entry

theorem copyFiles_spec {source target target' : Files} {paths : List Path}
    {before files : List BackupFile}
    (hcopy : copyFiles platform source paths target before = .ok (files, target')) :
    ∃ records, files = before ++ records ∧ Copied platform source target target' paths records := by
  induction paths generalizing target before with
  | nil =>
      obtain ⟨rfl, rfl⟩ := Prod.mk.inj (Except.ok.inj hcopy)
      exact ⟨[], by simp, rfl, by simp, List.Pairwise.nil, by simp⟩
  | cons path paths ih =>
      simp only [copyFiles, except_bind_eq_ok, relativeString_eq_ok] at hcopy
      obtain ⟨_, ⟨htext, rfl⟩, value, hchecked, ⟨record, created⟩, hcopied, hrest⟩ := hcopy
      obtain ⟨hempty, hbackslash, hrelative, hcomponents, rfl⟩ := checkedRelative_eq_ok.mp hchecked
      obtain ⟨content, place, hcontent, hresolve, hcreate, hdescribes, -⟩ :=
        copyHashed_eq_ok.mp hcopied
      obtain ⟨-, hfree, hentries⟩ := Files.create_eq_some hcreate
      obtain ⟨records, rfl, hcopied⟩ := ih hrest
      have hrecord : recordOf platform source path = some { record with path := slashed path } := by
        have hhash : hashFile platform path content = .ok (record.bytes, record.blake3) :=
          hashFile_eq_ok.mpr ⟨hdescribes.bytes, hdescribes.blake3⟩
        simp only [recordOf, hcontent, hhash]
      have hnew : target.entries[place]? = none := by
        by_contra hold
        obtain ⟨entry, hentry⟩ := Option.ne_none_iff_exists'.mp hold
        exact Files.prefix_absurd hfree hentry rfl
      refine ⟨{ record with path := slashed path } :: records, by simp, ?_, ?_, ?_, ?_⟩
      · rw [List.filterMap_cons_some hrecord, hcopied.records]
      · refine List.forall_mem_cons.mpr ⟨⟨content, place, _, hcontent, hchecked, hresolve, hnew,
          hrecord, rfl, hdescribes.bytes, hdescribes.blake3⟩, fun other hother => ?_⟩
        obtain ⟨content', place', record', hcontent', hchecked', hresolve', hnew', hrest⟩ :=
          hcopied.each other hother
        refine ⟨content', place', record', hcontent', hchecked', hresolve', ?_, hrest⟩
        rw [hentries, OrderedMap.getElem?_insert] at hnew'
        split at hnew'
        · cases hnew'
        · exact hnew'
      · refine List.pairwise_cons.mpr ⟨fun other hother heq => ?_, hcopied.apart⟩
        obtain ⟨_, place', _, _, _, hresolve', hnew', _⟩ := hcopied.each other hother
        rw [hresolve, hresolve'] at heq
        obtain rfl := Option.some.inj heq
        rw [hentries, OrderedMap.getElem?_insert, if_pos rfl] at hnew'
        cases hnew'
      · intro at' entry
        rw [hcopied.entries, hentries, OrderedMap.getElem?_insert]
        simp only [List.exists_mem_cons_iff, hresolve, Option.some.injEq, hcontent]
        by_cases hplace : place = at'
        · subst hplace
          simp [hnew]
        · simp [hplace]

/-- The manifest of a backup. -/
def manifestOf (platform : Platform) (source : Files) (tenant : TenantId) : BackupManifest where
  formatVersion := BACKUP_FORMAT_VERSION
  tenant := tenant
  files := ((walked true true source.entries.toList).filterMap
    (recordOf platform source)).mergeSort fun left right => left.path ≤ right.path

/-- How a backup was made: a copy of what was walked, then the manifest. -/
structure Created (platform : Platform) (source : Files) (tenant : TenantId) (backup : Files) :
    Prop where
  plain : PlainEntries source.entries.toList
  few : (walked true true source.entries.toList).length ≤ MAX_BACKUP_FILES
  copied : ∃ target, Copied platform source Files.empty target
      (walked true true source.entries.toList)
      ((walked true true source.entries.toList).filterMap (recordOf platform source)) ∧
    target.free [BACKUP_MANIFEST_FILE] = true ∧
    backup.entries = target.entries.insert [BACKUP_MANIFEST_FILE]
      (.file (manifestBytes (manifestOf platform source tenant)))

theorem createBackup_spec {source backup : Files} {destination : Destination}
    {tenant : TenantId} {manifest : BackupManifest}
    (hcreate : createBackup platform source destination tenant = .ok (manifest, backup)) :
    manifest = manifestOf platform source tenant ∧ Created platform source tenant backup := by
  simp only [createBackup, except_bind_eq_ok] at hcreate
  obtain ⟨_, -, paths, hwalk, ⟨files, target⟩, hcopy, hmanifest⟩ := hcreate
  obtain ⟨hplain, rfl, hfew⟩ := walkFiles_eq_ok.mp hwalk
  obtain ⟨records, hfiles, hcopied⟩ := copyFiles_spec hcopy
  rw [List.nil_append] at hfiles
  have hrecords := hcopied.records
  rw [hrecords] at hfiles hcopied
  subst hfiles
  dsimp only at hmanifest
  split at hmanifest
  · next created hcreated =>
    obtain ⟨rfl, rfl⟩ := Prod.mk.inj (Except.ok.inj hmanifest)
    obtain ⟨-, hfree, hentries⟩ := Files.create_eq_some hcreated
    exact ⟨rfl, hplain, hfew, target, hcopied, hfree, hentries⟩
  · cases hmanifest

/-! ## Verifying -/

theorem declaredPaths_eq_ok {records : List BackupFile} {declared result : ExtTreeSet Bytes} :
    declaredPaths records declared = .ok result ↔
      (∀ record ∈ records, checkedRelative record.path = .ok record.path) ∧
        (records.map BackupFile.path).Nodup ∧ (∀ record ∈ records, record.path ∉ declared) ∧
        ∀ path, path ∈ result ↔ path ∈ declared ∨ path ∈ records.map BackupFile.path := by
  induction records generalizing declared with
  | nil =>
      simp only [declaredPaths, Except.ok.injEq, List.not_mem_nil, false_implies, implies_true,
        List.map_nil, List.nodup_nil, or_false, true_and]
      constructor
      · rintro rfl path
        exact Iff.rfl
      · exact fun hmem => ExtTreeSet.ext_mem fun path => (hmem path).symm
  | cons record records ih =>
      simp only [declaredPaths, except_bind_eq_ok]
      have hsame : ∀ {value}, checkedRelative record.path = .ok value → value = record.path :=
        fun hchecked => (checkedRelative_eq_ok.mp hchecked).2.2.2.2
      constructor
      · rintro ⟨value, hchecked, hrest⟩
        obtain rfl := hsame hchecked
        split at hrest
        · cases hrest
        · next hnew =>
          obtain ⟨hrecords, hnodup, hapart, hresult⟩ := ih.mp hrest
          simp only [ExtTreeSet.mem_insert, Std.compare_eq_iff_eq, not_or] at hapart
          refine ⟨List.forall_mem_cons.mpr ⟨hchecked, hrecords⟩, ?_,
            List.forall_mem_cons.mpr ⟨hnew, fun other hother => (hapart other hother).2⟩, ?_⟩
          · refine List.nodup_cons.mpr ⟨fun hmem => ?_, hnodup⟩
            obtain ⟨other, hother, heq⟩ := List.mem_map.mp hmem
            exact (hapart other hother).1 heq.symm
          · intro path
            rw [hresult, ExtTreeSet.mem_insert, Std.compare_eq_iff_eq, List.map_cons,
              List.mem_cons]
            tauto
      · rintro ⟨hrecords, hnodup, hapart, hresult⟩
        obtain ⟨hchecked, hrecords⟩ := List.forall_mem_cons.mp hrecords
        obtain ⟨hnew, hapart⟩ := List.forall_mem_cons.mp hapart
        obtain ⟨hnotMem, hnodup⟩ := List.nodup_cons.mp hnodup
        refine ⟨record.path, hchecked, ?_⟩
        rw [if_neg hnew]
        refine ih.mpr ⟨hrecords, hnodup, fun other hother => ?_, fun path => ?_⟩
        · rw [ExtTreeSet.mem_insert, Std.compare_eq_iff_eq, not_or]
          exact ⟨fun heq => hnotMem (heq ▸ List.mem_map_of_mem hother), hapart other hother⟩
        · rw [hresult, ExtTreeSet.mem_insert, Std.compare_eq_iff_eq, List.map_cons, List.mem_cons]
          tauto

/-- The record is of a file that is there. -/
def Present (platform : Platform) (root : Files) (record : BackupFile) : Prop :=
  ∃ place content, Path.resolve record.path = some place ∧
    root.entries[place]? = some (.file content) ∧ RecordOf platform record content

theorem verifyFile_eq_ok {root : Files} {record : BackupFile} {done : Unit}
    (hchecked : checkedRelative record.path = .ok record.path) :
    verifyFile platform root record = .ok done ↔ Present platform root record := by
  simp only [verifyFile, hchecked, except_bind_eq_ok, Except.ok.injEq, exists_eq_left']
  cases hfound : (Path.resolve record.path).bind fun path => root.entries[path]? with
  | none =>
      refine iff_of_false (by rintro ⟨⟩) ?_
      rintro ⟨place, content, hresolve, hentry, -⟩
      rw [hresolve, Option.bind_some, hentry] at hfound
      cases hfound
  | some entry =>
      obtain ⟨place, hresolve, hentry⟩ := Option.bind_eq_some_iff.mp hfound
      have hpresent : Present platform root record ↔
          ∃ content, entry = .file content ∧ RecordOf platform record content := by
        constructor
        · rintro ⟨place', content, hresolve', hentry', hdescribes⟩
          rw [hresolve] at hresolve'
          obtain rfl := Option.some.inj hresolve'
          rw [hentry] at hentry'
          exact ⟨content, Option.some.inj hentry', hdescribes⟩
        · rintro ⟨content, rfl, hdescribes⟩
          exact ⟨place, content, hresolve, hentry, hdescribes⟩
      rw [hpresent]
      cases entry with
      | symlink => exact iff_of_false (by rintro ⟨⟩) (by rintro ⟨_, ⟨⟩, _⟩)
      | special => exact iff_of_false (by rintro ⟨⟩) (by rintro ⟨_, ⟨⟩, _⟩)
      | file content =>
          rw [except_bind_eq_ok]
          constructor
          · rintro ⟨⟨bytes, digest⟩, hhash, hsame⟩
            obtain ⟨hbytes, hdigest⟩ := hashFile_eq_ok.mp hhash
            refine ⟨content, rfl, ?_, ?_⟩
            all_goals
              dsimp only at hsame
              split at hsame
              · cases hsame
              · next heq =>
                simp only [ne_eq, Bool.or_eq_true, decide_eq_true_eq, not_or, not_not] at heq
                obtain ⟨rfl, rfl⟩ := heq
                assumption
          · rintro ⟨_, ⟨⟩, hdescribes⟩
            refine ⟨(record.bytes, record.blake3),
              hashFile_eq_ok.mpr ⟨hdescribes.bytes, hdescribes.blake3⟩, ?_⟩
            simp
            rfl

theorem mapM_eq_ok {α β ε : Type} {items : List α} {step : α → Except ε β} {value : α → β}
    (hstep : ∀ item ∈ items, step item = .ok (value item)) :
    items.mapM step = .ok (items.map value) := by
  induction items with
  | nil => rfl
  | cons item items ih =>
      obtain ⟨hitem, hitems⟩ := List.forall_mem_cons.mp hstep
      rw [List.mapM_cons, hitem, ih hitems]
      rfl

/-- A directory holds what is declared, and nothing else a walk finds. -/
structure Holding (platform : Platform) (root : Files) (records : List BackupFile) : Prop where
  checked : ∀ record ∈ records, checkedRelative record.path = .ok record.path
  nodup : (records.map BackupFile.path).Nodup
  plain : PlainEntries root.entries.toList
  few : (walked true false root.entries.toList).length ≤ MAX_BACKUP_FILES
  same : ∀ path, path ∈ (walked true false root.entries.toList).map slashed ↔
    path ∈ records.map BackupFile.path
  present : ∀ record ∈ records, Present platform root record

theorem mem_ofList {paths : List Bytes} {path : Bytes} :
    path ∈ ExtTreeSet.ofList paths compare ↔ path ∈ paths := by
  rw [ExtTreeSet.mem_ofList, List.contains_iff_mem]

theorem verifyManifestFiles_eq_ok {root : Files} {manifest : BackupManifest} {done : Unit} :
    verifyManifestFiles platform root manifest = .ok done ↔
      Holding platform root manifest.files := by
  have hrelatives : ∀ {paths : List Path}, PlainEntries root.entries.toList →
      paths = walked true false root.entries.toList →
      paths.mapM relativeString = .ok (paths.map slashed) := by
    rintro paths hplain rfl
    refine mapM_eq_ok fun path hpath => ?_
    obtain ⟨entry, hentry, rfl⟩ := List.mem_map.mp (List.mem_filter.mp hpath).1
    exact relativeString_eq_ok.mpr ⟨(hplain entry hentry).2, rfl⟩
  simp only [verifyManifestFiles, except_bind_eq_ok]
  constructor
  · rintro ⟨declared, hdeclared, paths, hwalk, relatives, hmapM, hfiles⟩
    obtain ⟨hchecked, hnodup, -, hmem⟩ := declaredPaths_eq_ok.mp hdeclared
    obtain ⟨hplain, hpaths, hfew⟩ := walkFiles_eq_ok.mp hwalk
    rw [hrelatives hplain hpaths] at hmapM
    obtain rfl := Except.ok.inj hmapM
    subst hpaths
    split at hfiles
    · cases hfiles
    next hdeclared =>
    rw [not_not] at hdeclared
    refine ⟨hchecked, hnodup, hplain, hfew, fun path => ?_, fun record hrecord => ?_⟩
    · rw [← mem_ofList, hdeclared, hmem]
      simp
    · exact (verifyFile_eq_ok (hchecked record hrecord)).mp (except_forM_eq_ok.mp hfiles record hrecord)
  · intro hholding
    refine ⟨ExtTreeSet.ofList (manifest.files.map BackupFile.path) compare,
      declaredPaths_eq_ok.mpr ⟨hholding.checked, hholding.nodup, by simp, fun path => ?_⟩, _,
      walkFiles_eq_ok.mpr ⟨hholding.plain, rfl, hholding.few⟩, _, hrelatives hholding.plain rfl, ?_⟩
    · rw [mem_ofList]
      simp
    · rw [if_neg]
      · exact except_forM_eq_ok.mpr fun record hrecord =>
          (verifyFile_eq_ok (hholding.checked record hrecord)).mpr (hholding.present record hrecord)
      · rw [not_not]
        refine ExtTreeSet.ext_mem fun path => ?_
        rw [mem_ofList, mem_ofList]
        exact hholding.same path

variable {fromSlice : Bytes → Option BackupManifest}

/-- A backup that is accepted: a manifest that is read and is fit, and its files. -/
theorem verifyBackup_eq_ok {root : Files} {manifest : BackupManifest} :
    verifyBackup platform fromSlice root = .ok manifest ↔
      ∃ content, root.entries[[BACKUP_MANIFEST_FILE]]? = some (.file content) ∧
        content.length ≤ MAX_MANIFEST_BYTES ∧ fromSlice content = some manifest ∧
        manifest.formatVersion = BACKUP_FORMAT_VERSION ∧ manifest.tenant ≠ [] ∧
        manifest.files.length ≤ MAX_BACKUP_FILES ∧ Holding platform root manifest.files := by
  have hload : ∀ {content}, loadManifestBytes root = .ok content ↔
      root.entries[[BACKUP_MANIFEST_FILE]]? = some (.file content) ∧
        content.length ≤ MAX_MANIFEST_BYTES := by
    intro content
    unfold loadManifestBytes
    split
    · next found hfound =>
      simp only [hfound, Option.some.injEq, Entry.file.injEq]
      split
      · next hlarge =>
        simp only [reduceCtorEq, false_iff, not_and]
        rintro rfl
        exact not_le.mpr hlarge
      · next hfits =>
        simp only [Except.ok.injEq]
        exact ⟨fun heq => ⟨heq, heq ▸ not_lt.mp hfits⟩, fun h => h.1⟩
    · next entry hfile hfound =>
      simp only [hfound, reduceCtorEq, false_iff, not_and, Option.some.injEq]
      exact fun heq => absurd heq (hfile content)
    · next hfound => simp [hfound]
  have hdecode : ∀ {content}, decodeManifest fromSlice content = .ok manifest ↔
      fromSlice content = some manifest ∧ manifest.formatVersion = BACKUP_FORMAT_VERSION ∧
        manifest.tenant ≠ [] ∧ manifest.files.length ≤ MAX_BACKUP_FILES := by
    intro content
    unfold decodeManifest
    cases hslice : fromSlice content with
    | none => simp
    | some found =>
        simp only [Option.some.injEq]
        constructor
        · intro hfound
          split at hfound
          · cases hfound
          · next hversion =>
            split at hfound
            · cases hfound
            · next htenant =>
              split at hfound
              · cases hfound
              · next hfew =>
                obtain rfl := Except.ok.inj hfound
                exact ⟨rfl, not_not.mp hversion, htenant, not_lt.mp hfew⟩
        · rintro ⟨rfl, hversion, htenant, hfew⟩
          rw [if_neg (not_not.mpr hversion), if_neg htenant, if_neg (not_lt.mpr hfew)]
  simp only [verifyBackup, except_bind_eq_ok, hload]
  constructor
  · rintro ⟨content, ⟨hcontent, hfits⟩, found, hfound, _, hfiles, hresult⟩
    obtain rfl := Except.ok.inj hresult
    obtain ⟨hslice, hversion, htenant, hfew⟩ := hdecode.mp hfound
    exact ⟨content, hcontent, hfits, hslice, hversion, htenant, hfew,
      verifyManifestFiles_eq_ok.mp hfiles⟩
  · rintro ⟨content, hcontent, hfits, hslice, hversion, htenant, hfew, hholding⟩
    exact ⟨content, ⟨hcontent, hfits⟩, manifest, hdecode.mpr ⟨hslice, hversion, htenant, hfew⟩,
      (), verifyManifestFiles_eq_ok.mpr hholding, rfl⟩

/-! ## Restoring -/

/-- A restored file is that of the backup, and it is what its record says. -/
theorem restoreFiles_cons_eq_ok {backup target restored : Files} {record : BackupFile}
    {records : List BackupFile} :
    restoreFiles platform backup (record :: records) target = .ok restored ↔
      checkedRelative record.path = .ok record.path ∧ ∃ place content created,
        Path.resolve record.path = some place ∧ backup.entries[place]? = some (.file content) ∧
        target.create place content = some created ∧ RecordOf platform record content ∧
        restoreFiles platform backup records created = .ok restored := by
  simp only [restoreFiles, except_bind_eq_ok]
  constructor
  · rintro ⟨value, hchecked, hrest⟩
    obtain rfl := (checkedRelative_eq_ok.mp hchecked).2.2.2.2
    refine ⟨hchecked, ?_⟩
    cases hresolve : Path.resolve record.path with
    | none =>
        rw [hresolve] at hrest
        cases hrest
    | some place =>
        simp only [hresolve, except_bind_eq_ok] at hrest
        obtain ⟨⟨copied, created⟩, hcopied, hrest⟩ := hrest
        obtain ⟨content, place', hcontent, hresolve', hcreate, hdescribes, -⟩ :=
          copyHashed_eq_ok.mp hcopied
        rw [hresolve] at hresolve'
        obtain rfl := Option.some.inj hresolve'
        split at hrest
        · cases hrest
        · next hsame =>
          simp only [ne_eq, Bool.or_eq_true, decide_eq_true_eq, not_or, not_not] at hsame
          exact ⟨place, content, created, rfl, hcontent, hcreate,
            ⟨hsame.1 ▸ hdescribes.bytes, hsame.2 ▸ hdescribes.blake3⟩, hrest⟩
  · rintro ⟨hchecked, place, content, created, hresolve, hcontent, hcreate, hdescribes, hrest⟩
    refine ⟨record.path, hchecked, ?_⟩
    simp only [hresolve, except_bind_eq_ok]
    refine ⟨({ record with path := [] }, created),
      copyHashed_eq_ok.mpr ⟨content, place, hcontent, hresolve, hcreate,
        ⟨hdescribes.bytes, hdescribes.blake3⟩, rfl⟩, ?_⟩
    simpa using hrest

/-- What is restored are files of the backup, at the paths that are declared. -/
theorem restoreFiles_entries {backup target restored : Files} {records : List BackupFile}
    (hrestore : restoreFiles platform backup records target = .ok restored) (path : Path)
    (entry : Entry) :
    restored.entries[path]? = some entry ↔ target.entries[path]? = some entry ∨
      ∃ record ∈ records, Path.resolve record.path = some path ∧
        backup.entries[path]? = some entry := by
  induction records generalizing target with
  | nil =>
      obtain rfl := Except.ok.inj hrestore
      simp
  | cons record records ih =>
      obtain ⟨-, place, content, created, hresolve, hcontent, hcreate, -, hrest⟩ :=
        restoreFiles_cons_eq_ok.mp hrestore
      obtain ⟨-, hfree, hentries⟩ := Files.create_eq_some hcreate
      rw [ih hrest, hentries, OrderedMap.getElem?_insert]
      simp only [List.exists_mem_cons_iff, hresolve, Option.some.injEq]
      by_cases hplace : place = path
      · subst hplace
        have hnew : target.entries[place]? = none := by
          by_contra hold
          obtain ⟨entry, hentry⟩ := Option.ne_none_iff_exists'.mp hold
          exact Files.prefix_absurd hfree hentry rfl
        simp [hnew, hcontent]
      · simp [hplace]

/-- Files of the backup at different paths can be restored. -/
theorem restoreFiles_succeeds {backup target : Files} {records : List BackupFile}
    (hchecked : ∀ record ∈ records, checkedRelative record.path = .ok record.path)
    (hpresent : ∀ record ∈ records, Present platform backup record)
    (hnew : ∀ record ∈ records, ∀ path : Path, Path.resolve record.path = some path →
      target.entries[path]? = none)
    (hapart : records.Pairwise fun record other =>
      Path.resolve record.path ≠ Path.resolve other.path)
    (hfrom : ∀ (path : Path) (entry : Entry), target.entries[path]? = some entry →
      backup.entries[path]? = some entry) :
    ∃ restored, restoreFiles platform backup records target = .ok restored := by
  induction records generalizing target with
  | nil => exact ⟨target, rfl⟩
  | cons record records ih =>
      obtain ⟨hchecked, hcheckeds⟩ := List.forall_mem_cons.mp hchecked
      obtain ⟨⟨place, content, hresolve, hcontent, hdescribes⟩, hpresents⟩ :=
        List.forall_mem_cons.mp hpresent
      obtain ⟨hnewPlace, hnews⟩ := List.forall_mem_cons.mp hnew
      obtain ⟨hother, hapart⟩ := List.pairwise_cons.mp hapart
      have hplace := hnewPlace place hresolve
      have hcreate : ∃ created, target.create place content = some created := by
        unfold Files.create
        rw [dif_pos]
        · exact ⟨_, rfl⟩
        · refine ⟨backup.legal place _ hcontent, Files.free_eq_true.mpr fun path entry hentry => ?_⟩
          have hbackup := hfrom path entry hentry
          have hne : path ≠ place := by
            rintro rfl
            rw [hplace] at hentry
            cases hentry
          exact ⟨fun hprefix => hne (backup.apart _ _ _ _ hbackup hcontent hprefix),
            fun hprefix => hne (backup.apart _ _ _ _ hcontent hbackup hprefix).symm⟩
      obtain ⟨created, hcreate⟩ := hcreate
      obtain ⟨-, -, hentries⟩ := Files.create_eq_some hcreate
      obtain ⟨restored, hrestored⟩ : ∃ restored,
          restoreFiles platform backup records created = .ok restored := by
        refine ih hcheckeds hpresents (fun other hmem path hpath => ?_) hapart
          fun path entry hentry => ?_
        · rw [hentries, OrderedMap.getElem?_insert, if_neg]
          · exact hnews other hmem path hpath
          · rintro rfl
            exact hother other hmem (hresolve.trans hpath.symm)
        · rw [hentries, OrderedMap.getElem?_insert] at hentry
          split at hentry
          · next heq => exact heq ▸ hentry ▸ hcontent
          · exact hfrom path entry hentry
      exact ⟨restored, restoreFiles_cons_eq_ok.mpr ⟨hchecked, place, content, created, hresolve,
        hcontent, hcreate, hdescribes, hrestored⟩⟩

end LoomDB
