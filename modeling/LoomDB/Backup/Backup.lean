import LoomDB.Backup.Files
import LoomDB.Core.Hex

/-!
# Backups

A backup is a directory with a copy of every file and a manifest that lists each with its
length and its digest. Verifying one compares the list with what is there; restoring one
verifies it and copies what is listed. Writing to the file system does not fail here other
than over what is already there.
-/

namespace LoomDB

open Std (ExtTreeSet)

def BACKUP_FORMAT_VERSION : Fin (256 ^ 4) := 1

def BACKUP_MANIFEST_FILE : Name := ascii "loom-backup-manifest.json"

def BACKUP_SIGNATURE_FILE : Name := ascii "loom-backup-manifest.sig.json"

def PROCESS_LOCK_RELATIVE : Bytes := ascii "loom/store.lock"

/-- Sixteen mebibytes. -/
def MAX_MANIFEST_BYTES : ℕ := 16777216

def MAX_BACKUP_FILES : ℕ := 1000000

/-- One file covered by a manifest. -/
structure BackupFile where
  /-- Slash-separated, relative to the root. -/
  path : Bytes
  bytes : U64
  /-- The digest in lower-case hexadecimal. -/
  blake3 : Bytes
  deriving DecidableEq

structure BackupManifest where
  formatVersion : Fin (256 ^ 4)
  tenant : TenantId
  files : List BackupFile
  deriving DecidableEq

/-- What an integrity check found. -/
inductive Integrity where
  | notPortable (value : Bytes)
  | escapes (value : Bytes)
  | symlinked (path : Path)
  | notRegular (path : Path)
  | tooManyFiles
  | lengthOverflows (path : Path)
  | manifestNotRegular
  | manifestTooLarge (bytes : ℕ)
  | unsupportedFormat (version : Fin (256 ^ 4))
  | emptyTenant
  | declaresTooMany
  | declaredTwice (path : Bytes)
  | mismatch (missing extra : List Bytes)
  | changed (path : Bytes)
  | changedWhileCopying (path : Bytes)
  deriving DecidableEq

inductive Unsupported where
  | notText (path : Path)
  | noParent
  | noPortableName
  | insideSource
  deriving DecidableEq

inductive BackupError where
  | io (operation : String) (path : Bytes)
  | manifestDecode
  | integrity (reason : Integrity)
  | unsupported (reason : Unsupported)
  | destinationExists
  deriving DecidableEq

/-! ## Paths -/

/-- The path as it is written into a manifest. -/
def slashed (path : Path) : Bytes :=
  (spell path).map fun byte => if byte = BACKSLASH then SLASH else byte

def relativeString (path : Path) : Except BackupError Bytes :=
  if isUtf8 (spell path) then .ok (slashed path) else .error (.unsupported (.notText path))

def checkedRelative (value : Bytes) : Except BackupError Bytes :=
  if value = [] || BACKSLASH ∈ value then .error (.integrity (.notPortable value))
  else if value.head? = some SLASH || (components value).isNone then
    .error (.integrity (.escapes value))
  else .ok value

/-- Whether a walk passes a file over. -/
def excluded (excludeManifest excludeProcessLock : Bool) (relative : Bytes) : Bool :=
  (excludeManifest && (relative = BACKUP_MANIFEST_FILE || relative = BACKUP_SIGNATURE_FILE)) ||
    (excludeProcessLock && relative = PROCESS_LOCK_RELATIVE)

def walkEntries (excludeManifest excludeProcessLock : Bool) :
    List (Path × Entry) → List Path → Except BackupError (List Path)
  | [], output => .ok output
  | (path, .symlink) :: _, _ => .error (.integrity (.symlinked path))
  | (path, .special) :: _, _ => .error (.integrity (.notRegular path))
  | (path, .file _) :: rest, output => do
      let relative ← relativeString path
      if excluded excludeManifest excludeProcessLock relative then
        walkEntries excludeManifest excludeProcessLock rest output
      else if MAX_BACKUP_FILES < (output ++ [path]).length then
        .error (.integrity .tooManyFiles)
      else walkEntries excludeManifest excludeProcessLock rest (output ++ [path])

/-- The regular files below a root. The entries of a directory are visited in the order of
their names, so the paths come in theirs. -/
def walkFiles (excludeManifest excludeProcessLock : Bool) (root : Files) :
    Except BackupError (List Path) :=
  walkEntries excludeManifest excludeProcessLock root.entries.toList []

/-! ## The manifest -/

/-- A character of a JSON string. -/
def jsonChar (byte : Byte) : Bytes :=
  if byte = 0x22 then ascii "\\\""
  else if byte = 0x5C then ascii "\\\\"
  else if byte = 0x08 then ascii "\\b"
  else if byte = 0x09 then ascii "\\t"
  else if byte = 0x0A then ascii "\\n"
  else if byte = 0x0C then ascii "\\f"
  else if byte = 0x0D then ascii "\\r"
  else if byte < 0x20 then ascii "\\u00" ++ toHex [byte]
  else [byte]

def jsonString (text : Bytes) : Bytes :=
  ascii "\"" ++ text.flatMap jsonChar ++ ascii "\""

namespace BackupFile

def toJson (file : BackupFile) : Bytes :=
  ascii "    \x7b\n      \"path\": " ++ jsonString file.path ++
    ascii ",\n      \"bytes\": " ++ decimal file.bytes.val ++
    ascii ",\n      \"blake3\": " ++ jsonString file.blake3 ++ ascii "\n    \x7d"

end BackupFile

namespace BackupManifest

/-- `to_vec_pretty` of a manifest. -/
def toJson (manifest : BackupManifest) : Bytes :=
  ascii "\x7b\n  \"format_version\": " ++ decimal manifest.formatVersion.val ++
    ascii ",\n  \"tenant\": " ++ jsonString manifest.tenant ++ ascii ",\n  \"files\": " ++
    (if manifest.files = [] then ascii "[]"
      else ascii "[\n" ++ (ascii ",\n").intercalate (manifest.files.map BackupFile.toJson) ++
        ascii "\n  ]") ++
    ascii "\n\x7d"

end BackupManifest

def manifestBytes (manifest : BackupManifest) : Bytes :=
  manifest.toJson ++ ascii "\n"

/-! ## Copying -/

variable (platform : Platform)

/-- The record of a file with the content. -/
def hashFile (path : Path) (content : Bytes) : Except BackupError (U64 × Bytes) :=
  if h : content.length < 256 ^ 8 then
    .ok (⟨content.length, h⟩, toHex (platform.blake3 content).asBytes)
  else .error (.integrity (.lengthOverflows path))

/-- Copy a file to a new one, named by a text. -/
def copyHashed (source : Files) (path : Path) (target : Files) (value : Bytes) :
    Except BackupError (BackupFile × Files) :=
  match source.entries[path]? with
  | some (.file content) =>
      match (Path.resolve value).bind fun path => target.create path content with
      | some target => do
          let (bytes, blake3) ← hashFile platform path content
          return ({ path := [], bytes := bytes, blake3 := blake3 }, target)
      | none => .error (.io "create destination" value)
  | _ => .error (.io "open source" (spell path))

/-- What is found where the directory of a destination should be. -/
inductive DestinationParent where
  | missing
  | noDirectory
  | directory
  deriving DecidableEq

/-- Where a backup or a restored database goes. -/
structure Destination where
  taken : Bool
  parentPath : Bytes
  parent : DestinationParent
  insideSource : Bool
  nameText : Bool

/-- A parent that is not there cannot be made canonical, which is tried first. -/
def Destination.check (destination : Destination) : Except BackupError Unit :=
  if destination.taken then .error .destinationExists
  else if destination.parent = .missing then
    .error (.io "canonicalize destination parent" destination.parentPath)
  else if destination.insideSource then .error (.unsupported .insideSource)
  else if destination.parent = .noDirectory then .error (.unsupported .noParent)
  else if !destination.nameText then .error (.unsupported .noPortableName)
  else .ok ()

def copyFiles (source : Files) :
    List Path → Files → List BackupFile → Except BackupError (List BackupFile × Files)
  | [], target, files => .ok (files, target)
  | path :: paths, target, files => do
      let relative ← relativeString path
      let value ← checkedRelative relative
      let (record, target) ← copyHashed platform source path target value
      copyFiles source paths target (files ++ [{ record with path := relative }])

/-- The manifest, and the directory that is published under the destination. -/
def createBackup (source : Files) (destination : Destination) (tenant : TenantId) :
    Except BackupError (BackupManifest × Files) := do
  destination.check
  let paths ← walkFiles true true source
  let (files, target) ← copyFiles platform source paths Files.empty []
  let manifest : BackupManifest :=
    { formatVersion := BACKUP_FORMAT_VERSION
      tenant := tenant
      files := files.mergeSort fun left right => left.path ≤ right.path }
  match target.create [BACKUP_MANIFEST_FILE] (manifestBytes manifest) with
  | some backup => return (manifest, backup)
  | none => throw (.io "create manifest" BACKUP_MANIFEST_FILE)

/-! ## Verifying -/

def loadManifestBytes (root : Files) : Except BackupError Bytes :=
  match root.entries[[BACKUP_MANIFEST_FILE]]? with
  | some (.file content) =>
      if MAX_MANIFEST_BYTES < content.length then
        .error (.integrity (.manifestTooLarge content.length))
      else .ok content
  | some _ => .error (.integrity .manifestNotRegular)
  | none => .error (.io "stat manifest" BACKUP_MANIFEST_FILE)

variable (fromSlice : Bytes → Option BackupManifest)

/-- A decoded manifest, checked. -/
def decodeManifest (bytes : Bytes) : Except BackupError BackupManifest :=
  match fromSlice bytes with
  | none => .error .manifestDecode
  | some manifest =>
      if manifest.formatVersion ≠ BACKUP_FORMAT_VERSION then
        .error (.integrity (.unsupportedFormat manifest.formatVersion))
      else if manifest.tenant = [] then .error (.integrity .emptyTenant)
      else if MAX_BACKUP_FILES < manifest.files.length then
        .error (.integrity .declaresTooMany)
      else .ok manifest

/-- The paths a manifest declares, each once. -/
def declaredPaths : List BackupFile → ExtTreeSet Bytes → Except BackupError (ExtTreeSet Bytes)
  | [], declared => .ok declared
  | record :: records, declared => do
      let _ ← checkedRelative record.path
      if record.path ∈ declared then .error (.integrity (.declaredTwice record.path))
      else declaredPaths records (declared.insert record.path)

/-- A declared file is what it was. -/
def verifyFile (root : Files) (record : BackupFile) : Except BackupError Unit := do
  let value ← checkedRelative record.path
  match (Path.resolve value).bind fun path => root.entries[path]? with
  | some (.file content) => do
      let (bytes, digest) ← hashFile platform [value] content
      if bytes ≠ record.bytes || digest ≠ record.blake3 then
        throw (.integrity (.changed record.path))
  | some _ => throw (.integrity (.notRegular [value]))
  | none => throw (.io "stat backup file" value)

def verifyManifestFiles (root : Files) (manifest : BackupManifest) : Except BackupError Unit := do
  let declared ← declaredPaths manifest.files ∅
  let paths ← walkFiles true false root
  let relatives ← paths.mapM relativeString
  let actual := ExtTreeSet.ofList relatives compare
  if actual ≠ declared then
    throw (.integrity (.mismatch (declared.toList.filter fun path => path ∉ actual)
      (actual.toList.filter fun path => path ∉ declared)))
  manifest.files.forM (verifyFile platform root)

def verifyBackup (root : Files) : Except BackupError BackupManifest := do
  let bytes ← loadManifestBytes root
  let manifest ← decodeManifest fromSlice bytes
  verifyManifestFiles platform root manifest
  return manifest

/-! ## Restoring -/

def restoreFiles (backup : Files) : List BackupFile → Files → Except BackupError Files
  | [], target => .ok target
  | record :: records, target => do
      let value ← checkedRelative record.path
      match Path.resolve value with
      | none => throw (.io "open source" value)
      | some path => do
          let (copied, target) ← copyHashed platform backup path target value
          if copied.bytes ≠ record.bytes || copied.blake3 ≠ record.blake3 then
            throw (.integrity (.changedWhileCopying record.path))
          else restoreFiles backup records target

/-- The manifest, and the directory that is published under the destination. -/
def restoreBackup (backup : Files) (destination : Destination) :
    Except BackupError (BackupManifest × Files) := do
  let manifest ← verifyBackup platform fromSlice backup
  destination.check
  let files ← restoreFiles platform backup manifest.files Files.empty
  return (manifest, files)

end LoomDB
