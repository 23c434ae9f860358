import MicaCore.Data.Except
import MicaCore.Data.Text

namespace MicaCore.Ui

open Data

abbrev TreePath := List Bytes

def indexName : Text := "index.html".toList

def manifestName : Text := "mica-ui.json".toList

def maxU64 : ℕ := 2 ^ 64 - 1

/-- The limits on a package. -/
def maxCompressedBytes : ℕ := 64 * 1024 * 1024
def maxExpandedBytes : ℕ := 256 * 1024 * 1024
def maxFileBytes : ℕ := 32 * 1024 * 1024
def maxEntries : ℕ := 4096
def maxDepth : ℕ := 32
def maxPathBytes : ℕ := 240
def maxExpansionRatio : ℕ := 100

structure PackageManifest where
  schemaVersion : ℕ
  name : Text
  version : Text
  immutableDir : Text
  apiVersions : List Text
  deriving DecidableEq

/-- An entry of a ZIP archive; it has no name when its name is not UTF-8. -/
structure ZipFile where
  nameRaw : Option Text
  isDir : Bool
  encrypted : Bool
  isSymlink : Bool
  unixMode : Option ℕ
  size : ℕ
  compressedSize : ℕ
  content : Bytes
  deriving DecidableEq

/-- How a text is quoted in a message, and the reader of a package's manifest. -/
structure PackageReaders where
  debug : Text → Text
  fromSlice : Bytes → Except Text PackageManifest

structure PlanEntry where
  path : List Text
  isDir : Bool
  declaredSize : ℕ
  content : Bytes

def PlanEntry.target (entry : PlanEntry) : TreePath := entry.path.map utf8Bytes

structure Inspection where
  manifest : PackageManifest
  compressedBytes : ℕ
  expandedBytes : ℕ
  plan : List PlanEntry

def displayed (path : List Text) : Text := ['/'].intercalate path

section Inspect

variable (lib : PackageReaders)

/-- The components of an entry's path. Every part is an ordinary name once the second check
passed, so the parts are the components. -/
def validateName (raw : Text) (directory : Bool) : Except Text (List Text) := do
  let refusal := "unsafe ZIP entry name ".toList ++ lib.debug raw
  ensure (!(raw.isEmpty || maxPathBytes < byteLength raw || raw.contains '\\' || raw.contains '%'
    || raw.head? == some '/' || raw.any isControl)) refusal
  let name := if directory then (stripSuffix ['/'] raw).getD raw else raw
  ensure (!(name.isEmpty || (name.splitOn '/').any fun part ↦
    part.isEmpty || part == ".".toList || part == "..".toList)) refusal
  ensure ((name.splitOn '/').length ≤ maxDepth) refusal
  pure (name.splitOn '/')

def PackageManifest.validate (manifest : PackageManifest) : Except Text Unit := do
  let unusable (t : Text) : Bool := isBlank t || 128 < byteLength t || t.any isControl
  ensure (manifest.schemaVersion == 1)
    s!"unsupported manifest schemaVersion {manifest.schemaVersion}; expected 1".toList
  ensure (!unusable manifest.name) "manifest name must contain 1..128 bytes".toList
  ensure (!unusable manifest.version) "manifest version must contain 1..128 bytes".toList
  let immutable ← validateName lib manifest.immutableDir false
  ensure (immutable.length == 1) "manifest immutableDir must name one root directory".toList
  ensure (!(manifest.apiVersions.isEmpty || manifest.apiVersions.any fun version ↦
      version.isEmpty || 32 < byteLength version || !version.all fun c ↦ asciiAlphanumeric c || c == '-'))
    "manifest apiVersions must contain short alphanumeric version names".toList

def validateKind (file : ZipFile) (path : List Text) : Except Text Unit := do
  ensure (!file.isSymlink) (displayed path ++ " is a symbolic link".toList)
  file.unixMode.elim (pure ()) fun mode ↦
    let kind := mode &&& 0o170000
    ensure (kind == 0 || kind == if file.isDir then 0o040000 else 0o100000)
      (displayed path ++ " is not a regular file or directory".toList)

structure Inspecting where
  seen : List (List Text) := []
  plan : List PlanEntry := []
  compressed : ℕ := 0
  expanded : ℕ := 0

def inspectFile (s : Inspecting) (file : Option ZipFile) : Except Text Inspecting := do
  let file ← orError s!"read ZIP entry {s.plan.length}".toList file
  ensure (!file.encrypted) "encrypted ZIP entries are not supported".toList
  let raw ← orError "ZIP entry name is not UTF-8".toList file.nameRaw
  let path ← validateName lib raw file.isDir
  ensure (!s.seen.contains path) ("duplicate ZIP entry ".toList ++ displayed path)
  validateKind file path
  ensure (file.isDir || file.size ≤ maxFileBytes)
    (displayed path ++ s!" is larger than {maxFileBytes} bytes".toList)
  let compressed := s.compressed + file.compressedSize
  ensure (compressed ≤ maxU64) "compressed byte count overflow".toList
  let expanded := s.expanded + file.size
  ensure (expanded ≤ maxU64) "expanded byte count overflow".toList
  ensure (compressed ≤ maxCompressedBytes && expanded ≤ maxExpandedBytes)
    "archive exceeds its compressed or expanded byte limit".toList
  pure ⟨path :: s.seen, s.plan ++ [⟨path, file.isDir, file.size, file.content⟩], compressed,
    expanded⟩

def readPackageManifest (archive : List (Option ZipFile)) : Except Text PackageManifest := do
  let file ← orError "open package manifest".toList
    ((archive.filterMap id).find? fun file ↦ file.nameRaw == some manifestName)
  let bytes := file.content.take (maxFileBytes + 1)
  ensure (bytes.length == file.size && bytes.length ≤ maxFileBytes)
    "package manifest expanded beyond its declared or permitted size".toList
  let manifest ← lib.fromSlice bytes
  manifest.validate lib
  pure manifest

def inspectArchive (archive : List (Option ZipFile)) : Except Text Inspection := do
  ensure (archive.length ≤ maxEntries) s!"archive contains more than {maxEntries} entries".toList
  let s ← archive.foldlM (inspectFile lib) {}
  ensure (s.expanded == 0 || (s.compressed != 0 && s.expanded ≤ s.compressed * maxExpansionRatio))
    s!"archive expands by more than {maxExpansionRatio}:1".toList
  ensure (s.seen.contains [indexName] && s.seen.contains [manifestName])
    "package root must contain index.html and mica-ui.json".toList
  let manifest ← readPackageManifest lib archive
  pure ⟨manifest, s.compressed, s.expanded, s.plan⟩

/-- An uploaded file: its length, and its entries if its directory can be read. -/
structure Package where
  bytes : ℕ
  archive : Option (List (Option ZipFile))

/-- The size recorded of a package is that of the file, and not the sum over its entries. -/
def inspect (package : Package) : Except Text Inspection := do
  ensure (package.bytes ≤ maxCompressedBytes)
    s!"archive file is larger than {maxCompressedBytes} bytes".toList
  let archive ← orError "read ZIP directory".toList package.archive
  let inspection ← inspectArchive lib archive
  pure { inspection with compressedBytes := package.bytes }

end Inspect

def consoleManifest : Bytes :=
  utf8Bytes ("\x7b\"schemaVersion\":1,\"name\":\"console\",\"version\":\"1.0.0\"," ++
    "\"immutableDir\":\"assets\",\"apiVersions\":[\"v1\"]\x7d").toList

def consoleReaders : PackageReaders where
  debug := quoted
  fromSlice bytes :=
    if bytes = consoleManifest then
      .ok ⟨1, "console".toList, "1.0.0".toList, "assets".toList, ["v1".toList]⟩
    else .error "expected value at line 1 column 1".toList

def zipped (name : Text) (content : Bytes) : Option ZipFile :=
  some ⟨some name, false, false, false, none, content.length, content.length, content⟩

/-- A console of two files, one of them called `name`. -/
def consoleArchive (name : Text) : List (Option ZipFile) :=
  [zipped indexName [60], zipped name [59], zipped manifestName consoleManifest]

end MicaCore.Ui
