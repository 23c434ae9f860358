import MicaCore.Crash.Program
import MicaCore.Data.Bytes
import MicaCore.Data.OrdMap
import MicaCore.Network.Address
import MicaCore.Ui.Archive
import Mathlib.Data.Char
import Mathlib.Data.List.Lex

namespace MicaCore.Ui

open Data Crash

inductive Node where
  | dir
  | file (content : Bytes) (links : ℕ)
  | irregular
  deriving DecidableEq

/-- Nothing but a directory or a file under one name belongs in a tree. -/
def Node.single : Node → Bool
  | .dir => true
  | .file _ links => links ≤ 1
  | .irregular => false

abbrev Tree := OrdMap TreePath Node

structure Manifest where
  name : Text
  version : Text
  apiVersions : List Text
  deriving DecidableEq

inductive CompatCheck where
  | notRun
  | ran (declared served : List Text) (compatible : Bool)
  deriving DecidableEq

structure Record where
  digest : Text
  compat : CompatCheck
  compressedBytes : Option ℕ
  expandedBytes : Option ℕ
  deriving DecidableEq

inductive Rejection where
  | stagingNotDirectory (generation : ℕ)
  | generationExists (generation : ℕ)
  | retentionLimit (limit : ℕ)
  | hardlink (path : TreePath) (links : ℕ)
  | irregularEntry (path : TreePath)
  | missingIndex
  | indexNotRegularFile
  | manifestUnparsable (err : Text)
  | incompatible (declared served : List Text)
  | duplicatePackage (generation : ℕ)
  | nameVersionConflict (name version : Text) (generation : ℕ)
  | package (why : Text)
  | io
  deriving DecidableEq

/-- Staged and installed directories by name, the records, and the active generation. -/
structure Store where
  staged : OrdMap Text Tree
  bundles : OrdMap Text Tree
  records : OrdMap Text Record
  current : Option ℕ

structure Readers extends PackageReaders where
  parseManifest : Bytes → Except Text Manifest
  sha256 : Bytes → Text

inductive Step where
  | makeStaging
  | entry (path : TreePath)
  | syncStaging
  | removeStaging
  | modes
  | sync
  | rename
  | record
  | pointer
  | readPointer
  | readRecord
  | readManifest
  | hash
  deriving DecidableEq

/-- In what pieces a file is read, in what order a tree is removed, which steps fail. -/
structure Machine where
  pieces : Bytes → List Bytes
  pieces_flatten : ∀ content, (pieces content).flatten = content
  order : Tree → List TreePath
  fails : Step → Bool

def generationOf (name : Text) : Option ℕ := Network.parseUnsigned maxU64 name

def rootPath (name : Text) : TreePath := [utf8Bytes name]

def slash : UInt8 := 0x2f

def encoded (path : TreePath) : Bytes := [slash].intercalate path

def toLeBytes (n : ℕ) : Bytes := (toBigEndian 8 n).reverse

def tagDir : UInt8 := 0x64
def tagFile : UInt8 := 0x66

def record (path : TreePath) : Node → Bytes
  | .file content _ =>
    tagFile :: 0 :: (encoded path ++ 0 :: (toLeBytes content.length ++ content))
  | _ => tagDir :: 0 :: (encoded path ++ [0])

/-- What the digest of a tree is taken over: its entries in the order of their paths. -/
def hashedBytes (tree : Tree) : Bytes := tree.entries.flatMap fun e ↦ record e.1 e.2

def Readers.digest (lib : Readers) (tree : Tree) : Text := lib.sha256 (hashedBytes tree)

namespace Store

variable (s : Store)

def stagingDir (generation : ℕ) : Option Tree := s.staged.get (numeral generation)

def bundleDir (generation : ℕ) : Option Tree := s.bundles.get (numeral generation)

def generations : List ℕ := (s.bundles.keys.filterMap generationOf).mergeSort

def discoverStaged : List ℕ := (s.staged.keys.filterMap generationOf).mergeSort

def nextGeneration : Except Rejection ℕ :=
  let newest := s.generations.max?.getD 0
  if newest < maxU64 then .ok (newest + 1) else .error .io

def setStaged (generation : ℕ) (tree : Tree) : Store :=
  { s with staged := s.staged.insert (numeral generation) tree }

end Store

def checkEntry (path : TreePath) : Node → Except Rejection Unit
  | .dir => pure ()
  | .file _ links => ensure (links ≤ 1) (.hardlink path links)
  | .irregular => .error (.irregularEntry path)

@[simp] theorem checkEntry_eq_ok {path : TreePath} {node : Node} {u : Unit} :
    checkEntry path node = .ok u ↔ node.single = true := by
  cases node <;> simp [checkEntry, Node.single]

def validateTree (tree : Tree) : Except Rejection Unit := do
  forM tree.entries fun e ↦ checkEntry e.1 e.2
  match tree.get (rootPath indexName) with
  | none => .error .missingIndex
  | some (.file _ _) => pure ()
  | some _ => .error .indexNotRegularFile

def readManifest (lib : Readers) (tree : Tree) : Except Rejection (Option Manifest) :=
  match tree.get (rootPath manifestName) with
  | none => .ok none
  | some (.file content _) =>
    match lib.parseManifest content with
    | .ok manifest => .ok (some manifest)
    | .error err => .error (.manifestUnparsable err)
  | some _ => .error .io

def checkCompat (manifest : Option Manifest) (served : List Text) : Except Rejection CompatCheck :=
  match manifest with
  | none => .ok .notRun
  | some manifest =>
    if manifest.apiVersions.any served.contains then .ok (.ran manifest.apiVersions served true)
    else .error (.incompatible manifest.apiVersions served)

def checkInstalled (lib : Readers) (enforce : Bool) (manifest : Option Manifest) (digest : Text)
    (installed : ℕ) (tree : Option Tree) : Except Rejection Unit :=
  let identity : Option Manifest :=
    if enforce then
      match manifest, tree.map (readManifest lib) with
      | some new, some (.ok (some old)) =>
        if new.name = old.name ∧ new.version = old.version then some new else none
      | _, _ => none
    else none
  let conflict : Except Rejection Unit :=
    match identity with
    | some new => .error (.nameVersionConflict new.name new.version installed)
    | none => .ok ()
  match tree with
  | none => conflict
  | some tree =>
    match validateTree tree with
    | .error _ => conflict
    | .ok () =>
      if enforce && lib.digest tree == digest then .error (.duplicatePackage installed) else conflict

def checkStaged (lib : Readers) (machine : Machine) (s : Store) (generation : ℕ)
    (served : List Text) (enforce : Bool) : Except Rejection (Tree × CompatCheck) := do
  let tree ← orError (.stagingNotDirectory generation) (s.stagingDir generation)
  ensure (s.bundleDir generation).isNone (.generationExists generation)
  ensure (!(enforce && 32 ≤ s.generations.length)) (.retentionLimit 32)
  validateTree tree
  let manifest ← readManifest lib tree
  let compat ← checkCompat manifest served
  ensure (!machine.fails .modes) .io
  forM s.generations fun installed ↦
    checkInstalled lib enforce manifest (lib.digest tree) installed (s.bundleDir installed)
  pure (tree, compat)

section Programs

variable (lib : Readers) (machine : Machine)

def tryStep (step : Step) : Prog Store Rejection Unit := .ensure (!machine.fails step) .io

def installStaged (generation : ℕ) (served : List Text) (enforce : Bool)
    (sizes : Option (ℕ × ℕ)) : Prog Store Rejection Unit := do
  let (tree, compat) ← Prog.read fun s ↦ checkStaged lib machine s generation served enforce
  tryStep machine .sync
  tryStep machine .rename
  Prog.write fun s ↦ { s with
    staged := s.staged.erase (numeral generation)
    bundles := s.bundles.insert (numeral generation) tree }
  tryStep machine .record
  Prog.write fun s ↦ { s with
    records := s.records.insert (numeral generation)
      ⟨lib.digest tree, compat, sizes.map Prod.fst, sizes.map Prod.snd⟩ }

def activate (generation : ℕ) (served : List Text) : Prog Store Rejection Unit := do
  installStaged lib machine generation served false none
  tryStep machine .pointer
  Prog.write fun s ↦ { s with current := some generation }

def pickUpStaged (served : List Text) : Prog Store Rejection (Option ℕ) := do
  match (← Prog.get).discoverStaged.getLast? with
  | none => pure none
  | some generation =>
    activate lib machine generation served
    pure (some generation)

def removeStaging (generation : ℕ) : Prog Store Rejection Unit := do
  match (← Prog.get).stagingDir generation with
  | none => pure ()
  | some tree =>
    forM (machine.order tree) fun path ↦ Prog.write fun s ↦
      (s.stagingDir generation).elim s fun tree ↦ s.setStaged generation (tree.erase path)
    Prog.when (!machine.fails .removeStaging)
      (Prog.write fun s ↦ { s with staged := s.staged.erase (numeral generation) })

end Programs

end MicaCore.Ui
