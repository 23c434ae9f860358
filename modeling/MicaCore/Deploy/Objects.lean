import MicaCore.Deploy.State

namespace MicaCore.Deploy

open Data Crash

/-- A file on SYSTEM or the ESP, or a static volume on a UBI board. -/
inductive Place
  | file (p : Path)
  | volume (v : Vol)
  deriving DecidableEq

namespace Place

def item : Place → Item
  | .file p => .file p
  | .volume v => .volume v

def pending : Place → Item
  | .file p => .temporary p
  | .volume v => .pendingVolume v

def parent : Place → Option Dir
  | .file p => p.parent
  | .volume _ => none

def display : Place → String
  | .file p => p.display
  | .volume v => "UBI volume " ++ v.display

end Place

inductive Filesystem
  | system
  | esp
  deriving DecidableEq

structure Statvfs where
  available : ℕ
  files : ℕ
  filesAvailable : ℕ

/-- Keys, reserves, free space, and what a removal would free. -/
structure Store where
  trust : Trust
  bootTrust : BootTrust
  systemReserve : ℕ
  espReserve : ℕ
  lebBytes : ℕ
  statvfs : Device → Filesystem → Statvfs
  availableLebs : Device → ℕ
  freedBytes : Device → Filesystem → Item → ℕ
  reservedLebs : Device → Item → ℕ

abbrev Sources := Text → Option Bytes

namespace Store

variable (store : Store)

def lebs (bytes : ℕ) : ℕ := (bytes + store.lebBytes - 1) / store.lebBytes

def verifyBytes (bytes : Bytes) (artifact : Artifact) (shown : String) : Except String Unit := do
  ensure (bytes.length == artifact.bytes) ("object length or type mismatch: " ++ shown)
  ensure (store.trust.sha256 bytes == artifact.sha256) ("object digest mismatch: " ++ shown)

def verifyHeld (d : Device) (place : Place) (artifact : Artifact) : Except String Unit := do
  let bytes ← orError (place.display ++ " is absent") (d.items.lookup place.item)
  store.verifyBytes bytes artifact place.display

def verifySource (objects : Sources) (artifact : Artifact) : Except String Unit := do
  let bytes ← orError "No such file or directory" (objects artifact.sha256)
  store.verifyBytes bytes artifact artifact.sha256.shown

def publish (objects : Sources) (place : Place) (artifact : Artifact) : Op Unit := do
  let d ← Prog.get
  if d.holds place.item then Prog.read (store.verifyHeld · place artifact)
  else do
    directory place.parent
    Prog.when (d.holds place.pending) (Prog.write (Device.remove place.pending))
    let bytes ← Prog.ofExcept (orError "No such file or directory" (objects artifact.sha256))
    Prog.write (Device.put place.pending bytes)
    Prog.ofExcept (store.verifyBytes bytes artifact place.display)
    Prog.write fun d ↦ (d.remove place.pending).put place.item bytes

end Store

def largeObject (b : BootRecords) (file : Path) (volume : Vol) : Place :=
  if b.isUbi then .volume volume else .file file

def objectPaths (b : BootRecords) (deployment : Deployment) : List (Place × Artifact) :=
  let root := deployment.rootfs
  let kernel := deployment.kernel
  [(largeObject b (.rootfsImg root.id) (.root root.id), root.content.image),
    (.file (.rootfsSignature root.id), root.content.signature),
    (largeObject b (.supportImg kernel.id) (.support kernel.id), kernel.support.image),
    (.file (.supportSignature kernel.id), kernel.support.signature),
    (if b.isFit then largeObject b (.bootItb kernel.id) (.kernel kernel.id)
      else .file (.uki kernel.id), kernel.boot.artifact)]

def rootHashes (deployment : Deployment) : List (Path × Text) :=
  [(.rootfsHash deployment.rootfs.id, deployment.rootfs.content.rootHash),
    (.supportHash deployment.kernel.id, deployment.kernel.support.rootHash)]

def writeOnce (p : Path) (bytes : Bytes) (limit : ℕ) (differs : String) : Op Unit := do
  let d ← Prog.get
  if d.holds (.file p) then do
    let held ← Prog.read (·.readBounded p limit)
    Prog.ensure (held == bytes) differs
  else atomicWrite p bytes

structure Collection where
  files : List Item
  directories : List Dir
  volumes : List Item

def Collection.apply (c : Collection) : Op ℕ := do
  forM c.files fun i ↦ Prog.write (Device.remove i)
  forM c.directories fun dir ↦ Prog.write (Device.remove (.dir dir))
  forM c.volumes fun i ↦ Prog.write (Device.remove i)
  pure (c.files.length + c.volumes.length)

structure Keep where
  roots : List Text
  kernels : List Text
  retained : List Text

namespace Keep

variable (keep : Keep)

def objectDir : Dir → Option Bool
  | .root id => some (keep.roots.contains id)
  | .kernel id => some (keep.kernels.contains id)
  | .component _ => none

def dropsChild : Item → Bool
  | .file p => (p.parent.bind keep.objectDir).any (!·)
  | .temporary p => (p.parent.bind keep.objectDir).isSome
  | _ => false

def dropsDir : Item → Option Dir
  | .dir dir => if keep.objectDir dir = some false then some dir else none
  | _ => none

def dropsDescriptor : Item → Bool
  | .file (.descriptor id) => !keep.retained.contains id
  | .temporary (.descriptor _) => true
  | _ => false

def dropsEsp : Item → Bool
  | .file (.uki id) => !keep.kernels.contains id
  | .temporary (.uki _) => true
  | .temporary (.entry _) => true
  | _ => false

def dropsVolume : Item → Bool
  | .pendingVolume _ => true
  | .volume (.root id) => isId id && !keep.roots.contains id
  | .volume (.kernel id) => isId id && !keep.kernels.contains id
  | .volume (.support id) => isId id && !keep.kernels.contains id
  | _ => false

end Keep

def collectedName (isFit : Bool) : Item → Option Text
  | .dir (.root id) | .dir (.kernel id) => some id
  | .file (.descriptor id) | .temporary (.descriptor id) => some id
  | .file (.uki id) | .temporary (.uki id) | .temporary (.entry id) =>
    if isFit then none else some id
  | _ => none

def planCollection (d : Device) (keep : Keep) (incoming : Bool) : Except String Collection := do
  let items := d.items.keys
  forM (items.filterMap (collectedName d.boot.isFit)) validId
  let esp := if d.boot.isFit then [] else items.filter keep.dropsEsp
  let pending := if incoming then [] else items.filter (· == .temporary .deployments)
  let files := items.filter keep.dropsChild ++ items.filter keep.dropsDescriptor ++ esp ++ pending
  let directories := items.filterMap keep.dropsDir
  ensure (files.length ≤ 4096) "collection exceeds file limit"
  ensure (directories.length ≤ 512) "collection exceeds object limit"
  pure ⟨files, directories, if d.boot.isUbi then items.filter keep.dropsVolume else []⟩

namespace Store

variable (store : Store)

/-- All retained descriptors name one board, and the running one what runs. -/
def readRetained (d : Device) (receipt : BootReceipt) :
    Option (String × String) → List Text → Except String (List Deployment)
  | _, [] => pure []
  | target, id :: ids => do
    validId id
    let bytes ← d.readBounded (.descriptor id) 24576
    let deployment ← store.trust.authenticateDeployment bytes
    ensure (store.trust.deploymentId deployment == id) "retained descriptor identity mismatch"
    let board := (deployment.board, deployment.arch)
    ensure (target.all (· == board)) "retained deployment target mismatch"
    ensure (id != receipt.deploymentId ||
      (deployment.kernel.id == receipt.kernelId && deployment.rootfs.id == receipt.rootfsId))
      "running component identity mismatch"
    let rest ← readRetained d receipt (target.or (some board)) ids
    pure (deployment :: rest)

def collection (d : Device) (receipt : BootReceipt) (retained : List Text)
    (incoming : Option Deployment) : Except String Collection := do
  d.validateReceipt store.bootTrust receipt
  let deployments ← store.readRetained d receipt none retained
  ensure (incoming.all fun i ↦
    (deployments.head?.map fun d ↦ (d.board, d.arch)) == some (i.board, i.arch))
    "incoming deployment target mismatch"
  let kept := deployments ++ incoming.toList
  planCollection d
    ⟨kept.map (·.rootfs.id), kept.map (·.kernel.id), retained⟩ incoming.isSome

def reclaimedBytes (d : Device) (c : Collection) (fs : Filesystem) : ℕ :=
  (c.files.map (store.freedBytes d fs)).sum

def reclaimedLebs (d : Device) (c : Collection) : ℕ := (c.volumes.map (store.reservedLebs d)).sum

end Store

end MicaCore.Deploy
