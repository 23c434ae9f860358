import MicaCore.Deploy.Lifecycle
import MicaCore.Deploy.Sets

namespace MicaCore.Deploy

open Data Crash

def general : String := "general"

structure Target where
  board : String
  arch : String
  product : String
  features : List String

/-- The device's core set, or a newer one installed with the deployment as a pair. -/
inductive CoreChoice
  | keep
  | pair (id : Text) (set : UpdateSet) (envelope : Bytes)

structure Demand where
  system : ℕ := 0
  esp : ℕ := 0
  lebs : ℕ := 0

structure Installation where
  deployment : Deployment
  id : Text
  state : State
  entries : List Record
  choice : CoreChoice
  files : List (Place × Artifact)
  demand : Demand
  collection : Collection

def setObjects (b : BootRecords) (set : UpdateSet) : List (Place × Artifact) :=
  set.components.flatMap fun core ↦
    [(largeObject b (.coreImg core.id) (.core core.id), core.content.image),
      (.file (.coreSignature core.id), core.content.signature)]

namespace Store

variable (store : Store)

def newerImageSet (d : Device) (deployment : Deployment) (arch : String) :
    Except String (Option CoreSetRef) :=
  match deployment.coreSet.filter (·.channel == general) with
  | none => pure none
  | some image => do
    let state ← d.readState
    match state.current with
    | none => pure none
    | some current => do
      let (held, _) ← store.loadSet d current arch
      pure (if held.channel == general && held.generation < image.generation then some image else none)

def imageSet (image : CoreSetRef) (objects : Sources) (arch : String) :
    Except String (UpdateSet × Bytes) := do
  context "the deployment's core set is not at hand"
    (store.verifySource objects ⟨image.bytes, image.sha256⟩)
  let envelope ← orError "No such file or directory" (objects image.sha256)
  ensure (envelope.length ≤ maxEnvelopeBytes)
    (image.sha256.shown ++ ": larger than " ++ toString maxEnvelopeBytes ++ " bytes")
  let set ← store.trust.authenticateSet envelope
  ensure (store.trust.setId set == image.id && set.kind == .core && set.channel == image.channel &&
    set.generation == image.generation && set.arch == arch)
    "the deployment's core set differs from what it names"
  pure (set, envelope)

def latestSet (image : CoreSetRef) (arch : String) (latest : Option Bytes) :
    Except String (Option (UpdateSet × Bytes)) :=
  match latest with
  | none => pure none
  | some envelope => do
    let set ← store.trust.authenticateSet envelope
    pure (if set.kind == .core && set.arch == arch && set.channel == general &&
      image.generation ≤ set.generation then some (set, envelope) else none)

def newest (image : CoreSetRef) (imageSet : UpdateSet × Bytes) (latest : Option (UpdateSet × Bytes))
    (features : List String) (root : RootFacts) : Except String CoreChoice :=
  let chosen (refusals : List String) : Except String CoreChoice :=
    match select imageSet.1 features root with
    | .ok _ => .ok (.pair image.id imageSet.1 imageSet.2)
    | .error error => .error ("no general core set runs on this deployment's root: " ++
        "; ".intercalate (refusals ++ ["core set " ++ image.id.shown ++ ": " ++ error]))
  match latest with
  | none => chosen []
  | some (set, envelope) =>
    match select set features root with
    | .ok _ => .ok (.pair (store.trust.setId set) set envelope)
    | .error error => chosen ["core set " ++ (store.trust.setId set).shown ++ ": " ++ error]

def coreChoice (d : Device) (deployment : Deployment) (target : Target) (objects : Sources)
    (latest : Option Bytes) : Except String CoreChoice := do
  let root := deployment.rootfs.facts
  let cores ← d.readState
  ensure cores.pending.isNone "a set is on trial; let it settle before a system update"
  let current ← orError "this device holds no core set; install one first" cores.current
  match ← store.newerImageSet d deployment target.arch with
  | none => do
    let (held, _) ← store.loadSet d current target.arch
    let _ ← context ("the device's core set " ++ current.shown ++ " does not run on this deployment's root")
      (select held target.features root)
    pure .keep
  | some image => do
    let imageSet ← store.imageSet image objects target.arch
    let latest ← store.latestSet image target.arch latest
    store.newest image imageSet latest target.features root

def demand (d : Device) (objects : Sources) :
    List (Place × Artifact) → Except String Demand
  | [] => pure {}
  | (place, artifact) :: rest => do
    if d.holds place.item then do
      store.verifyHeld d place artifact
      demand d objects rest
    else do
      store.verifySource objects artifact
      let sum ← demand d objects rest
      match place with
      | .volume _ => pure { sum with lebs := sum.lebs + store.lebs artifact.bytes }
      | .file (.uki _) => pure { sum with esp := sum.esp + artifact.bytes }
      | .file _ => pure { sum with system := sum.system + artifact.bytes }

def destinations (b : BootRecords) (demand : Demand) : List (Filesystem × ℕ) :=
  (.system, demand.system + if b.isUbi then 0 else store.systemReserve) ::
    if b.isFit then [] else [(.esp, demand.esp + store.espReserve)]

def checkSpace (d : Device) (demand : Demand) (c : Collection) : Except String Unit := do
  ensure (!d.boot.isUbi ||
    demand.lebs + store.lebs store.systemReserve ≤ store.availableLebs d + store.reclaimedLebs d c)
    "insufficient UBI space"
  forM (store.destinations d.boot demand) fun (fs, bytes) ↦ do
    let space := store.statvfs d fs
    ensure (bytes ≤ space.available + store.reclaimedBytes d c fs) "insufficient destination space"
    ensure (space.files == 0 || 32 ≤ space.filesAvailable) "insufficient destination inodes"

def checkReclaimed (demand : Demand) (d : Device) : Except String Unit := do
  forM (store.destinations d.boot demand) fun (fs, bytes) ↦
    ensure (bytes ≤ (store.statvfs d fs).available) "insufficient reclaimed destination space"
  ensure (!d.boot.isUbi || demand.lebs + store.lebs store.systemReserve ≤ store.availableLebs d)
    "insufficient reclaimed UBI space"

def checkSetSpace (objects : Sources) (set : UpdateSet) (envelope : Bytes) (d : Device) :
    Except String Unit := do
  let demand ← store.demand d objects (setObjects d.boot set)
  let space := store.statvfs d .system
  ensure (!d.boot.isUbi || demand.lebs + store.lebs store.systemReserve ≤ store.availableLebs d)
    "insufficient UBI space"
  ensure (envelope.length + demand.system + (if d.boot.isUbi then 0 else store.systemReserve) ≤
    space.available) "insufficient destination space"
  ensure (space.files == 0 || 32 ≤ space.filesAvailable) "insufficient destination inodes"

def publishSet (set : UpdateSet) (envelope : Bytes) (objects : Sources) : Op Unit := do
  Prog.read (store.checkSetSpace objects set envelope)
  let d ← Prog.get
  forM (setObjects d.boot set) fun (place, artifact) ↦ store.publish objects place artifact
  forM set.components fun core ↦
    writeOnce (.coreHash core.id) (asBytes core.content.rootHash) 64 "existing root hash differs"
  writeOnce (.setEnvelope (store.trust.setId set)) envelope maxEnvelopeBytes "set ID was reused"

/-- Everything an installation checks before its first durable write. -/
def planInstall (envelope : Bytes) (target : Target) (objects : Sources) (receipt : BootReceipt)
    (latest : Option Bytes) (d : Device) : Except String Installation := do
  let deployment ← store.trust.authenticateDeployment envelope
  ensure (deployment.board == target.board && deployment.arch == target.arch)
    "deployment targets another device"
  ensure (deployment.product == target.product) "deployment targets another product"
  ensure (deployment.kernel.boot.format == if d.boot.isFit then "fit" else "uki")
    "deployment boot format differs from this device"
  let id := store.trust.deploymentId deployment
  let state ← d.effectiveState
  let entries ← d.boot.entries
  ensure (!entries.any (·.id == id) && !state.failed.contains id)
    "deployment is installed or rejected"
  ensure state.candidate.isNone "another deployment is pending"
  let choice ← store.coreChoice d deployment target objects latest
  d.validateReceipt store.bootTrust receipt
  ensure (state.current == some receipt.deploymentId &&
    entries.any (fun e ↦ e.id == receipt.deploymentId && e.triesLeft.isNone) &&
    !state.failed.contains receipt.deploymentId)
    "confirm the running deployment before installation"
  ensure (state.highestGeneration < deployment.generation &&
    entries.all (·.generation < deployment.generation)) "deployment generation is not newer"
  ensure (entries.length ≤ 2) "retained deployment set is full"
  let files := objectPaths d.boot deployment
  let demand ← store.demand d objects files
  let collection ← store.collection d receipt [receipt.deploymentId] (some deployment)
  store.checkSpace d demand collection
  pure ⟨deployment, id, state, entries, choice, files, demand, collection⟩

def nameSet (choice : CoreChoice) (id running : Text) (objects : Sources) : Op Unit := do
  let cores ← Prog.read (·.readState)
  let cores := { cores with pair := none, bound := cores.bound.filter fun deployment _ ↦
    deployment == running }
  match choice with
  | .keep => writeState cores
  | .pair setId set envelope => do
    store.publishSet set envelope objects
    writeState { cores with pair := some id, pending := some setId }

def publishDeployment (plan : Installation) (envelope : Bytes) (objects : Sources) : Op Unit := do
  forM plan.files fun (place, artifact) ↦ store.publish objects place artifact
  forM (rootHashes plan.deployment) fun (path, hash) ↦
    writeOnce path (asBytes hash) 64 "existing root hash differs"
  writeOnce (.descriptor plan.id) envelope 24576 "deployment ID was reused"

def install (envelope : Bytes) (target : Target) (objects : Sources) (receipt : BootReceipt)
    (latest : Option Bytes) : Op State := do
  let plan ← Prog.read (store.planInstall envelope target objects receipt latest)
  retainEntries plan.entries [some receipt.deploymentId]
  let state := { plan.state with fallback := none, candidate := none }
  saveState state
  let _ ← plan.collection.apply
  Prog.read (store.checkReclaimed plan.demand)
  store.publishDeployment plan envelope objects
  store.nameSet plan.choice plan.id receipt.deploymentId objects
  insertEntry ⟨plan.id, plan.deployment.kernel.id, plan.deployment.generation, some 3⟩
  let state := { state with
    highestGeneration := plan.deployment.generation, candidate := some plan.id }
  saveState state
  pure state

end Store

end MicaCore.Deploy
