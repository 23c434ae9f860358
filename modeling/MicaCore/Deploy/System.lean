import MicaCore.Crash.Run
import MicaCore.Deploy.Settle

namespace MicaCore.Deploy

open Data Crash

/-- What may happen to a device. The loader launches an entry with a boot left; `reset` boots nothing. -/
inductive Command
  | install (envelope : Bytes) (target : Target) (objects : Sources) (latest : Option Bytes)
  | installSet (envelope : Bytes) (target : SetTarget) (objects : Sources)
  | confirm
  | settle
  | confirmation
  | reject (id : Text)
  | rollback
  | failBoot
  | retire (id : Text)
  | collect
  | boot (id : Text) (receipt : BootReceipt) (root : BootRoot) (write : WriteEnd)
  | reset

def Command.onEntries : Command → Bool
  | .install .. | .confirm | .reject _ | .rollback | .failBoot | .retire _ | .collect
  | .boot .. => true
  | _ => false

def running : Op Running := Prog.read fun d ↦ orError "no boot receipt" d.run

def stop : Op Unit := Prog.write fun d ↦ { d with run := none }

def launch (id : Text) : Op Unit := do
  let entries ← Prog.read (·.boot.entries)
  let entry ← Prog.ofExcept (orError "no such entry" (entries.find? (·.id == id)))
  match entry.triesLeft with
  | none => pure ()
  | some 0 => Prog.fail "no boot left"
  | some 1 => writeTries entry (some 0)
  | some 2 => writeTries entry (some 1)
  | some 3 => writeTries entry (some 2)

namespace Store

variable (store : Store)

def boot (id : Text) (receipt : BootReceipt) (root : BootRoot) (write : WriteEnd) : Op Unit := do
  stop
  launch id
  let composition ← store.composition write root id
  Prog.write fun d ↦
    { d with run := some ⟨{ receipt with deploymentId := id }, composition.coreBoot⟩ }

def settle : Op Unit := do
  let r ← running
  let _ ← store.settleSets r.receipt.deploymentId r.core

/-- SYSTEM is made writable only if the sets needed settling before the confirmation. -/
def confirmation : Op Unit := do
  let r ← running
  let writable ← Prog.read (Device.setsNeedSettling r.receipt.deploymentId r.core)
  let _ ← store.confirm r.receipt
  let need ← Prog.read (Device.setsNeedSettling r.receipt.deploymentId r.core)
  Prog.ensure (writable || !need) "Read-only file system"
  store.settle

def failBootCommand : Op Unit := do
  let r ← running
  if r.core.pending && !r.core.paired then pure ()
  else do
    let _ ← store.failBoot r.receipt

def exec : Command → Op Unit
  | .install envelope target objects latest => do
    let r ← running
    let _ ← store.install envelope target objects r.receipt latest
  | .installSet envelope target objects => do
    let _ ← store.installSet envelope target objects
  | .confirm => do
    let r ← running
    let _ ← store.confirm r.receipt
  | .settle => store.settle
  | .confirmation => store.confirmation
  | .reject id => do
    let _ ← Deploy.reject id
  | .rollback => do
    let r ← running
    let _ ← store.rollback r.receipt
  | .failBoot => store.failBootCommand
  | .retire id => do
    let _ ← retireFailedConfirmed id
  | .collect => do
    let r ← running
    let _ ← store.collect r.receipt
  | .boot id receipt root write => store.boot id receipt root write
  | .reset => stop

end Store

namespace Sample

def hexId (n : ℕ) : Text := List.replicate 64 (Nat.digitChar (n % 16))

theorem isId_hexId (n : ℕ) : isId (hexId n) = true := by
  have h : ∀ k : Fin 16, isId (hexId k) = true := by decide
  have := h ⟨n % 16, Nat.mod_lt _ (by decide)⟩
  simpa [hexId] using this

theorem hexId_injective {n m : ℕ} (hn : n < 16) (hm : m < 16) (h : hexId n = hexId m) : n = m := by
  have hinj : ∀ i j : Fin 16, hexId i = hexId j → i = j := by decide
  exact congrArg Fin.val (hinj ⟨n, hn⟩ ⟨m, hm⟩ h)

def imageBytes : Bytes := List.replicate 4096 14

def image : VerityImage where
  image := ⟨4096, hexId 14⟩
  rootHash := hexId 0
  signature := ⟨1, hexId 15⟩
  verity := ⟨1, "sha256", 4096, 4096, 1, 4096, hexId 0⟩

def kernel : KernelComponent where
  schema := "mica/kernel/v1"
  id := hexId 12
  board := "qemu"
  arch := "amd64"
  buildId := hexId 0
  release := "6.1"
  boot := ⟨"uki", ⟨1, hexId 15⟩⟩
  support := image
  features := none

def root : RootComponent where
  schema := "mica/rootfs/v1"
  id := hexId 13
  arch := "amd64"
  content := image
  interfaceLevel := 1
  provides := none

def core (k : ℕ) : CoreComponent where
  schema := "mica/core/v1"
  id := hexId k
  arch := "amd64"
  package := "micad"
  version := "1.0.0"
  features := ["base"]
  needs := []
  root := none
  requires := []
  content := image

def set (k : ℕ) : UpdateSet where
  schema := "mica/set/v1"
  kind := .core
  channel := general
  arch := "amd64"
  generation := k
  version := "1"
  components := [core k]

def deployment (g : ℕ) (coreSet : Option ℕ) : Deployment where
  schema := "mica/deployment/v1"
  board := "qemu"
  arch := "amd64"
  generation := g
  version := "1"
  product := "base"
  dataPolicy := "unchanged"
  kernel := kernel
  rootfs := root
  coreSet := coreSet.map fun k ↦ ⟨hexId k, general, k, hexId k, 1⟩

def trust : Trust where
  sha256 bytes := hexId (bytes.headD 0).toNat
  openDeployment
    | [g] => .ok (deployment g.toNat none)
    | [g, k] => .ok (deployment g.toNat (some k.toNat))
    | _ => .error "invalid signature"
  openSet
    | [k] => if k < 16 then .ok (set k.toNat) else .error "invalid signature"
    | _ => .error "invalid signature"
  kernelId k := k.id
  rootId r := r.id
  coreId c := c.id
  deploymentId d := hexId d.generation
  setId s := hexId s.generation
  isId_deploymentId _ := isId_hexId _
  isId_setId _ := isId_hexId _

def store : Store where
  trust := trust
  bootTrust := .none
  systemReserve := 0
  espReserve := 0
  lebBytes := 4096
  statvfs _ _ := ⟨1000000, 0, 0⟩
  availableLebs _ := 1000
  freedBytes _ _ _ := 0
  reservedLebs _ _ := 0

def objects : Sources := fun digest ↦
  if digest = hexId 14 then some imageBytes
  else if digest = hexId 15 then some [15]
  else ([2, 3, 4, 5].find? fun k ↦ hexId k = digest).map fun k ↦ [k.toUInt8]

def receipt (g : ℕ) : BootReceipt where
  backend := .uefi
  deploymentId := hexId g
  entry := entryName (hexId g)
  kernelId := hexId 12
  rootfsId := hexId 13
  contentVerified := true
  secureBoot := false
  bootVerified := false

def device : Device where
  boot := .uefi [⟨hexId 1, hexId 12, 1, none⟩]
  data := none
  sets := some { current := some (hexId 1) }
  trial := none
  items := List.toAList <| List.map (fun p : Item × Bytes ↦ ⟨p.1, p.2⟩) [
    (.file (.descriptor (hexId 1)), [1]),
    (.dir (.root (hexId 13)), []),
    (.file (.rootfsImg (hexId 13)), imageBytes),
    (.file (.rootfsSignature (hexId 13)), [15]),
    (.file (.rootfsHash (hexId 13)), asBytes (hexId 0)),
    (.dir (.kernel (hexId 12)), []),
    (.file (.supportImg (hexId 12)), imageBytes),
    (.file (.supportSignature (hexId 12)), [15]),
    (.file (.supportHash (hexId 12)), asBytes (hexId 0)),
    (.file (.uki (hexId 12)), [15]),
    (.dir (.component (hexId 1)), []),
    (.file (.coreImg (hexId 1)), imageBytes),
    (.file (.coreSignature (hexId 1)), [15]),
    (.file (.coreHash (hexId 1)), asBytes (hexId 0)),
    (.file (.setEnvelope (hexId 1)), [1])]
  run := none

def boot (g : ℕ) : Command :=
  .boot (hexId g) (receipt g) ⟨"amd64", ["base"], root.facts⟩ .done

def install (g : ℕ) : Command :=
  .install [g.toUInt8] ⟨"qemu", "amd64", "base", ["base"]⟩ objects none

def installWith (g k : ℕ) : Command :=
  .install [g.toUInt8, k.toUInt8] ⟨"qemu", "amd64", "base", ["base"]⟩ objects none

def installSet (k : ℕ) : Command := .installSet [k.toUInt8] ⟨"amd64", ["base"], root.facts⟩ objects

/-- An installation is cut off, its candidate confirmed, and the next one installed. -/
def updatedTwice : List (Command × Option ℕ) :=
  [(boot 1, none), (install 2, some 8), (boot 2, none), (.confirm, none), (install 3, none)]

end Sample

end MicaCore.Deploy
