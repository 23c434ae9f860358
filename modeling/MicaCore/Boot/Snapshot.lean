import MicaCore.Deploy.Identity
import Mathlib.Data.Finset.Basic
import Mathlib.Data.Finset.Card
import Mathlib.Data.Finset.Image

namespace MicaCore.Boot.Shutdown

open Data

structure Device where
  major : ℕ
  minor : ℕ
  deriving DecidableEq

structure Mount where
  id : ℕ
  parent : ℕ
  device : Device
  root : Text
  path : Text
  kind : Text
  propagation : List Text
  deriving DecidableEq

structure LoopIdentity where
  device : Device
  generation : ℕ
  backing : Device
  inode : ℕ
  offset : ℕ
  sizeLimit : ℕ
  flags : UInt32
  deriving DecidableEq

def LoopIdentity.sameAssociation (l other : LoopIdentity) : Bool :=
  l.device == other.device && l.generation == other.generation && l.backing == other.backing &&
    l.inode == other.inode && l.offset == other.offset && l.sizeLimit == other.sizeLimit &&
    l.flags &&& ~~~4 == other.flags &&& ~~~4

structure Mapping where
  device : Device
  generation : ℕ
  name : Text
  uuid : Text
  table : Text
  deriving DecidableEq

structure Block where
  device : Device
  generation : ℕ
  holders : Finset Device
  slaves : Finset Device
  association : Option LoopIdentity
  mapping : Option Mapping

structure Ownership where
  backings : Finset Device
  backingGenerations : List (Device × ℕ)
  loops : List LoopIdentity
  mappings : List Mapping
  mounts : List Mount
  allowExtraLoops : Bool

structure Snapshot where
  mounts : List Mount
  blocks : List Block
  processes : List ℕ
  swaps : List Text
  dirtyKib : ℕ

def memoryKind (kind : Text) : Bool :=
  ["tmpfs".toList, "ramfs".toList, "rootfs".toList, "devtmpfs".toList, "proc".toList,
    "sysfs".toList,
    "devpts".toList, "cgroup2".toList, "efivarfs".toList, "securityfs".toList, "debugfs".toList,
    "tracefs".toList, "bpf".toList, "pstore".toList, "configfs".toList, "mqueue".toList,
    "hugetlbfs".toList].contains kind

def isProtected (mount : Mount) : Bool :=
  memoryKind mount.kind &&
    (mount.path == "/".toList || mount.path == "/run".toList ||
      ["/dev".toList, "/proc".toList, "/sys".toList].any fun p ↦
        mount.path == p || (p ++ ['/']).isPrefixOf mount.path)

namespace Snapshot

variable (state : Snapshot) (owner : Ownership)

def ownsLoop (l : LoopIdentity) : Bool :=
  decide (l.backing ∈ owner.backings) || owner.loops.any (·.sameAssociation l)

def ownBelow (ids : Finset ℕ) : Finset ℕ :=
  state.mounts.foldl (fun ids mount ↦ if mount.parent ∈ ids then insert mount.id ids else ids) ids

def closeOwned : ℕ → Finset ℕ → Finset ℕ
  | 0, ids => ids
  | rounds + 1, ids =>
    let next := state.ownBelow ids
    if next.card = ids.card then next else closeOwned rounds next

def ownedDevices : Finset Device := owner.backings ∪ (owner.mappings.map Mapping.device).toFinset

def ownedMounts : Finset ℕ :=
  state.closeOwned state.mounts.length ((state.mounts.filter fun m ↦
    decide (m.device ∈ ownedDevices owner) ||
      owner.mounts.any fun old ↦ old.id == m.id && old.device == m.device && old.root == m.root).map
        Mount.id).toFinset

def findBlock (device : Device) : Option Block := state.blocks.find? (·.device == device)

def checkBacking (known : Device × ℕ) : Except String Unit :=
  match state.findBlock known.1 with
  | some block => ensure (block.generation == known.2) "backing block device was reused"
  | none =>
    ensure (!state.mounts.any (·.device == known.1) &&
      !state.blocks.any fun b ↦ b.association.any (·.backing == known.1))
      "backing device disappeared while still in use"

def checkLoop (expected : LoopIdentity) : Except String Unit :=
  match (state.findBlock expected.device).bind Block.association with
  | some current => ensure (expected.sameAssociation current) "reused or changed loop association"
  | none => pure ()

def checkMapping (expected : Mapping) : Except String Unit :=
  match state.findBlock expected.device with
  | some block => ensure (block.mapping == some expected) "reused or changed MICA mapping"
  | none => pure ()

def checkRoot : Except String Unit := do
  let root ← orError "missing exitrd root" (state.mounts.find? (·.path == "/".toList))
  ensure (memoryKind root.kind) "PID1 root still uses persistent storage"

def validate : Except String Unit := do
  ensure (state.mounts.length ≤ 4096 && state.blocks.length ≤ 4096 && state.processes.length ≤ 4096)
    "excessive live graph"
  ensure state.swaps.isEmpty "outstanding swap users"
  ensure (state.mounts.all fun m ↦ m.propagation.all (· == "unbindable".toList))
    "mount propagation is not private"
  ensure (state.blocks.all fun b ↦ b.association.all (ownsLoop owner)) "unknown active loop backing"
  ensure (state.blocks.all fun b ↦
    b.mapping.all (owner.mappings.contains ·) && (decide (b.slaves = ∅) || b.mapping.isSome))
    "unknown active block layer"
  state.checkRoot
  forM owner.backingGenerations state.checkBacking
  forM owner.loops state.checkLoop
  ensure (owner.allowExtraLoops || (state.blocks.filterMap Block.association).all fun l ↦
    !decide (l.backing ∈ owner.backings) || owner.loops.any (·.sameAssociation l))
    "unknown partial-startup loop ownership"
  forM owner.mappings state.checkMapping
  ensure (state.mounts.all fun m ↦ isProtected m || decide (m.id ∈ state.ownedMounts owner))
    "unknown mount ownership"

def ownedLoops : List LoopIdentity :=
  (state.blocks.filterMap Block.association).filter (ownsLoop owner)

def empty : Bool :=
  state.processes.isEmpty && state.swaps.isEmpty && state.dirtyKib == 0 &&
    state.mounts.all isProtected &&
    (state.ownedLoops owner).isEmpty &&
    !(state.blocks.any fun b ↦ b.mapping.any (owner.mappings.contains ·)) &&
    !(state.blocks.any fun b ↦
      (decide (b.device ∈ owner.backings) || owner.loops.any (·.device == b.device)) &&
        !decide (b.holders = ∅))

end Snapshot

inductive Operation
  | makePrivate
  | quiesce
  | sync
  | syncMount (mount : Mount)
  | unmount (mount : Mount)
  | moveBacking (mount : Mount)
  | removeMapping (mapping : Mapping)
  | detachLoop (association : LoopIdentity)
  deriving DecidableEq

namespace Snapshot

variable (state : Snapshot) (owner : Ownership)

def mountCandidate (mount : Mount) : List Operation :=
  if isProtected mount || state.mounts.any (·.parent == mount.id) then []
  else if (state.ownedLoops owner).any (·.backing == mount.device) then
    if "/backing/".toList.isPrefixOf mount.path then [] else [.moveBacking mount]
  else [.unmount mount]

def blockCandidates (block : Block) : List Operation :=
  if !decide (block.holders = ∅) || state.mounts.any (·.device == block.device) then []
  else
    (block.mapping.filter (owner.mappings.contains ·)).toList.map .removeMapping ++
      (block.association.filter ((state.ownedLoops owner).contains ·)).toList.map .detachLoop

def candidates : List Operation :=
  state.mounts.flatMap (state.mountCandidate owner) ++
    state.blocks.flatMap (state.blockCandidates owner)

end Snapshot

end MicaCore.Boot.Shutdown
