import MicaCore.Deploy.Version

namespace MicaCore.Deploy

open Data

structure Artifact where
  bytes : ℕ
  sha256 : Text
  deriving DecidableEq

structure VerityGeometry where
  version : ℕ
  algorithm : String
  dataBlockSize : ℕ
  hashBlockSize : ℕ
  dataBlocks : ℕ
  hashOffset : ℕ
  salt : Text
  deriving DecidableEq

structure VerityImage where
  image : Artifact
  rootHash : Text
  signature : Artifact
  verity : VerityGeometry
  deriving DecidableEq

structure BootArtifact where
  format : String
  artifact : Artifact
  deriving DecidableEq

structure KernelComponent where
  schema : String
  id : Text
  board : String
  arch : String
  buildId : Text
  release : String
  boot : BootArtifact
  support : VerityImage
  features : Option (List String)
  deriving DecidableEq

structure RootComponent where
  schema : String
  id : Text
  arch : String
  content : VerityImage
  interfaceLevel : ℕ
  provides : Option (List (String × String))
  deriving DecidableEq

structure RootFacts where
  level : ℕ
  provides : Option (List (String × String))

structure LevelRange where
  min : ℕ
  max : Option ℕ
  deriving DecidableEq

structure CoreNeed where
  package : String
  min : String
  max : Option String
  deriving DecidableEq

structure RootRequirement where
  package : String
  min : Option String
  max : Option String
  deriving DecidableEq

structure CoreSetRef where
  id : Text
  channel : String
  generation : ℕ
  sha256 : Text
  bytes : ℕ
  deriving DecidableEq

structure CoreComponent where
  schema : String
  id : Text
  arch : String
  package : String
  version : String
  features : List String
  needs : List CoreNeed
  root : Option LevelRange
  requires : List RootRequirement
  content : VerityImage
  deriving DecidableEq

structure Deployment where
  schema : String
  board : String
  arch : String
  generation : ℕ
  version : String
  product : String
  dataPolicy : String
  kernel : KernelComponent
  rootfs : RootComponent
  coreSet : Option CoreSetRef
  deriving DecidableEq

inductive SetKind
  | core
  deriving DecidableEq

structure UpdateSet where
  schema : String
  kind : SetKind
  channel : String
  arch : String
  generation : ℕ
  version : String
  components : List CoreComponent
  deriving DecidableEq

def RootComponent.facts (r : RootComponent) : RootFacts := ⟨r.interfaceLevel, r.provides⟩

def hash (value : Text) : Except String Unit := require (isId value) "invalid digest"

def name (value : String) : Except String Unit :=
  let s := value.toList
  require (!s.isEmpty && s.length ≤ 128 && s.head?.any asciiAlphanumeric &&
    s.all fun c ↦ asciiAlphanumeric c || "._+-".toList.contains c) "invalid identifier"

def integer (value maximum : ℕ) : Except String Unit :=
  require (0 < value && value ≤ maximum) "invalid integer"

def validChannel (value : String) : Except String Unit :=
  let s := value.toList
  require (!s.isEmpty && s.length ≤ 64 && s.head?.any (fun c ↦ asciiLower c || asciiDigit c) &&
    s.all fun c ↦ asciiLower c || asciiDigit c || c == '-') "invalid set channel"

def knownArch (arch : String) : Bool := ["amd64", "arm64", "armhf"].contains arch

def Artifact.validate (a : Artifact) (maximum : ℕ) : Except String Unit := do
  integer a.bytes maximum
  hash a.sha256

/-- The blocks of the hash tree; the first argument bounds its height. -/
def treeBlocks : ℕ → ℕ → ℕ
  | 0, _ => 0
  | n + 1, blocks =>
    if blocks ≤ 1 then 0 else (blocks + 127) / 128 + treeBlocks n ((blocks + 127) / 128)

def VerityImage.validate (v : VerityImage) : Except String Unit := do
  v.image.validate maxInteger
  v.signature.validate 65536
  hash v.rootHash
  let g := v.verity
  require (g.version == 1 && g.algorithm == "sha256" && g.dataBlockSize == 4096 &&
    g.hashBlockSize == 4096) "unsupported verity geometry"
  integer g.dataBlocks (maxInteger / 4096)
  integer g.hashOffset maxInteger
  hash g.salt
  require (g.hashOffset == g.dataBlocks * 4096) "hash tree must immediately follow data"
  let bytes := g.hashOffset + treeBlocks 64 g.dataBlocks * 4096
  integer bytes maxInteger
  require (v.image.bytes == bytes) "image length does not match verity tree"

def RootRequirement.validate (r : RootRequirement) : Except String Unit := do
  name r.package
  forM ([r.min, r.max].filterMap id) fun bound ↦
    require (DebianVersion.valid bound) "invalid required version"
  match r.min, r.max with
  | some min, some max =>
    require ((DebianVersion.compareVersions max min).any (·.isGE)) "empty version range"
  | _, _ => pure ()

def CoreNeed.validate (package : String) (need : CoreNeed) : Except String Unit := do
  name need.package
  require (need.package != package) "a core component needs itself"
  let min ← versionKey need.min
  match need.max with
  | some max => do
    let max ← versionKey max
    require (decide (min ≤ max)) "empty version range"
  | none => pure ()

def CoreComponent.validate (coreId : CoreComponent → Text) (core : CoreComponent)
    (arch : String) : Except String Unit := do
  require (core.schema == "mica/core/v1") "wrong component schema"
  require (core.arch == arch) "component target mismatch"
  hash core.id
  name core.package
  let _ ← versionKey core.version
  require (!core.features.isEmpty && core.features.length ≤ 16) "invalid core features"
  forM core.features name
  require (core.needs.length ≤ 16) "invalid core needs"
  forM core.needs (CoreNeed.validate core.package)
  require (core.root.all fun root ↦ root.max.all (root.min ≤ ·)) "empty root interface range"
  require (core.requires.length ≤ 16) "invalid core requires"
  forM core.requires RootRequirement.validate
  core.content.validate
  require (coreId core == core.id) "component identity mismatch"

def needsMet (core : CoreComponent) (others : List CoreComponent) (missing : String) :
    Except String Unit :=
  forM core.needs fun need ↦ do
    let found ← orError missing (others.find? (·.package == need.package))
    let version ← versionKey found.version
    let min ← versionKey need.min
    let below ← match need.max with
      | some max => do
        let max ← versionKey max
        pure (decide (version ≤ max))
      | none => pure true
    require (decide (min ≤ version) && below) "a core component's need is outside its version range"

def sortedByPackage : List CoreComponent → Bool
  | a :: b :: rest => decide (a.package < b.package) && sortedByPackage (b :: rest)
  | _ => true

def UpdateSet.validate (coreId : CoreComponent → Text) (set : UpdateSet) : Except String Unit := do
  require (set.schema == "mica/set/v1") "wrong set schema"
  validChannel set.channel
  require (knownArch set.arch) "unsupported architecture"
  integer set.generation maxInteger
  name set.version
  require (!set.components.isEmpty) "a set carries no component"
  require (set.components.length ≤ 16) "too many components in a set"
  require (sortedByPackage set.components) "set components not unique and sorted by package"
  forM set.components fun core ↦ do
    core.validate coreId set.arch
    needsMet core set.components "a core component's need is not in the set"

def kernelFeature (f : String) : Bool :=
  let s := f.toList
  1 ≤ s.length && s.length ≤ 32 && s.all fun c ↦ asciiLower c || asciiDigit c || c == '-'

def ascending : List String → Bool
  | a :: b :: rest => decide (a < b) && ascending (b :: rest)
  | _ => true

def KernelComponent.validate (k : KernelComponent) : Except String Unit := do
  k.support.validate
  match k.features with
  | some features =>
    require (features.length ≤ 32 && features.all kernelFeature && ascending features)
      "invalid kernel features"
  | none => pure ()

def RootComponent.validate (r : RootComponent) : Except String Unit := do
  r.content.validate
  match r.provides with
  | some provides => do
    require (provides.length ≤ 64) "invalid root provides"
    forM provides fun (package, version) ↦ do
      name package
      require (DebianVersion.valid version) "invalid provided version"
  | none => pure ()

def CoreSetRef.validate (core : CoreSetRef) : Except String Unit := do
  hash core.id
  hash core.sha256
  validChannel core.channel
  integer core.generation maxInteger
  require (0 < core.generation && 0 < core.bytes && core.bytes ≤ 49152) "invalid core set reference"

def Deployment.validate (kernelId : KernelComponent → Text) (rootId : RootComponent → Text)
    (d : Deployment) : Except String Unit := do
  require (d.schema == "mica/deployment/v1" && d.dataPolicy == "unchanged")
    "unsupported deployment schema or DATA policy"
  name d.board
  require (knownArch d.arch) "unsupported architecture"
  integer d.generation maxInteger
  name d.version
  name d.product
  let k := d.kernel
  let r := d.rootfs
  require (k.schema == "mica/kernel/v1" && r.schema == "mica/rootfs/v1") "wrong component schema"
  integer r.interfaceLevel maxInteger
  require (k.board == d.board && k.arch == d.arch && r.arch == d.arch) "component target mismatch"
  hash k.id
  hash r.id
  hash k.buildId
  name k.release
  require (["uki", "fit"].contains k.boot.format) "unsupported boot format"
  k.boot.artifact.validate maxInteger
  k.validate
  r.validate
  match d.coreSet with
  | some core => core.validate
  | none => pure ()
  require (kernelId k == k.id && rootId r == r.id) "component identity mismatch"

/-- The digest, and the opening of signed envelopes into records with their ids. -/
structure Trust where
  sha256 : Bytes → Text
  openDeployment : Bytes → Except String Deployment
  openSet : Bytes → Except String UpdateSet
  kernelId : KernelComponent → Text
  rootId : RootComponent → Text
  coreId : CoreComponent → Text
  deploymentId : Deployment → Text
  setId : UpdateSet → Text
  isId_deploymentId : ∀ deployment, isId (deploymentId deployment) = true
  isId_setId : ∀ set, isId (setId set) = true

namespace Trust

variable (trust : Trust)

def authenticateDeployment (bytes : Bytes) : Except String Deployment := contract do
  let d ← trust.openDeployment bytes
  d.validate trust.kernelId trust.rootId
  pure d

def authenticateSet (bytes : Bytes) : Except String UpdateSet := contract do
  let set ← trust.openSet bytes
  set.validate trust.coreId
  pure set

/-- No two sets that were signed have one digest. -/
def CollisionFree : Prop := ∀ bytes bytes' set set', trust.authenticateSet bytes = .ok set →
  trust.authenticateSet bytes' = .ok set' → trust.setId set = trust.setId set' → set = set'

end Trust

end MicaCore.Deploy
