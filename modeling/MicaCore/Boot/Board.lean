import MicaCore.Deploy.State

namespace MicaCore.Boot

open Data
open Deploy (BootKind BootTrust)

def envSize : UInt64 := 65536

@[simp] theorem toNat_envSize : envSize.toNat = 65536 := rfl

def maxSectors : UInt64 := 2147483648

def absDiff (a b : UInt64) : UInt64 := if a < b then b - a else a - b

structure Geometry where
  startSector : UInt64
  sectors : UInt64
  offsets : UInt64 × UInt64
  deriving DecidableEq

def Geometry.checkCopy (g : Geometry) (offset : UInt64) : Except String Unit := do
  ensure (offset % 512 == 0) "boot record copy is not sector aligned"
  ensure (offset + envSize ≤ g.sectors * 512) "boot record copy outside its partition"

def Geometry.check (g : Geometry) : Except String Unit := do
  ensure (1 ≤ g.startSector && g.startSector ≤ maxSectors && (1 ≤ g.sectors && g.sectors ≤ maxSectors))
    "invalid boot partition geometry"
  g.checkCopy g.offsets.1
  g.checkCopy g.offsets.2
  ensure (envSize ≤ absDiff g.offsets.1 g.offsets.2) "boot record copies overlap"

structure FitLayout extends Geometry where
  checked : toGeometry.check = .ok ()

def FitLayout.new (startSector sectors : UInt64) (offsets : UInt64 × UInt64) :
    Except String FitLayout :=
  match h : Geometry.check ⟨startSector, sectors, offsets⟩ with
  | .ok () => .ok ⟨⟨startSector, sectors, offsets⟩, h⟩
  | .error e => .error e

inductive KernelFormat where
  | uki
  | fit
  deriving DecidableEq

inductive Storage where
  | gpt
  | ubi
  deriving DecidableEq

structure Partitions where
  boot : ℕ
  system : ℕ
  data : ℕ
  deriving DecidableEq

inductive EmmcArea where
  | boot0
  | boot1
  deriving DecidableEq

inductive Target where
  | efi (partition : ℕ) (path : Text)
  | diskRange (diskOffset maxBytes : UInt64)
  | emmcBoot (area : EmmcArea) (payloadOffset maxBytes : UInt64)
  | mtdLoader (partition : Text) (maxBytes : UInt64)
  deriving DecidableEq

def loaderMaxBytes : UInt64 := 64 * 1048576

def efiMaxBytes : UInt64 := 4 * 1048576

def firstUsableByte : UInt64 := 34 * 512

def plainChar (c : Char) : Bool := asciiAlphanumeric c || ['.', '_', '-'].contains c

def validMtdName (name : Text) : Bool :=
  1 ≤ byteLength name && byteLength name ≤ 63 && name.all plainChar

def efiPath (path : Text) : Bool :=
  byteLength path ≤ 128 && "EFI/".toList.isPrefixOf path &&
    ".EFI".toList.isSuffixOf (path.map Char.toUpper) &&
    (path.splitOn '/').all fun part ↦
      !part.isEmpty && part != ['.'] && part != ['.', '.'] && part.all plainChar

def checkedAdd (a b : UInt64) : Option UInt64 :=
  if a.toNat + b.toNat < 2 ^ 64 then some (a + b) else none

def Target.validate : Target → Except String UInt64
  | .efi partition path => do
    ensure (1 ≤ partition && efiPath path) "invalid EFI destination"
    pure efiMaxBytes
  | .diskRange diskOffset maxBytes => do
    ensure (firstUsableByte ≤ diskOffset && diskOffset % 512 == 0 &&
      (1 ≤ maxBytes && maxBytes ≤ loaderMaxBytes) && (checkedAdd diskOffset maxBytes).isSome)
      "invalid loader write range"
    pure maxBytes
  | .emmcBoot _ payloadOffset maxBytes => do
    ensure ((1 ≤ maxBytes && maxBytes ≤ loaderMaxBytes) &&
      (checkedAdd payloadOffset maxBytes).any (· ≤ loaderMaxBytes)) "invalid eMMC boot payload"
    pure maxBytes
  | .mtdLoader partition maxBytes => do
    ensure (validMtdName partition && (1 ≤ maxBytes && maxBytes ≤ loaderMaxBytes))
      "invalid MTD loader"
    pure maxBytes

structure Reserves where
  system : Option ℕ := none
  esp : Option ℕ := none
  data : Option ℕ := none
  deriving DecidableEq

def mib : ℕ := 1024 * 1024

def Reserves.validate (r : Reserves) (boot : BootKind) : Except String Unit := do
  ensure (r.esp.isNone || boot == .uefi) "an ESP reserve on a board with no ESP"
  forM [("system", r.system), ("esp", r.esp), ("data", r.data)] fun reserve ↦
    ensure (reserve.2.all fun bytes ↦ mib ≤ bytes && bytes ≤ 1024 * mib)
      ("invalid " ++ reserve.1 ++ " reserve")

structure BoardFacts where
  boot : BootKind
  kernel : KernelFormat
  storage : Storage := .gpt
  partitions : Option Partitions := none
  ubi : Option Text := none
  firmware : Target
  records : Option FitLayout := none
  watchdog : Option Text := none
  reserves : Reserves := {}
  dataQuotas : Bool := true
  bootTrust : BootTrust := .fit

namespace BoardFacts

variable (facts : BoardFacts)

def clearOf (layout : Geometry) (diskOffset tail offset : UInt64) : Bool :=
  let copy := layout.startSector * 512 + offset
  tail ≤ copy || copy + envSize ≤ diskOffset

def validateGpt : Except String Unit := do
  ensure facts.ubi.isNone "a GPT board carries no UBI device"
  let p ← orError "GPT partitions absent from the boot policy" facts.partitions
  ensure ([p.boot, p.system, p.data].all (fun n ↦ 1 ≤ n && n ≤ 128) && p.boot != p.system &&
    p.boot != p.data && p.system != p.data) "invalid partition numbers"
  match facts.boot, facts.records with
  | .ubootFit, none => .error "FIT boot records absent from the boot policy"
  | .uefi, some _ => .error "a UEFI board carries no FIT boot records"
  | _, _ => pure ()
  match facts.firmware, facts.boot, facts.records with
  | .efi partition _, .uefi, _ => ensure (partition == p.boot) "invalid EFI destination"
  | .diskRange diskOffset maxBytes, .ubootFit, some records =>
    let tail := diskOffset + maxBytes
    let partitionEnd := (records.startSector + records.sectors) * 512
    ensure (tail ≤ partitionEnd && (clearOf records.toGeometry diskOffset tail records.offsets.1 &&
      clearOf records.toGeometry diskOffset tail records.offsets.2)) "invalid loader write range"
  | .emmcBoot _ _ _, .ubootFit, _ => pure ()
  | _, _, _ => .error "firmware format disagrees with the boot backend"

def validateUbi : Except String Unit := do
  ensure (facts.boot == .ubootFit) "UBI storage on a board without FIT"
  ensure (facts.partitions.isNone && facts.records.isNone)
    "a UBI board carries no GPT partitions or record geometry"
  let mtd ← orError "UBI device absent from the boot policy" facts.ubi
  ensure (validMtdName mtd) "invalid UBI MTD partition"
  ensure (!facts.dataQuotas) "UBIFS has no project quotas"
  match facts.firmware with
  | .mtdLoader partition _ => ensure (partition != mtd) "the loader shares the UBI partition"
  | _ => .error "firmware format disagrees with the boot backend"

def validate (arch : String) : Except String Unit := do
  ensure (["amd64", "arm64", "armhf"].contains arch) "unsupported architecture"
  ensure ((facts.boot == .uefi && facts.kernel == .uki) || (facts.boot == .ubootFit && facts.kernel == .fit))
    "boot backend and kernel format disagree"
  ensure (facts.bootTrust == .fit || facts.boot == .ubootFit) "boot trust none on a board without FIT"
  let _ ← facts.firmware.validate
  match facts.storage with
  | .gpt => facts.validateGpt
  | .ubi => facts.validateUbi
  ensure (facts.watchdog.all fun identity ↦ 1 ≤ byteLength identity && byteLength identity ≤ 32 &&
    identity.all fun c ↦ ' ' ≤ c && c ≤ '~') "invalid watchdog identity"
  facts.reserves.validate facts.boot

end BoardFacts

end MicaCore.Boot
