import MicaCore.Settings.Dns
import MicaCore.Concurrent.Threads

namespace MicaCore.Settings

open Concurrent Data Network Fields

structure Tree (ρ : Type) where
  hostname : Text
  network : NetworkMap
  dns : DnsSettings
  rest : ρ
  deriving DecidableEq

def ownFields : List String := ["hostname", "network", "dns"]

/-- How the tree's records and the other subtrees are written and read. -/
structure Serde (ρ : Type) where
  iface : Codec IfaceSettings
  dns : Codec DnsSettings
  writeRest : ρ → Fields
  readRest : Fields → Option ρ
  readOther : Json → Option (Tree ρ)
  message : Json → Text
  read_write : ∀ r, readRest (writeRest r) = some r
  sorted : ∀ r, (writeRest r).Pairwise fun a b ↦ a.1 < b.1
  others : ∀ r, ∀ f ∈ writeRest r, String.ofList f.1 ∉ ownFields

/-- What goes with what was taken away, and what a write is held to. -/
structure Rules (ρ : Type) where
  tidy : ρ → ρ → ρ
  before : ρ → ρ → Except String Unit
  after : ρ → ρ → Except String Unit
  tidy_self : ∀ r, tidy r r = r

namespace Tree

variable {ρ : Type} (serde : Serde ρ)

def fields (t : Tree ρ) : Fields :=
  OrdMap.insertEntry "dns".toList (serde.dns.write t.dns) <|
    OrdMap.insertEntry "hostname".toList (.str t.hostname) <|
      OrdMap.insertEntry "network".toList (serde.iface.map.write t.network) (serde.writeRest t.rest)

def toJson (t : Tree ρ) : Json := .obj (t.fields serde)

def ofJson : Json → Option (Tree ρ)
  | .obj fs => do
    let hostname ← required Codec.text "hostname" fs
    let network ← required serde.iface.map "network" fs
    let dns ← defaulted serde.dns "dns" {} fs
    let rest ← serde.readRest (fs.filter fun f ↦ !ownFields.contains (String.ofList f.1))
    some ⟨hostname, network, dns, rest⟩
  | value => serde.readOther value

def refuse (path : Text) : Except String Unit → Except SettingsError Unit
  | .ok () => .ok ()
  | .error message => .error (.validation path message.toList)

variable (fmt : Formats) (rules : Rules ρ)

def checkNames (old new : NetworkMap) : Except String Unit :=
  forM new.entries fun e ↦
    if old.get e.1 = some e.2 then .ok () else checkIfaceName fmt "network interface" e.1

def written (t : Tree ρ) (path : Text) (value : Json) : Except SettingsError Json :=
  if isRoot path then .ok value else do
    let segments ← splitPath path
    jsonPathSet (t.toJson serde) segments value

/-- Hostname and records, interfaces and servers: a write of either side is checked. -/
def checksDns (t candidate : Tree ρ) : Bool :=
  candidate.dns != t.dns || (candidate.hostname != t.hostname && !candidate.dns.staticRecords.isEmpty) ||
    (candidate.network != t.network && candidate.dns.global != t.dns.global)

def checkWrite (t candidate : Tree ρ) (path : Text) : Except SettingsError Unit := do
  refuse path (checkNames fmt t.network candidate.network)
  refuse path (rules.before t.rest candidate.rest)
  refuse path (if checksDns t candidate then
    validateDns fmt candidate.dns candidate.hostname candidate.network else .ok ())
  refuse path (rules.after t.rest candidate.rest)

def set (t : Tree ρ) (path : Text) (value : Json) : Except SettingsError (Tree ρ) := do
  let root ← t.written serde path value
  let candidate ← orError (.validation path (serde.message root)) (ofJson serde root)
  let candidate := { candidate with rest := rules.tidy t.rest candidate.rest }
  checkWrite fmt rules t candidate path
  pure candidate

def default (rest : ρ) : Tree ρ := ⟨"mica".toList, .empty, {}, rest⟩

end Tree

end MicaCore.Settings
