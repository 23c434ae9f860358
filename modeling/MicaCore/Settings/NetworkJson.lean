import MicaCore.Network.Rules
import MicaCore.Settings.Serde

namespace MicaCore.Settings

open Data Network Fields

structure StaticRecord where
  id : Text
  hostname : Text
  address : Text
  comment : Option Text := none
  deriving DecidableEq

structure GlobalDns where
  enabled : Bool := false
  servers : List Text := []
  deriving DecidableEq

structure DnsSettings where
  global : GlobalDns := {}
  staticRecords : List StaticRecord := []
  deriving DecidableEq

def writeKind (kind : IfaceKind) : String :=
  match kind with
  | .physical => "physical"
  | .vlan => "vlan"
  | .bridge => "bridge"
  | .wireguard => "wireguard"
  | .can => "can"

namespace Codec

def kind : Codec IfaceKind :=
  named writeKind [.physical, .vlan, .bridge, .wireguard, .can] fun k ↦ by cases k <;> decide

def static : Codec StaticConfig :=
  object ["address", "gateway", "dns"]
    (fun s ↦ field "address" (text.write s.address) ++ field "dns" (text.list.write s.dns) ++
      skipNone text "gateway" s.gateway)
    (fun fs ↦ return ⟨← required text "address" fs, ← mayHave text "gateway" fs,
      ← defaulted text.list "dns" [] fs⟩)
    fun s ↦ by simp [required, mayHave, defaulted]

def route : Codec RouteConfig :=
  object ["destination", "gateway", "metric"]
    (fun r ↦ field "destination" (text.write r.destination) ++ skipNone text "gateway" r.gateway ++
      skipNone nat "metric" r.metric)
    (fun fs ↦ return ⟨← required text "destination" fs, ← mayHave text "gateway" fs,
      ← mayHave nat "metric" fs⟩)
    fun r ↦ by simp [required, mayHave]

def vlan : Codec VlanConfig :=
  object ["parent", "id"]
    (fun v ↦ field "id" (nat.write v.id) ++ field "parent" (text.write v.parent))
    (fun fs ↦ return ⟨← required text "parent" fs, ← required nat "id" fs⟩)
    fun v ↦ by simp [required]

def can : Codec CanConfig :=
  object ["bitrate", "restartMs", "fd", "dataBitrate"]
    (fun c ↦ field "bitrate" (nat.write c.bitrate) ++
      skipNone nat "dataBitrate" c.dataBitrate ++ skipNone bool "fd" c.fd ++
      skipNone nat "restartMs" c.restartMs)
    (fun fs ↦ return ⟨← required nat "bitrate" fs, ← mayHave nat "restartMs" fs,
      ← mayHave bool "fd" fs, ← mayHave nat "dataBitrate" fs⟩)
    fun c ↦ by simp [required, mayHave]

def bridge : Codec BridgeConfig :=
  object ["ports"] (fun b ↦ field "ports" (text.list.write b.ports))
    (fun fs ↦ return ⟨← defaulted text.list "ports" [] fs⟩) fun b ↦ by simp [defaulted]

def peer : Codec WireguardPeer :=
  object ["publicKey", "allowedIps", "endpoint", "persistentKeepalive", "name", "presharedKey"]
    (fun p ↦ field "allowedIps" (text.list.write p.allowedIps) ++
      skipNone text "endpoint" p.endpoint ++ skipNone text "name" p.name ++
      skipNone nat "persistentKeepalive" p.persistentKeepalive ++
      skipNone text "presharedKey" p.presharedKey ++ field "publicKey" (text.write p.publicKey))
    (fun fs ↦ return ⟨← required text "publicKey" fs, ← defaulted text.list "allowedIps" [] fs,
      ← mayHave text "endpoint" fs, ← mayHave nat "persistentKeepalive" fs,
      ← mayHave text "name" fs, ← mayHave text "presharedKey" fs⟩)
    fun p ↦ by simp [required, mayHave, defaulted]

def wireguard : Codec WireguardConfig :=
  object ["listenPort", "peers"]
    (fun w ↦ skipNone nat "listenPort" w.listenPort ++ field "peers" (peer.list.write w.peers))
    (fun fs ↦ return ⟨← mayHave nat "listenPort" fs, ← defaulted peer.list "peers" [] fs⟩)
    fun w ↦ by simp [mayHave, defaulted]

def iface : Codec IfaceSettings :=
  object ["kind", "dhcp", "static", "dns", "vlan", "bridge", "wireguard", "can", "routes", "internet"]
    (fun cfg ↦ skipNone bridge "bridge" cfg.bridge ++ skipNone can "can" cfg.can ++
      field "dhcp" (bool.write cfg.dhcp) ++ skipDefault text.list "dns" [] cfg.dns ++
      skipNone bool "internet" cfg.internet ++ skipDefault kind "kind" .physical cfg.kind ++
      skipDefault route.list "routes" [] cfg.routes ++ skipNone static "static" cfg.static ++
      skipNone vlan "vlan" cfg.vlan ++ skipNone wireguard "wireguard" cfg.wireguard)
    (fun fs ↦ return ⟨← defaulted kind "kind" .physical fs, ← defaulted bool "dhcp" false fs,
      ← mayHave static "static" fs, ← defaulted text.list "dns" [] fs, ← mayHave vlan "vlan" fs,
      ← mayHave bridge "bridge" fs, ← mayHave wireguard "wireguard" fs, ← mayHave can "can" fs,
      ← defaulted route.list "routes" [] fs, ← mayHave bool "internet" fs⟩)
    fun cfg ↦ by simp [mayHave, defaulted]

def record : Codec StaticRecord :=
  object ["id", "hostname", "address", "comment"]
    (fun r ↦ field "address" (text.write r.address) ++ skipNone text "comment" r.comment ++
      field "hostname" (text.write r.hostname) ++ field "id" (text.write r.id))
    (fun fs ↦ return ⟨← required text "id" fs, ← required text "hostname" fs,
      ← required text "address" fs, ← mayHave text "comment" fs⟩)
    fun r ↦ by simp [required, mayHave]

def global : Codec GlobalDns :=
  object ["enabled", "servers"]
    (fun g ↦ field "enabled" (bool.write g.enabled) ++ field "servers" (text.list.write g.servers))
    (fun fs ↦ return ⟨← defaulted bool "enabled" false fs, ← defaulted text.list "servers" [] fs⟩)
    fun g ↦ by simp [defaulted]

def dns : Codec DnsSettings :=
  object ["global", "staticRecords"]
    (fun d ↦ field "global" (global.write d.global) ++
      skipDefault record.list "staticRecords" [] d.staticRecords)
    (fun fs ↦ return ⟨← defaulted global "global" {} fs,
      ← defaulted record.list "staticRecords" [] fs⟩)
    fun d ↦ by simp [defaulted]

end Codec

end MicaCore.Settings
