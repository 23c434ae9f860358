import MicaCore.Network.Validate
import MicaCore.Systemd.UnitFile

namespace MicaCore.Network

open Data Systemd

inductive Role where
  | uplink
  | internal
  deriving DecidableEq

structure Port where
  name : Text
  role : Option Role := none
  hidden : Bool := false
  deriving DecidableEq

inductive Board where
  | discover
  | declared (ports : List Port)
  deriving DecidableEq

namespace Board

def ports : Board → List Port
  | discover => []
  | declared ports => ports

def port (board : Board) (name : Text) : Option Port := board.ports.find? (·.name == name)

def hidden (board : Board) (name : Text) : Bool := (board.port name).any (·.hidden)

def internal (board : Board) (name : Text) : Bool :=
  (board.port name).any (·.role == some .internal)

def effective (board : Board) (name : Text) (cfg : IfaceSettings) : IfaceSettings :=
  if cfg.internet.isNone && board.internal name then { cfg with internet := some false } else cfg

end Board

structure Directory where
  path : Text
  unbroken : ∀ c ∈ path, lineBreak c = false
  start : ∀ c ∈ path.head?, blank c = false

def Directory.join (dir : Directory) (name : Text) : Text := dir.path ++ '/' :: name

structure Keystore where
  dir : Directory
  pskDir : Directory

def keyFile (iface : Text) : Text := "wg-".toList ++ iface ++ ".key".toList

def pskFile (iface : Text) (index : ℕ) : Text :=
  "wg-".toList ++ iface ++ '-' :: (numeral index ++ ".psk".toList)

namespace Keystore

def keyPath (keys : Keystore) (iface : Text) : Text := keys.dir.join (keyFile iface)

def pskPath (keys : Keystore) (iface : Text) (index : ℕ) : Text :=
  keys.pskDir.join (pskFile iface index)

end Keystore

def put (key : String) (value : Text) : Text := key.toList ++ '=' :: (value ++ ['\n'])

def opened (name : String) : Text := '[' :: (name.toList ++ [']', '\n'])

def renderPeer (iface : Text) (keys : Keystore) (index : ℕ) (peer : WireguardPeer) : Text :=
  '\n' :: (opened "WireGuardPeer" ++ put "PublicKey" peer.publicKey) ++
  (if peer.presharedKey.isSome then put "PresharedKeyFile" (keys.pskPath iface index) else []) ++
  (if peer.allowedIps.isEmpty then [] else put "AllowedIPs" ([','].intercalate peer.allowedIps)) ++
  peer.endpoint.elim [] (put "Endpoint") ++
  peer.persistentKeepalive.elim [] (put "PersistentKeepalive" <| numeral ·)

def renderWireguard (iface : Text) (cfg : WireguardConfig) (keys : Keystore) : Text :=
  '\n' :: (opened "WireGuard" ++ put "PrivateKeyFile" (keys.keyPath iface)) ++
  cfg.listenPort.elim [] (put "ListenPort" <| numeral ·) ++
  cfg.peers.zipIdx.flatMap fun x ↦ renderPeer iface keys x.2 x.1

def renderNetdev (iface : Text) (cfg : IfaceSettings) (keys : Keystore) : Option Text :=
  let device (kind : String) : Text := opened "NetDev" ++ put "Name" iface ++ put "Kind" kind.toList
  match cfg.kind, cfg.vlan, cfg.wireguard with
  | .vlan, some vlan, _ =>
    some (device "vlan" ++ '\n' :: (opened "VLAN" ++ put "Id" (numeral vlan.id)))
  | .bridge, _, _ => some (device "bridge")
  | .wireguard, _, some wireguard =>
    some (device "wireguard" ++ renderWireguard iface wireguard keys)
  | _, _, _ => none

def renderCanUnit (iface : Text) (can : CanConfig) : Text :=
  opened "Match" ++ put "Name" iface ++
    '\n' :: (opened "CAN" ++ put "BitRate" (numeral can.bitrate)) ++
  (can.restartMs.elim [] fun ms ↦ put "RestartSec" (numeral ms ++ ['m', 's'])) ++
  put "FDMode" (if can.fd = some true then "yes".toList else "no".toList) ++
  can.dataBitrate.elim [] (put "DataBitRate" <| numeral ·)

def renderAddressing (cfg : IfaceSettings) : Option Text → Text
  | some bridge => put "Bridge" bridge
  | none =>
    if cfg.dhcp then
      put "DHCP" "yes".toList ++ put "LinkLocalAddressing" "yes".toList ++ cfg.dns.flatMap (put "DNS")
    else cfg.static.elim [] fun static ↦
      put "Address" static.address ++ static.gateway.elim [] (put "Gateway") ++
        static.dns.flatMap (put "DNS")

def renderRoute (route : RouteConfig) : Text :=
  '\n' :: (opened "Route" ++ put "Destination" route.destination) ++
  route.gateway.elim [] (put "Gateway") ++ route.metric.elim [] (put "Metric" <| numeral ·)

def renderLease (cfg : IfaceSettings) (metric : Option ℕ) : Text :=
  '\n' :: opened "DHCPv4" ++ metric.elim [] (put "RouteMetric" <| numeral ·) ++
  (if !cfg.isInternet then put "UseGateway" "no".toList else []) ++
  (if !cfg.dns.isEmpty then
    put "UseDNS" "no".toList ++ '\n' :: (opened "DHCPv6" ++ put "UseDNS" "no".toList) else []) ++
  if !cfg.dns.isEmpty || !cfg.isInternet then
    '\n' :: opened "IPv6AcceptRA" ++
    (if !cfg.isInternet then put "UseGateway" "no".toList else []) ++
    if !cfg.dns.isEmpty then put "UseDNS" "no".toList else []
  else []

def leases (cfg : IfaceSettings) (master : Option Text) (metric : Option ℕ) : Bool :=
  master.isNone && cfg.dhcp && (metric.isSome || !cfg.dns.isEmpty || !cfg.isInternet)

def renderUnit (iface : Text) (cfg : IfaceSettings) (master : Option Text) (vlans : List Text)
    (metric : Option ℕ) : Text :=
  match cfg.can with
  | some can => renderCanUnit iface can
  | none =>
    opened "Match" ++ put "Name" iface ++ '\n' :: opened "Network" ++ renderAddressing cfg master ++
    vlans.flatMap (put "VLAN") ++
    -- A port carries no route.
    (if master.isNone then cfg.routes.flatMap renderRoute else []) ++
    if leases cfg master metric then renderLease cfg metric else []

def routeMetricBase : ℕ := 100

def routeMetricStep : ℕ := 10

def routeMetrics (network : NetworkMap) (masters : OrdMap Text Text) (ports : List Text) :
    OrdMap Text ℕ :=
  let declared := network.entries.filter fun e ↦
    e.2.dhcp && e.2.can.isNone && (masters.get e.1).isNone
  let links := (declared.map Prod.fst ++ ports).foldl
    (fun (links : OrdMap Text Unit) link ↦ links.insert link ()) .empty
  links.keys.zipIdx.foldl
    (fun metrics link ↦ metrics.insert link.1 (routeMetricBase + routeMetricStep * link.2)) .empty

def unitName (iface : Text) : Text := "50-mica-".toList ++ iface ++ ".network".toList

def netdevName (iface : Text) : Text := "50-mica-".toList ++ iface ++ ".netdev".toList

def autoUnitName (iface : Text) : Text := "60-mica-auto-".toList ++ iface ++ ".network".toList

def isMicaManaged (fileName : Text) : Bool :=
  ("50-mica-".toList.isPrefixOf fileName &&
    (".network".toList.isSuffixOf fileName || ".netdev".toList.isSuffixOf fileName)) ||
  ("60-mica-auto-".toList.isPrefixOf fileName && ".network".toList.isSuffixOf fileName)

end MicaCore.Network
