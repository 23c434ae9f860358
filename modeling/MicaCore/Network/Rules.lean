import MicaCore.Network.Address
import MicaCore.Settings.Path

namespace MicaCore.Network

open Data
open Settings (Json)

inductive IfaceKind where
  | physical
  | vlan
  | bridge
  | wireguard
  | can
  deriving DecidableEq

structure StaticConfig where
  address : Text
  gateway : Option Text := none
  dns : List Text := []
  deriving DecidableEq

structure RouteConfig where
  destination : Text
  gateway : Option Text := none
  metric : Option ℕ := none
  deriving DecidableEq

structure VlanConfig where
  parent : Text
  id : ℕ
  deriving DecidableEq

structure CanConfig where
  bitrate : ℕ
  restartMs : Option ℕ := none
  fd : Option Bool := none
  dataBitrate : Option ℕ := none
  deriving DecidableEq

structure BridgeConfig where
  ports : List Text := []
  deriving DecidableEq

structure WireguardPeer where
  publicKey : Text
  allowedIps : List Text := []
  endpoint : Option Text := none
  persistentKeepalive : Option ℕ := none
  name : Option Text := none
  presharedKey : Option Text := none
  deriving DecidableEq

structure WireguardConfig where
  listenPort : Option ℕ := none
  peers : List WireguardPeer := []
  deriving DecidableEq

structure IfaceSettings where
  kind : IfaceKind := .physical
  dhcp : Bool := false
  static : Option StaticConfig := none
  dns : List Text := []
  vlan : Option VlanConfig := none
  bridge : Option BridgeConfig := none
  wireguard : Option WireguardConfig := none
  can : Option CanConfig := none
  routes : List RouteConfig := []
  internet : Option Bool := none
  deriving DecidableEq

def IfaceSettings.isInternet (cfg : IfaceSettings) : Bool := cfg.internet != some false

abbrev NetworkMap := OrdMap Text IfaceSettings

structure NetworkViolation where
  interface : Text
  field : String
  code : String
  params : Json
  message : String

def number (n : ℕ) : Json := .num (Nat.repr n).toList

variable (fmt : Formats)

def maxIfaceLen : ℕ := 15

def checkIfaceName (field : String) (name : Text) : Except String Unit := do
  ensure (!name.isEmpty) s!"{field} is empty"
  ensure (byteLength name ≤ maxIfaceLen)
    s!"{field} {fmt.debug name} is longer than {maxIfaceLen} characters"
  ensure (name != ['.'] && name != ['.', '.']) s!"{field} {fmt.debug name} is not a name"
  ensure (name.all fun c ↦ c.isAlphanum || c == '.' || c == '-' || c == '_' || c == ':')
    s!"{field} {fmt.debug name} contains a character an interface name cannot have"

def maxPeerNameChars : ℕ := 64

def validatePeer (iface : Text) (index : ℕ) (peer : WireguardPeer) : Except String Unit := do
  let subject := s!"network.{iface.shown} peer {index}"
  ensure (isWireguardKey fmt peer.publicKey)
    (s!"{subject} has a public key that is not a WireGuard key: " ++
      "it must be 32 bytes spelled in base64")
  forM peer.allowedIps fun allowed ↦
    ensure (isIpOrCidr fmt allowed)
      s!"{subject} allowed IP {fmt.debug allowed} is not an IP address or CIDR"
  forM peer.endpoint.toList fun endpoint ↦
    ensure (isHostPort fmt endpoint) s!"{subject} endpoint {fmt.debug endpoint} is not host:port"
  ensure (peer.name.all fun name ↦ name.length ≤ maxPeerNameChars && !name.any isControl)
    (s!"{subject} name is longer than {maxPeerNameChars} characters " ++
      "or carries a control character")
  ensure (peer.presharedKey.all (isWireguardKey fmt))
    s!"{subject} has a preshared key that is not 32 bytes spelled in base64"

def validatePeers (iface : Text) (peers : List WireguardPeer) : Except String Unit :=
  forM peers.zipIdx fun x ↦ validatePeer fmt iface x.2 x.1

def maxCanBitrate : ℕ := 1000000

def maxCanDataBitrate : ℕ := 8000000

def maxCanRestartMs : ℕ := 60000

def validateCan (iface : Text) (cfg : IfaceSettings) : Except String Unit :=
  let subject := s!"network.{iface.shown}"
  match cfg.can with
  | none => ensure (cfg.kind != .can) s!"{subject} is kind can but carries no can block"
  | some can => do
    ensure (cfg.kind == .can) s!"{subject} carries a can block but is not kind can"
    ensure (!(cfg.dhcp || cfg.static.isSome || !cfg.dns.isEmpty || !cfg.routes.isEmpty ||
        cfg.vlan.isSome || cfg.bridge.isSome || cfg.wireguard.isSome))
      (s!"{subject} is a CAN interface: it carries its can block alone, " ++
        "with no dhcp, static, dns, routes, vlan, bridge or wireguard")
    ensure (1 ≤ can.bitrate && can.bitrate ≤ maxCanBitrate)
      s!"{subject} can.bitrate {can.bitrate} is not 1 to {maxCanBitrate} bit/s"
    forM can.restartMs.toList fun ms ↦
      ensure (ms ≤ maxCanRestartMs) s!"{subject} can.restartMs {ms} is more than {maxCanRestartMs}"
    match can.fd, can.dataBitrate with
    | some true, none => .error s!"{subject} switches CAN FD on and needs can.dataBitrate"
    | some true, some rate =>
      ensure (1 ≤ rate && rate ≤ maxCanDataBitrate)
        s!"{subject} can.dataBitrate {rate} is not 1 to {maxCanDataBitrate} bit/s"
    | _, none => .ok ()
    | _, some _ =>
      .error s!"{subject} has can.dataBitrate, which only CAN FD (can.fd true) takes"

def vlanViolations (network : NetworkMap) (iface : Text) (cfg : IfaceSettings) :
    List NetworkViolation :=
  match cfg.vlan with
  | none => []
  | some vlan =>
    let broken (what : String) : NetworkViolation :=
      ⟨iface, "vlan.parent", "vlan_parent_invalid",
        .obj [("id".toList, number vlan.id), ("parent".toList, .str vlan.parent)],
        s!"network.{iface.shown} has VLAN parent {fmt.debug vlan.parent}, which is {what}"⟩
    match network.get vlan.parent with
    | none => [broken "not a declared network entry"]
    | some parent => if parent.kind = .can then [broken "a CAN interface"] else []

def portViolations (network : NetworkMap) (iface : Text) (claimedBy : OrdMap Text Text)
    (port : Text) : List NetworkViolation :=
  let params (bridge : Text) : Json :=
    .obj [("bridge".toList, .str bridge), ("port".toList, .str port)]
  match network.get port with
  | none =>
    [⟨iface, "bridge.ports", "bridge_port_invalid", params iface,
      s!"network.{iface.shown} has bridge port {fmt.debug port}, " ++
        "which is not a declared network entry"⟩]
  | some cfg =>
    if cfg.kind = .can then
      [⟨iface, "bridge.ports", "bridge_port_invalid", params iface,
        s!"network.{port.shown} is a CAN interface and cannot be a port of bridge {iface.shown}"⟩]
    else
      (if cfg.dhcp || cfg.static.isSome then
        [⟨port, "dhcp", "bridge_port_addressed", params iface,
          s!"network.{port.shown} is a port of bridge {iface.shown} " ++
            "and must not carry addressing of its own"⟩]
      else []) ++
      match claimedBy.get port with
      | some other =>
        [⟨iface, "bridge.ports", "bridge_port_taken", params other,
          s!"network.{port.shown} is claimed as a port by both bridge {other.shown} " ++
            s!"and bridge {iface.shown}"⟩]
      | none => []

def claimPort (network : NetworkMap) (iface : Text) (claimedBy : OrdMap Text Text) (port : Text) :
    OrdMap Text Text :=
  match network.get port with
  | none => claimedBy
  | some cfg => if cfg.kind = .can then claimedBy else claimedBy.insert port iface

def bridgeViolations (network : NetworkMap) (iface : Text) :
    OrdMap Text Text → List Text → List NetworkViolation
  | _, [] => []
  | claimedBy, port :: ports =>
    portViolations fmt network iface claimedBy port ++
      bridgeViolations network iface (claimPort network iface claimedBy port) ports

def bridgePortsOf (cfg : IfaceSettings) : List Text := cfg.bridge.elim [] (·.ports)

def topologyFrom (network : NetworkMap) :
    OrdMap Text Text → List (Text × IfaceSettings) → List NetworkViolation
  | _, [] => []
  | claimedBy, (iface, cfg) :: rest =>
    vlanViolations fmt network iface cfg ++
      bridgeViolations fmt network iface claimedBy (bridgePortsOf cfg) ++
        topologyFrom network ((bridgePortsOf cfg).foldl (claimPort network iface) claimedBy) rest

def topologyViolations (network : NetworkMap) : List NetworkViolation :=
  topologyFrom fmt network .empty network.entries

def validateTopology (network : NetworkMap) : Except String Unit :=
  match topologyViolations fmt network with
  | violation :: _ => .error violation.message
  | [] => .ok ()

variable {fmt}

theorem literal_of_checkIfaceName {field : String} {name : Text}
    (h : checkIfaceName fmt field name = .ok ()) : Literal name := by
  simp only [checkIfaceName, bind_eq_ok, ensure_eq_ok, exists_const] at h
  obtain ⟨-, -, -, hchars⟩ := h
  intro c hc
  have hchar := List.all_eq_true.1 hchars c hc
  simp only [Bool.or_eq_true, beq_iff_eq] at hchar
  rcases hchar with (((halnum | rfl) | rfl) | rfl) | rfl
  · exact literalChar_of_isAlphanum halnum
  · decide
  · decide
  · decide
  · decide

structure Rendered (fmt : Formats) (peer : WireguardPeer) : Prop where
  publicKey : isWireguardKey fmt peer.publicKey = true
  allowedIps : ∀ allowed ∈ peer.allowedIps, isIpOrCidr fmt allowed = true
  endpoint : ∀ endpoint, peer.endpoint = some endpoint → isHostPort fmt endpoint = true

variable {iface : Text}

theorem rendered_of_validatePeers {peers : List WireguardPeer}
    (h : validatePeers fmt iface peers = .ok ()) {peer : WireguardPeer} (hpeer : peer ∈ peers) :
    Rendered fmt peer := by
  obtain ⟨index, hindex, rfl⟩ := List.getElem_of_mem hpeer
  have hmem : (peers[index], index) ∈ peers.zipIdx := List.mk_mem_zipIdx_iff_getElem?.2 (by simp)
  have hpeer := forM_eq_ok.1 h _ hmem
  simp only [validatePeer, bind_eq_ok, ensure_eq_ok, exists_const, forM_eq_ok] at hpeer
  obtain ⟨hkey, hallowed, hendpoint, -, -⟩ := hpeer
  exact ⟨hkey, hallowed, fun endpoint he ↦ hendpoint endpoint (by simp [he])⟩

variable {network : NetworkMap}

theorem validateTopology_eq_ok :
    validateTopology fmt network = .ok () ↔ topologyViolations fmt network = [] := by
  unfold validateTopology
  split <;> simp_all

theorem portViolations_of_bridgeViolations {port : Text}
    {ports : List Text} {claimedBy : OrdMap Text Text}
    (h : bridgeViolations fmt network iface claimedBy ports = []) (hport : port ∈ ports) :
    ∃ claimedBy, portViolations fmt network iface claimedBy port = [] := by
  induction ports generalizing claimedBy with
  | nil => simp at hport
  | cons p ports ih =>
    obtain ⟨hp, hports⟩ := List.append_eq_nil_iff.1 h
    rcases List.mem_cons.1 hport with rfl | hport
    · exact ⟨claimedBy, hp⟩
    · exact ih hports hport

theorem of_topologyFrom {claimedBy : OrdMap Text Text}
    {entries : List (Text × IfaceSettings)} (h : topologyFrom fmt network claimedBy entries = [])
    {cfg : IfaceSettings} (hmem : (iface, cfg) ∈ entries) :
    vlanViolations fmt network iface cfg = [] ∧
      ∃ claimedBy, bridgeViolations fmt network iface claimedBy (bridgePortsOf cfg) = [] := by
  induction entries generalizing claimedBy with
  | nil => simp at hmem
  | cons e entries ih =>
    obtain ⟨i, c⟩ := e
    simp only [topologyFrom, List.append_eq_nil_iff] at h
    obtain ⟨⟨hvlan, hbridge⟩, hrest⟩ := h
    rcases List.mem_cons.1 hmem with heq | hmem
    · cases heq
      exact ⟨hvlan, claimedBy, hbridge⟩
    · exact ih hrest hmem

theorem port_of_topologyViolations {port : Text} {cfg : IfaceSettings}
    (h : topologyViolations fmt network = []) (hget : network.get iface = some cfg)
    (hport : port ∈ bridgePortsOf cfg) :
    ∃ cfg', network.get port = some cfg' ∧ cfg'.kind ≠ .can ∧ cfg'.dhcp = false ∧
      cfg'.static = none := by
  obtain ⟨-, claimedBy, hbridge⟩ := of_topologyFrom h (OrdMap.get_eq_some_iff.1 hget)
  obtain ⟨claimedBy, hviolations⟩ := portViolations_of_bridgeViolations hbridge hport
  unfold portViolations at hviolations
  cases hcfg : network.get port with
  | none => simp [hcfg] at hviolations
  | some cfg' =>
    refine ⟨cfg', rfl, ?_⟩
    rw [hcfg] at hviolations
    by_cases hkind : cfg'.kind = .can
    · simp [hkind] at hviolations
    · simp only [hkind, if_false, List.append_eq_nil_iff] at hviolations
      obtain ⟨haddressed, -⟩ := hviolations
      split at haddressed
      · cases haddressed
      · next hnone => simpa [hkind] using hnone

end MicaCore.Network
