import MicaCore.Network.Rules

namespace MicaCore.Network

open Data
open Settings (Json)

variable (fmt : Formats)

def validateStaticAddress (dhcp : Bool) (address : Text) : Except String Unit :=
  if !dhcp && !address.isEmpty && !validCidr address then
    .error "Static address must be IPv4 CIDR notation, e.g. 192.168.1.10/24."
  else .ok ()

def isDefaultDestination (destination : Text) : Bool :=
  destination == "0.0.0.0/0".toList || destination == "::/0".toList

def IfaceSettings.staticGateway (cfg : IfaceSettings) : Option Text := cfg.static.bind (·.gateway)

def routeProblem (hasGateway : Bool) (route : RouteConfig) : Option String :=
  if !isIpOrCidr fmt route.destination then
    some (s!"the route destination {fmt.debug route.destination} is not a network in CIDR notation, " ++
      "such as `10.20.0.0/16`")
  else if route.gateway.any fun gateway ↦ (parseIp fmt gateway).isNone then
    route.gateway.map fun gateway ↦
      s!"the route via {fmt.debug gateway} does not name an address; " ++
        "omit the gateway for an on-link route"
  else if isDefaultDestination route.destination && hasGateway then
    some ("this entry declares a default route twice: once as `static.gateway` " ++
      s!"and once as the route to {fmt.debug route.destination}. Keep one")
  else none

def dnsProblem (cfg : IfaceSettings) : Option String :=
  if cfg.dns.isEmpty then none
  else if !cfg.dhcp || cfg.static.isSome then
    some ("`dns` replaces the servers of a DHCP lease, so it needs `dhcp`; " ++
      "a static entry names its servers in `static.dns`")
  else (cfg.dns.find? fun dns ↦ (parseIp fmt dns).isNone).map fun dns ↦
    s!"the DNS server {fmt.debug dns} is not an address"

def routingProblem (cfg : IfaceSettings) : Option (String × String) :=
  match cfg.routes.findSome? (routeProblem fmt cfg.staticGateway.isSome) with
  | some message => some ("routes", message)
  | none => (dnsProblem fmt cfg).map ("dns", ·)

def failed (iface : Text) (field message : String) : NetworkViolation :=
  ⟨iface, field, "validation_failed", .obj [], message⟩

def violationOf (iface : Text) (field : String) : Except String Unit → List NetworkViolation
  | .ok () => []
  | .error message => [failed iface field message]

def relationalViolations (entries : NetworkMap) : List NetworkViolation :=
  (entries.entries.flatMap fun e ↦
    (e.2.wireguard.elim [] fun wireguard ↦
      violationOf e.1 "wireguard.peers" (validatePeers fmt e.1 wireguard.peers)) ++
    violationOf e.1 "can" (validateCan e.1 e.2)) ++
  topologyViolations fmt entries

def ipv4Cidr (cidr : Text) : Option (BitVec 32 × ℕ) :=
  if validCidr cidr then do
    let (address, bits) ← splitOnce '/' cidr
    let address ← parseIpv4 address
    let bits ← parseUnsigned (2 ^ 32 - 1) bits
    pure (address, bits)
  else none

def mask (bits : ℕ) : BitVec 32 := BitVec.allOnes 32 <<< (32 - bits)

def staticCidr (cfg : IfaceSettings) : Option (BitVec 32 × ℕ) :=
  if cfg.dhcp then none else cfg.static.bind fun static ↦ ipv4Cidr static.address

def gatewayOutOfSubnet (cfg : IfaceSettings) : Option Text :=
  match staticCidr cfg, cfg.staticGateway with
  | some (own, bits), some gateway =>
    match parseIpv4 gateway with
    | some address => if address &&& mask bits != own &&& mask bits then some gateway else none
    | none => none
  | _, _ => none

def internetViolations (iface : Text) (cfg : IfaceSettings) : List NetworkViolation :=
  (if cfg.kind = .wireguard ∨ cfg.kind = .can then
    [failed iface "internet" "`internet` is for physical, bridge and VLAN entries"]
  else []) ++
  (cfg.staticGateway.elim [] fun gateway ↦
    [⟨iface, "static.gateway", "gateway_not_allowed", .obj [("gateway".toList, .str gateway)],
      "an interface with `internet` false has no gateway; " ++
        s!"{gateway.shown} would be its default route"⟩]) ++
  if cfg.routes.any (·.destination == "0.0.0.0/0".toList) then
    [⟨iface, "routes", "gateway_not_allowed", .obj [],
      "an interface with `internet` false carries no default route"⟩]
  else []

def entryViolations (iface : Text) (cfg : IfaceSettings) : List NetworkViolation :=
  let address : Text := cfg.static.elim [] (·.address)
  (match checkIfaceName fmt "" iface with
    | .ok () => []
    | .error _ =>
      [⟨iface, "name", "name_invalid", .obj [("name".toList, .str iface)],
        "an interface name is 1 to 15 characters of letters, digits, `.`, `_`, `-` " ++
          "or `:`, and not `.` or `..`"⟩]) ++
  violationOf iface "static.address" (validateStaticAddress cfg.dhcp address) ++
  ((gatewayOutOfSubnet cfg).elim [] fun gateway ↦
    [⟨iface, "static.gateway", "gateway_out_of_subnet",
      .obj [("address".toList, .str address), ("gateway".toList, .str gateway)],
      s!"the gateway {gateway.shown} is not in the subnet of {address.shown}"⟩]) ++
  ((routingProblem fmt cfg).elim [] fun problem ↦ [failed iface problem.1 problem.2]) ++
  if !cfg.isInternet then internetViolations iface cfg else []

section Collisions

variable {α : Type} (items : List (Text × α)) (carried : List Text) (collide : α → α → Bool)

/-- A pair is reported on the later item if the request carries it, else on the earlier. -/
def collisionAt (earlier later : ℕ) : Option (ℕ × ℕ) := do
  let e ← items[earlier]?
  let l ← items[later]?
  if !collide e.2 l.2 then none
  else if carried.contains l.1 then some (later, earlier)
  else if carried.contains e.1 then some (earlier, later)
  else none

def collisions : List (ℕ × ℕ) :=
  let pairs := (List.range items.length).flatMap fun later ↦
    (List.range later).map fun earlier ↦ (earlier, later)
  pairs.foldl (fun found pair ↦
    match collisionAt items carried collide pair.1 pair.2 with
    | some report => if found.any (·.1 == report.1) then found else found ++ [report]
    | none => found) []

def collisionViolations (violation : Text × α → Text × α → NetworkViolation) :
    List NetworkViolation :=
  (collisions items carried collide).filterMap fun report ↦ do
    pure (violation (← items[report.1]?) (← items[report.2]?))

end Collisions

def subnets (entries : NetworkMap) : List (Text × (BitVec 32 × ℕ)) :=
  entries.entries.filterMap fun e ↦ (staticCidr e.2).map (e.1, ·)

def overlap (a b : BitVec 32 × ℕ) : Bool :=
  a.1 &&& mask (min a.2 b.2) == b.1 &&& mask (min a.2 b.2)

def defaultMetrics (entries : NetworkMap) : List (Text × ℕ) :=
  entries.entries.flatMap fun e ↦
    (e.2.routes.filter (isDefaultDestination ·.destination)).filterMap fun route ↦
      route.metric.map (e.1, ·)

def vlanIds (entries : NetworkMap) : List (Text × (Text × ℕ)) :=
  entries.entries.filterMap fun e ↦ e.2.vlan.map fun vlan ↦ (e.1, (vlan.parent, vlan.id))

def listenPorts (entries : NetworkMap) : List (Text × ℕ) :=
  entries.entries.filterMap fun e ↦ (e.2.wireguard.bind (·.listenPort)).map (e.1, ·)

def writeViolations (entries : NetworkMap) (carried : List Text) : List NetworkViolation :=
  collisionViolations (subnets entries) carried overlap (fun own other ↦
    ⟨own.1, "static.address", "address_overlap", .obj [("name".toList, .str other.1)],
      s!"network.{own.1.shown} overlaps the subnet of network.{other.1.shown}"⟩) ++
  collisionViolations (defaultMetrics entries) carried (· == ·) (fun own other ↦
    ⟨own.1, "routes", "metric_duplicate",
      .obj [("metric".toList, number own.2), ("name".toList, .str other.1)],
      s!"the default route metric {own.2} of network.{own.1.shown} " ++
        s!"is network.{other.1.shown}'s too"⟩) ++
  collisionViolations (vlanIds entries) carried (· == ·) (fun own other ↦
    ⟨own.1, "vlan.id", "vlan_duplicate",
      .obj [("id".toList, number own.2.2), ("name".toList, .str other.1),
        ("parent".toList, .str own.2.1)],
      s!"{own.2.1.shown} already carries VLAN {own.2.2} (network.{other.1.shown})"⟩) ++
  collisionViolations (listenPorts entries) carried (· == ·) (fun own other ↦
    ⟨own.1, "wireguard.listenPort", "port_in_use",
      .obj [("name".toList, .str other.1), ("port".toList, number own.2)],
      s!"network.{other.1.shown} already listens on UDP port {own.2}"⟩)

def mapViolations (entries : NetworkMap) (carried : List Text) : List NetworkViolation :=
  relationalViolations fmt entries ++
  (entries.entries.flatMap fun e ↦
    if carried.contains e.1 then entryViolations fmt e.1 e.2 else []) ++
  writeViolations entries carried

variable {fmt}

theorem elim_singleton_eq_nil {α β : Type} {o : Option α} {f : α → β} :
    (o.elim [] fun a ↦ [f a]) = [] ↔ o = none := by
  cases o <;> simp

variable {iface : Text}

theorem violationOf_eq_nil {field : String} {x : Except String Unit} :
    violationOf iface field x = [] ↔ x = .ok () := by
  cases x <;> simp [violationOf]

theorem validateStaticAddress_eq_ok {dhcp : Bool} {address : Text} :
    validateStaticAddress dhcp address = .ok () ↔
      (dhcp = false → address ≠ [] → validCidr address = true) := by
  unfold validateStaticAddress
  cases dhcp <;> cases address <;> simp

/-- What an entry has passed when a request that carries it is admitted. -/
structure Admitted (fmt : Formats) (iface : Text) (cfg : IfaceSettings) : Prop where
  name : checkIfaceName fmt "" iface = .ok ()
  address : ∀ static, cfg.static = some static → cfg.dhcp = false → static.address ≠ [] →
    validCidr static.address = true
  routing : routingProblem fmt cfg = none
  peers : ∀ wireguard, cfg.wireguard = some wireguard →
    validatePeers fmt iface wireguard.peers = .ok ()
  can : validateCan iface cfg = .ok ()
  offline : cfg.isInternet = false → cfg.staticGateway = none

theorem entryViolations_eq_nil {cfg : IfaceSettings} (h : entryViolations fmt iface cfg = []) :
    checkIfaceName fmt "" iface = .ok () ∧
      (∀ static, cfg.static = some static → cfg.dhcp = false → static.address ≠ [] →
        validCidr static.address = true) ∧
      routingProblem fmt cfg = none ∧ (cfg.isInternet = false → cfg.staticGateway = none) := by
  simp only [entryViolations, List.append_eq_nil_iff, violationOf_eq_nil, elim_singleton_eq_nil,
    validateStaticAddress_eq_ok] at h
  obtain ⟨⟨⟨⟨hname, haddress⟩, -⟩, hrouting⟩, hinternet⟩ := h
  refine ⟨?_, fun static hs ↦ by simpa [hs] using haddress, hrouting, fun hoffline ↦ ?_⟩
  · split at hname
    · assumption
    · cases hname
  · simp only [hoffline, Bool.not_false, if_true, internetViolations, List.append_eq_nil_iff,
      elim_singleton_eq_nil] at hinternet
    exact hinternet.1.2

theorem admitted_of_mapViolations {entries : NetworkMap}
    (h : mapViolations fmt entries entries.keys = []) {cfg : IfaceSettings}
    (hget : entries.get iface = some cfg) : Admitted fmt iface cfg := by
  have hmem := OrdMap.get_eq_some_iff.1 hget
  have hkey : entries.keys.contains iface = true := by
    simpa using OrdMap.mem_keys.2 ⟨cfg, hget⟩
  simp only [mapViolations, relationalViolations, List.append_eq_nil_iff,
    List.flatMap_eq_nil_iff] at h
  obtain ⟨⟨⟨hrelational, -⟩, hentries⟩, -⟩ := h
  obtain ⟨hpeers, hcan⟩ := hrelational _ hmem
  have hentry := hentries _ hmem
  rw [if_pos hkey] at hentry
  obtain ⟨hname, haddress, hrouting, hoffline⟩ := entryViolations_eq_nil hentry
  refine ⟨hname, haddress, hrouting, fun wireguard hw ↦ ?_, violationOf_eq_nil.1 hcan, hoffline⟩
  simpa [hw, violationOf_eq_nil] using hpeers

theorem topologyViolations_of_mapViolations {entries : NetworkMap} {carried : List Text}
    (h : mapViolations fmt entries carried = []) : topologyViolations fmt entries = [] := by
  simp only [mapViolations, relationalViolations, List.append_eq_nil_iff] at h
  exact h.1.1.2

end MicaCore.Network
