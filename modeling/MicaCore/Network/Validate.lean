import MicaCore.Network.Admission

namespace MicaCore.Network

open Data

variable (fmt : Formats)

def validateIfaceName (iface : Text) : Except String Unit :=
  checkIfaceName fmt "network interface" iface

def validateStatic (iface : Text) (cfg : StaticConfig) : Except String Unit := do
  ensure (isIpOrCidr fmt cfg.address)
    s!"network.{iface.shown} static address {fmt.debug cfg.address} is not an IP address or CIDR"
  forM cfg.gateway.toList fun gateway ↦
    ensure (parseIp fmt gateway).isSome
      s!"network.{iface.shown} gateway {fmt.debug gateway} is not an IP address"
  forM cfg.dns fun dns ↦
    ensure (parseIp fmt dns).isSome
      s!"network.{iface.shown} DNS server {fmt.debug dns} is not an IP address"

def kindName : IfaceKind → String
  | .physical => "physical"
  | .vlan => "vlan"
  | .bridge => "bridge"
  | .wireguard => "wireguard"
  | .can => "can"

def validateDnsOverride (iface : Text) (cfg : IfaceSettings) : Except String Unit :=
  if cfg.dns.isEmpty then .ok ()
  else do
    ensure (cfg.dhcp && cfg.static.isNone)
      (s!"network.{iface.shown} names DNS servers in `dns`, which replaces the servers of a DHCP " ++
        "lease; a static entry names them in `static.dns`")
    forM cfg.dns fun dns ↦
      ensure (parseIp fmt dns).isSome
        s!"network.{iface.shown} DNS server {fmt.debug dns} is not an IP address"

def validateKindBlocks (iface : Text) (cfg : IfaceSettings) : Except String Unit := do
  let kind := kindName cfg.kind
  let own := if cfg.kind = .physical then none else some kind
  forM [("vlan", cfg.vlan.isSome), ("bridge", cfg.bridge.isSome),
      ("wireguard", cfg.wireguard.isSome), ("can", cfg.can.isSome)] fun block ↦
    ensure (!(block.2 && own != some block.1))
      s!"network.{iface.shown} is kind {kind} but carries a {block.1} block"
  let missing := match cfg.kind with
    | .vlan => cfg.vlan.isNone
    | .bridge => cfg.bridge.isNone
    | .wireguard => cfg.wireguard.isNone
    | .can => cfg.can.isNone
    | .physical => false
  ensure (!missing) s!"network.{iface.shown} is kind {kind} but carries no {kind} block"

def validateEntry (iface : Text) (cfg : IfaceSettings) : Except String Unit := do
  validateIfaceName fmt iface
  forM cfg.static.toList (validateStatic fmt iface)
  validateDnsOverride fmt iface cfg
  validateKindBlocks iface cfg
  forM cfg.wireguard.toList fun wireguard ↦ validatePeers fmt iface wireguard.peers
  validateCan iface cfg

def validateNetwork (network : NetworkMap) : Except String Unit := do
  forM network.entries fun e ↦ validateEntry fmt e.1 e.2
  validateTopology fmt network

def validateKernelFeatures (network : NetworkMap) : Option (List String) → Except String Unit
  | none => .ok ()
  | some features => forM network.entries fun e ↦
    let needs := match e.2.kind with
      | .vlan | .bridge => some "netdev"
      | .wireguard => some "wireguard"
      | .physical | .can => none
    forM needs.toList fun feature ↦
      ensure (features.contains feature)
        (s!"network.{e.1.shown}: a {kindName e.2.kind} device needs the kernel feature {feature}, " ++
          "which the running kernel does not carry")

def bridgePorts (network : NetworkMap) : OrdMap Text Text :=
  network.entries.foldl (fun ports e ↦
    (bridgePortsOf e.2).foldl (fun ports port ↦ ports.insert port e.1) ports) .empty

def vlanChildren (network : NetworkMap) (parent : Text) : List Text :=
  (network.entries.filter fun e ↦ e.2.vlan.any (·.parent == parent)).map Prod.fst

def presharedKeys (network : NetworkMap) : List ((Text × ℕ) × Text) :=
  network.entries.flatMap fun e ↦ e.2.wireguard.elim [] fun wireguard ↦
    wireguard.peers.zipIdx.filterMap fun x ↦ x.1.presharedKey.map ((e.1, x.2), ·)

variable {fmt}

theorem checkIfaceName_eq_ok_iff {field field' : String} {name : Text} :
    checkIfaceName fmt field name = .ok () ↔ checkIfaceName fmt field' name = .ok () := by
  simp only [checkIfaceName, bind_eq_ok, ensure_eq_ok]

variable {iface : Text}

theorem validateStatic_eq_ok {cfg : StaticConfig} :
    validateStatic fmt iface cfg = .ok () ↔
      isIpOrCidr fmt cfg.address = true ∧
        ∀ server ∈ cfg.gateway.toList ++ cfg.dns, (parseIp fmt server).isSome = true := by
  simp only [validateStatic, bind_eq_ok, ensure_eq_ok, exists_const, forM_eq_ok, List.mem_append,
    or_imp, forall_and]

variable {cfg : IfaceSettings}

theorem validateDnsOverride_eq_ok :
    validateDnsOverride fmt iface cfg = .ok () ↔
      (cfg.dns ≠ [] → cfg.dhcp = true ∧ cfg.static = none) ∧
        ∀ dns ∈ cfg.dns, (parseIp fmt dns).isSome = true := by
  unfold validateDnsOverride
  cases hdns : cfg.dns with
  | nil => simp
  | cons dns rest =>
    simp only [List.isEmpty_cons, Bool.false_eq_true, if_false, bind_eq_ok, ensure_eq_ok,
      exists_const, forM_eq_ok, Bool.and_eq_true, Option.isNone_iff_eq_none, ne_eq, reduceCtorEq,
      not_false_eq_true, forall_const]

theorem validateKindBlocks_eq_ok :
    validateKindBlocks iface cfg = .ok () ↔
      (cfg.vlan.isSome = true ↔ cfg.kind = .vlan) ∧
      (cfg.bridge.isSome = true ↔ cfg.kind = .bridge) ∧
        (cfg.wireguard.isSome = true ↔ cfg.kind = .wireguard) ∧
          (cfg.can.isSome = true ↔ cfg.kind = .can) := by
  unfold validateKindBlocks
  cases hkind : cfg.kind <;> simp [kindName, Option.isSome_iff_ne_none] <;> tauto

theorem validateEntry_eq_ok :
    validateEntry fmt iface cfg = .ok () ↔
      validateIfaceName fmt iface = .ok () ∧
        (∀ static, cfg.static = some static → validateStatic fmt iface static = .ok ()) ∧
          validateDnsOverride fmt iface cfg = .ok () ∧ validateKindBlocks iface cfg = .ok () ∧
            (∀ wireguard, cfg.wireguard = some wireguard →
              validatePeers fmt iface wireguard.peers = .ok ()) ∧ validateCan iface cfg = .ok () := by
  simp only [validateEntry, bind_eq_ok, exists_const, forM_eq_ok, Option.mem_toList]
  simp only [Unique.exists_iff, PUnit.default_eq_unit]

variable {network : NetworkMap}

theorem validateNetwork_eq_ok :
    validateNetwork fmt network = .ok () ↔
      (∀ iface cfg, network.get iface = some cfg → validateEntry fmt iface cfg = .ok ()) ∧
        topologyViolations fmt network = [] := by
  simp only [validateNetwork, bind_eq_ok, exists_const, forM_eq_ok, validateTopology_eq_ok,
    OrdMap.get_eq_some_iff, Prod.forall]

theorem get_foldl_insert {ports : List Text} {claimed : OrdMap Text Text} {port bridge : Text}
    (h : (ports.foldl (fun claimed port ↦ claimed.insert port iface) claimed).get port = some bridge) :
    bridge = iface ∧ port ∈ ports ∨ claimed.get port = some bridge := by
  induction ports generalizing claimed with
  | nil => exact .inr h
  | cons p ports ih =>
    rcases ih h with ⟨rfl, hmem⟩ | h
    · exact .inl ⟨rfl, by simp [hmem]⟩
    · rw [OrdMap.get_insert] at h
      split at h
      · next heq =>
        cases h
        exact .inl ⟨rfl, by simp [heq]⟩
      · exact .inr h

theorem get_bridgePorts {port bridge : Text} (h : (bridgePorts network).get port = some bridge) :
    ∃ cfg, network.get bridge = some cfg ∧ port ∈ bridgePortsOf cfg := by
  have hfold : ∀ (entries : List (Text × IfaceSettings)) (claimed : OrdMap Text Text),
      (entries.foldl (fun ports e ↦
        (bridgePortsOf e.2).foldl (fun ports port ↦ ports.insert port e.1) ports) claimed).get port =
          some bridge →
      (∃ cfg, (bridge, cfg) ∈ entries ∧ port ∈ bridgePortsOf cfg) ∨
        claimed.get port = some bridge := by
    intro entries
    induction entries with
    | nil => exact fun claimed h ↦ .inr h
    | cons e entries ih =>
      intro claimed h
      rcases ih _ h with ⟨cfg, hmem, hport⟩ | h
      · exact .inl ⟨cfg, by simp [hmem], hport⟩
      · rcases get_foldl_insert h with ⟨rfl, hport⟩ | h
        · exact .inl ⟨e.2, by simp, hport⟩
        · exact .inr h
  rcases hfold _ _ h with ⟨cfg, hmem, hport⟩ | h
  · exact ⟨cfg, OrdMap.get_eq_some_iff.2 hmem, hport⟩
  · cases h

theorem get_of_mem_vlanChildren {parent child : Text}
    (h : child ∈ vlanChildren network parent) : ∃ cfg, network.get child = some cfg := by
  obtain ⟨e, he, rfl⟩ := List.mem_map.1 h
  exact ⟨e.2, OrdMap.get_eq_some_iff.2 (List.mem_filter.1 he).1⟩

end MicaCore.Network
