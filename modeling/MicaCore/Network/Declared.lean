import MicaCore.Network.Render

namespace MicaCore.Network

open Data Systemd

structure Declared where
  name : String
  entries : List (String × List Text)
  deriving DecidableEq

def entry (key : String) (value : Text) : String × List Text := (key, [value])

def declaredAddressing (cfg : IfaceSettings) : Option Text → List (String × List Text)
  | some bridge => [entry "Bridge" bridge]
  | none =>
    if cfg.dhcp then
      entry "DHCP" "yes".toList :: entry "LinkLocalAddressing" "yes".toList :: cfg.dns.map (entry "DNS")
    else cfg.static.elim [] fun static ↦
      entry "Address" static.address ::
        (static.gateway.toList.map (entry "Gateway") ++ static.dns.map (entry "DNS"))

def declaredRoute (route : RouteConfig) : Declared where
  name := "Route"
  entries := entry "Destination" route.destination ::
    (route.gateway.toList.map (entry "Gateway") ++
      (route.metric.toList.map numeral).map (entry "Metric"))

def declaredLease (cfg : IfaceSettings) (metric : Option ℕ) : List Declared :=
  let gateway := if cfg.isInternet then [] else [entry "UseGateway" "no".toList]
  let servers := if cfg.dns.isEmpty then [] else [entry "UseDNS" "no".toList]
  ⟨"DHCPv4", (metric.toList.map numeral).map (entry "RouteMetric") ++ gateway ++ servers⟩ ::
    ((if cfg.dns.isEmpty then [] else [⟨"DHCPv6", servers⟩]) ++
      if cfg.dns.isEmpty && cfg.isInternet then [] else [⟨"IPv6AcceptRA", gateway ++ servers⟩])

def declaredCan (can : CanConfig) : Declared where
  name := "CAN"
  entries := entry "BitRate" (numeral can.bitrate) ::
    ((can.restartMs.toList.map fun ms ↦ entry "RestartSec" (numeral ms ++ "ms".toList)) ++
      entry "FDMode" (if can.fd = some true then "yes".toList else "no".toList) ::
        (can.dataBitrate.toList.map numeral).map (entry "DataBitRate"))

def declaredUnit (iface : Text) (cfg : IfaceSettings) (master : Option Text) (vlans : List Text)
    (metric : Option ℕ) : List Declared :=
  ⟨"Match", [entry "Name" iface]⟩ ::
    match cfg.can with
    | some can => [declaredCan can]
    | none =>
      ⟨"Network", declaredAddressing cfg master ++ vlans.map (entry "VLAN")⟩ ::
        ((if master.isNone then cfg.routes.map declaredRoute else []) ++
          if leases cfg master metric then declaredLease cfg metric else [])

def declaredPeer (iface : Text) (keys : Keystore) (index : ℕ) (peer : WireguardPeer) :
    Declared where
  name := "WireGuardPeer"
  entries := entry "PublicKey" peer.publicKey ::
    ((if peer.presharedKey.isSome then [entry "PresharedKeyFile" (keys.pskPath iface index)] else []) ++
      (if peer.allowedIps.isEmpty then [] else [("AllowedIPs", peer.allowedIps)]) ++
        peer.endpoint.toList.map (entry "Endpoint") ++
          (peer.persistentKeepalive.toList.map numeral).map (entry "PersistentKeepalive"))

def declaredNetdev (iface : Text) (cfg : IfaceSettings) (keys : Keystore) : Option (List Declared) :=
  let device (kind : String) : Declared :=
    ⟨"NetDev", [entry "Name" iface, entry "Kind" kind.toList]⟩
  match cfg.kind, cfg.vlan, cfg.wireguard with
  | .vlan, some vlan, _ => some [device "vlan", ⟨"VLAN", [entry "Id" (numeral vlan.id)]⟩]
  | .bridge, _, _ => some [device "bridge"]
  | .wireguard, _, some wireguard =>
    some (device "wireguard" ::
      ⟨"WireGuard", entry "PrivateKeyFile" (keys.keyPath iface) ::
        (wireguard.listenPort.toList.map numeral).map (entry "ListenPort")⟩ ::
        wireguard.peers.zipIdx.map fun x ↦ declaredPeer iface keys x.2 x.1)
  | _, _, _ => none

def Declared.section (d : Declared) : Section :=
  ⟨d.name.toList, d.entries.map fun e ↦ (e.1.toList, [','].intercalate e.2)⟩

@[simp] theorem text_section (d : Declared) :
    d.section.text = opened d.name ++ d.entries.flatMap fun e ↦
      put e.1 ([','].intercalate e.2) := by
  simp [Declared.section, Section.text, List.flatMap_map, opened, put]

@[simp] theorem put_entry (key : String) (value : Text) :
    put (entry key value).1 ([','].intercalate (entry key value).2) = put key value := by
  simp [entry]

theorem flatMap_toList {α β : Type} (o : Option α) (f : α → List β) :
    o.toList.flatMap f = o.elim [] f := by
  cases o <;> simp

theorem renderRoute_eq (route : RouteConfig) :
    renderRoute route = '\n' :: (declaredRoute route).section.text := by
  simp [renderRoute, declaredRoute, List.flatMap_map, flatMap_toList]

variable (iface : Text)

theorem renderCanUnit_eq (can : CanConfig) :
    renderCanUnit iface can =
      unitFile ([⟨"Match", [entry "Name" iface]⟩, declaredCan can].map Declared.section) := by
  simp [renderCanUnit, declaredCan, unitFile, List.flatMap_map, flatMap_toList]

theorem renderLease_eq (cfg : IfaceSettings) (metric : Option ℕ) :
    renderLease cfg metric =
      ((declaredLease cfg metric).map Declared.section).flatMap fun s ↦ '\n' :: s.text := by
  cases hdns : cfg.dns.isEmpty <;> cases hnet : cfg.isInternet <;>
    simp [renderLease, declaredLease, hdns, hnet, List.flatMap_map, flatMap_toList]

theorem renderAddressing_eq (cfg : IfaceSettings) (master : Option Text) :
    renderAddressing cfg master = (declaredAddressing cfg master).flatMap fun e ↦
      put e.1 ([','].intercalate e.2) := by
  cases master with
  | some bridge => simp [renderAddressing, declaredAddressing]
  | none =>
    cases hdhcp : cfg.dhcp <;> cases hstatic : cfg.static <;>
      simp [renderAddressing, declaredAddressing, hdhcp, hstatic, List.flatMap_map, flatMap_toList]

theorem renderUnit_eq (cfg : IfaceSettings) (master : Option Text)
    (vlans : List Text) (metric : Option ℕ) :
    renderUnit iface cfg master vlans metric =
      unitFile ((declaredUnit iface cfg master vlans metric).map Declared.section) := by
  cases hcan : cfg.can with
  | some can => simpa [renderUnit, declaredUnit, hcan] using renderCanUnit_eq iface can
  | none =>
    have hroutes : (if master.isNone then cfg.routes.flatMap renderRoute else []) =
        ((if master.isNone then cfg.routes.map declaredRoute else []).map Declared.section).flatMap
          fun s ↦ '\n' :: s.text := by
      split
      · rw [List.map_map, List.flatMap_map]
        exact congrArg (List.flatMap · cfg.routes) (funext renderRoute_eq)
      · rfl
    have hlease : (if leases cfg master metric then renderLease cfg metric else []) =
        ((if leases cfg master metric then declaredLease cfg metric else []).map
          Declared.section).flatMap fun s ↦ '\n' :: s.text := by
      split <;> simp [renderLease_eq]
    rw [renderUnit, hcan]
    simp only [hroutes, hlease, renderAddressing_eq]
    simp [declaredUnit, hcan, unitFile, List.flatMap_map]

theorem renderPeer_eq (keys : Keystore) (index : ℕ) (peer : WireguardPeer) :
    renderPeer iface keys index peer = '\n' :: (declaredPeer iface keys index peer).section.text := by
  cases hpsk : peer.presharedKey <;> cases hallowed : peer.allowedIps <;>
    simp [renderPeer, declaredPeer, hpsk, hallowed, List.flatMap_map, flatMap_toList]

theorem renderNetdev_eq (cfg : IfaceSettings) (keys : Keystore) :
    renderNetdev iface cfg keys =
      (declaredNetdev iface cfg keys).map fun ds ↦ unitFile (ds.map Declared.section) := by
  have hpeers (peers : List (WireguardPeer × ℕ)) :
      (peers.flatMap fun x ↦ renderPeer iface keys x.2 x.1) =
        ((peers.map fun x ↦ declaredPeer iface keys x.2 x.1).map Declared.section).flatMap
          fun s ↦ '\n' :: s.text := by
    rw [List.map_map, List.flatMap_map]
    exact congrArg (List.flatMap · peers) (funext fun x ↦ renderPeer_eq iface keys x.2 x.1)
  unfold renderNetdev declaredNetdev
  cases cfg.kind <;> cases cfg.vlan <;> cases cfg.wireguard <;>
    simp [unitFile, renderWireguard, hpeers, flatMap_toList, List.flatMap_map]

def readValues (key : String) (value : Text) : List Text :=
  if key = "AllowedIPs" then value.splitOn ',' else [value]

def Declared.ofSection (s : Section) : Declared :=
  ⟨.ofList s.name, s.entries.map fun e ↦ (.ofList e.1, readValues (.ofList e.1) e.2)⟩

def readUnit (t : Text) : Option (List Declared) :=
  (sections t).map (·.map Declared.ofSection)

def Word (s : String) : Prop := s.toList ≠ [] ∧ ∀ c ∈ s.toList, c.isAlphanum = true

instance (s : String) : Decidable (Word s) :=
  decidable_of_iff (s.toList ≠ [] ∧ s.toList.all Char.isAlphanum = true)
    (and_congr Iff.rfl List.all_eq_true)

structure Declared.Readable (d : Declared) : Prop where
  name : Word d.name
  keys : ∀ e ∈ d.entries, Word e.1
  values : ∀ e ∈ d.entries, readValues e.1 ([','].intercalate e.2) = e.2

theorem intercalate_readValues (key : String) (value : Text) :
    [','].intercalate (readValues key value) = value := by
  unfold readValues
  split
  · exact List.intercalate_splitOn ..
  · simp

theorem section_ofSection (s : Section) : (Declared.ofSection s).section = s := by
  simp [Declared.ofSection, Declared.section, intercalate_readValues, Function.comp_def]

theorem Declared.Readable.ofSection_section {d : Declared} (h : d.Readable) :
    Declared.ofSection d.section = d := by
  have hentries : (d.entries.map fun e ↦
      (e.1, readValues e.1 ([','].intercalate e.2))) = d.entries := by
    conv_rhs => rw [← List.map_id d.entries]
    exact List.map_congr_left fun e he ↦ by simp [h.values e he]
  simp [Declared.ofSection, Declared.section, Function.comp_def, hentries]

theorem readUnit_unitFile {ds : List Declared} (h : ∀ d ∈ ds, d.Readable) :
    readUnit (unitFile (ds.map Declared.section)) = some ds ↔
      ∀ d ∈ ds, ∀ e ∈ d.entries, Plain ([','].intercalate e.2) := by
  have htame : ∀ s ∈ ds.map Declared.section, s.Tame := by
    intro s hs t ht
    obtain ⟨d, hd, rfl⟩ := List.mem_map.1 hs
    rcases List.mem_cons.1 ht with rfl | ht
    · exact (h d hd).name
    · obtain ⟨e', he', rfl⟩ := List.mem_map.1 ht
      obtain ⟨e, he, rfl⟩ := List.mem_map.1 he'
      exact (h d hd).keys e he
  have hsections : readUnit (unitFile (ds.map Declared.section)) = some ds ↔
      sections (unitFile (ds.map Declared.section)) = some (ds.map Declared.section) := by
    rw [readUnit, Option.map_eq_some_iff]
    constructor
    · rintro ⟨ss, hss, rfl⟩
      simpa [Function.comp_def, section_ofSection] using hss
    · intro hss
      refine ⟨_, hss, ?_⟩
      rw [List.map_map]
      conv_rhs => rw [← List.map_id ds]
      exact List.map_congr_left fun d hd ↦ (h d hd).ofSection_section
  rw [hsections, sections_unitFile htame]
  simp only [Declared.section, List.forall_mem_map]

end MicaCore.Network
