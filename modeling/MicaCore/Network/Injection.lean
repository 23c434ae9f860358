import MicaCore.Network.Declared
import MicaCore.Network.Applicable

namespace MicaCore.Network

open Data Systemd

def unitKeys : List String :=
  ["Name", "Bridge", "DHCP", "LinkLocalAddressing", "DNS", "Address", "Gateway", "VLAN",
    "Destination", "Metric", "RouteMetric", "UseGateway", "UseDNS", "BitRate",
    "RestartSec", "FDMode",
    "DataBitRate", "Kind", "Id", "PrivateKeyFile", "ListenPort", "PublicKey", "PresharedKeyFile",
    "Endpoint", "PersistentKeepalive"]

def Assigns (V : Text → Prop) (e : String × List Text) : Prop :=
  ∃ key ∈ unitKeys, ∃ value, e = entry key value ∧ V value

structure Texts (V : Text → Prop) (iface : Text) (cfg : IfaceSettings) (master : Option Text)
    (vlans : List Text) : Prop where
  name : V iface
  bridge : ∀ bridge, master = some bridge → V bridge
  vlans : ∀ child ∈ vlans, V child
  servers : ∀ server ∈ cfg.dns, V server
  static : ∀ static, cfg.static = some static →
    V static.address ∧ ∀ server ∈ static.gateway.toList ++ static.dns, V server
  routes : cfg.can = none → master = none → ∀ route ∈ cfg.routes,
    V route.destination ∧ ∀ gateway ∈ route.gateway.toList, V gateway
  numbers : ∀ n, V (numeral n) ∧ V (numeral n ++ ['m', 's'])
  words : V "yes".toList ∧ V "no".toList

variable {V : Text → Prop} {iface : Text} {cfg : IfaceSettings} {master : Option Text}
  {vlans : List Text}

theorem assigns {key : String} {value : Text} (hkey : key ∈ unitKeys) (h : V value) :
    Assigns V (entry key value) := ⟨key, hkey, value, rfl, h⟩

section

variable (h : Texts V iface cfg master vlans)

include h

theorem Texts.addressing :
    ∀ e ∈ declaredAddressing cfg master, Assigns V e := by
  cases master with
  | some bridge =>
    rw [declaredAddressing, List.forall_mem_singleton]
    exact assigns (by decide) (h.bridge bridge rfl)
  | none =>
    rw [declaredAddressing]
    split
    · rw [List.forall_mem_cons, List.forall_mem_cons, List.forall_mem_map]
      exact ⟨assigns (by decide) h.words.1, assigns (by decide) h.words.1,
        fun dns hdns ↦ assigns (by decide) (h.servers dns hdns)⟩
    · cases hs : cfg.static with
      | none => simp
      | some static =>
        obtain ⟨haddress, hservers⟩ := h.static static hs
        rw [Option.elim_some, List.forall_mem_cons, List.forall_mem_append, List.forall_mem_map,
          List.forall_mem_map]
        exact ⟨assigns (by decide) haddress,
          fun gateway hg ↦ assigns (by decide) (hservers gateway (by simp [hg])),
          fun dns hd ↦ assigns (by decide) (hservers dns (by simp [hd]))⟩

theorem Texts.route (hcan : cfg.can = none)
    (hmaster : master = none) {route : RouteConfig} (hroute : route ∈ cfg.routes) :
    ∀ e ∈ (declaredRoute route).entries, Assigns V e := by
  obtain ⟨hdestination, hgateway⟩ := h.routes hcan hmaster route hroute
  simp only [declaredRoute, List.forall_mem_cons, List.forall_mem_append, List.forall_mem_map]
  exact ⟨assigns (by decide) hdestination,
    fun gateway hg ↦ assigns (by decide) (hgateway gateway hg),
    fun metric _ ↦ assigns (by decide) (h.numbers metric).1⟩

theorem Texts.lease (metric : Option ℕ) :
    ∀ d ∈ declaredLease cfg metric, ∀ e ∈ d.entries, Assigns V e := by
  have hsingle (b : Bool) {key : String} (hkey : key ∈ unitKeys) :
      ∀ e ∈ (if b then [] else [entry key "no".toList]), Assigns V e := by
    cases b
    · exact List.forall_mem_singleton.2 (assigns hkey h.words.2)
    · simp
  have hgateways := hsingle cfg.isInternet (by decide : "UseGateway" ∈ unitKeys)
  have hservers := hsingle cfg.dns.isEmpty (by decide : "UseDNS" ∈ unitKeys)
  intro d hd
  rcases List.mem_cons.1 hd with rfl | hd
  · simp only [List.forall_mem_append, List.forall_mem_map]
    exact ⟨⟨fun m _ ↦ assigns (by decide) (h.numbers m).1, hgateways⟩, hservers⟩
  · rcases List.mem_append.1 hd with hd | hd
    · by_cases hdns : cfg.dns.isEmpty = true
      · simp [hdns] at hd
      · rw [if_neg hdns] at hd
        rw [List.mem_singleton.1 hd]
        exact hservers
    · split at hd
      · simp at hd
      · rw [List.mem_singleton.1 hd]
        exact List.forall_mem_append.2 ⟨hgateways, hservers⟩

theorem Texts.unit (metric : Option ℕ) :
    ∀ d ∈ declaredUnit iface cfg master vlans metric, ∀ e ∈ d.entries, Assigns V e := by
  intro d hd
  rcases List.mem_cons.1 hd with rfl | hd
  · exact List.forall_mem_singleton.2 (assigns (by decide) h.name)
  · cases hcan : cfg.can with
    | some can =>
      rw [hcan, List.mem_singleton] at hd
      rw [hd, declaredCan]
      simp only [List.forall_mem_cons, List.forall_mem_append, List.forall_mem_map]
      refine ⟨assigns (by decide) (h.numbers _).1,
        fun ms _ ↦ assigns (by decide) (h.numbers ms).2, ?_,
        fun rate _ ↦ assigns (by decide) (h.numbers rate).1⟩
      split
      · exact assigns (by decide) h.words.1
      · exact assigns (by decide) h.words.2
    | none =>
      rw [hcan] at hd
      rcases List.mem_cons.1 hd with rfl | hd
      · simp only [List.forall_mem_append, List.forall_mem_map]
        exact ⟨h.addressing, fun child hc ↦ assigns (by decide) (h.vlans child hc)⟩
      · rcases List.mem_append.1 hd with hd | hd
        · split at hd
          · next hmaster =>
            obtain ⟨route, hroute, rfl⟩ := List.mem_map.1 hd
            exact h.route hcan (Option.isNone_iff_eq_none.1 hmaster) hroute
          · simp at hd
        · split at hd
          · exact h.lease metric d hd
          · simp at hd

end

variable {e : String × List Text}

theorem Assigns.readable (h : Assigns V e) :
    Word e.1 ∧ readValues e.1 ([','].intercalate e.2) = e.2 := by
  obtain ⟨key, hkey, value, rfl, -⟩ := h
  have hkeys : ∀ key ∈ unitKeys, Word key ∧ key ≠ "AllowedIPs" := by decide
  obtain ⟨hword, hne⟩ := hkeys key hkey
  exact ⟨hword, by simp [readValues, entry, hne]⟩

theorem Assigns.plain (h : Assigns Plain e) : Plain ([','].intercalate e.2) := by
  obtain ⟨key, -, value, rfl, hvalue⟩ := h
  simpa [entry] using hvalue

theorem word_of_mem_declaredUnit {metric : Option ℕ} {d : Declared}
    (h : d ∈ declaredUnit iface cfg master vlans metric) : Word d.name := by
  have hlease : ∀ d ∈ declaredLease cfg metric, Word d.name := by
    intro d hd
    rcases List.mem_cons.1 hd with rfl | hd
    · exact (by decide : Word "DHCPv4")
    · rcases List.mem_append.1 hd with hd | hd <;> split at hd
      · simp at hd
      · rw [List.mem_singleton.1 hd]
        exact (by decide : Word "DHCPv6")
      · simp at hd
      · rw [List.mem_singleton.1 hd]
        exact (by decide : Word "IPv6AcceptRA")
  rcases List.mem_cons.1 h with rfl | h
  · exact (by decide : Word "Match")
  · split at h
    · rw [List.mem_singleton.1 h]
      exact (by decide : Word "CAN")
    · rcases List.mem_cons.1 h with rfl | h
      · exact (by decide : Word "Network")
      · rcases List.mem_append.1 h with h | h <;> split at h
        · obtain ⟨route, -, rfl⟩ := List.mem_map.1 h
          exact (by decide : Word "Route")
        · simp at h
        · exact hlease d h
        · simp at h

theorem readable_declaredUnit (iface : Text) (cfg : IfaceSettings) (master : Option Text)
    (vlans : List Text) (metric : Option ℕ) :
    ∀ d ∈ declaredUnit iface cfg master vlans metric, d.Readable := by
  intro d hd
  have htexts : Texts (fun _ ↦ True) iface cfg master vlans := by constructor <;> simp
  have hentries := htexts.unit metric d hd
  exact ⟨word_of_mem_declaredUnit hd, fun e he ↦ (hentries e he).readable.1,
    fun e he ↦ (hentries e he).readable.2⟩

theorem plain_of_chars {t : Text} (h : ∀ c ∈ t, literalChar c = true ∨ c = ',') : Plain t := by
  have hnot (c : Char) (hc : literalChar c = false ∧ c ≠ ',') : c ∉ t := fun hmem ↦
    (h c hmem).elim (fun hl ↦ absurd hl (by simp [hc.1])) hc.2
  have hblank : ∀ c ∈ t, blank c = false := by
    intro c hc
    by_contra hb
    simp only [Bool.not_eq_false, blank, Bool.or_eq_true, beq_iff_eq] at hb
    rcases hb with ((rfl | rfl) | rfl) | rfl <;> exact hnot _ (by decide) hc
  refine ⟨fun c hc ↦ ?_, ⟨fun c hc ↦ hblank c (List.mem_of_mem_head? hc),
    fun c hc ↦ hblank c (List.mem_of_mem_getLast? hc)⟩, ?_⟩
  · by_contra hb
    simp only [Bool.not_eq_false, lineBreak, Bool.or_eq_true, beq_iff_eq] at hb
    rcases hb with (rfl | rfl) | rfl <;> exact hnot _ (by decide) hc
  · by_contra hesc
    obtain ⟨u, rfl, -⟩ := eq_concat_of_escaped (by simpa using hesc)
    exact hnot '\\' (by decide) (by simp)

theorem plain_of_literal {t : Text} (h : Literal t) : Plain t :=
  plain_of_chars fun c hc ↦ .inl (h c hc)

theorem plain_join (dir : Directory) {name : Text} (h : Literal name) : Plain (dir.join name) := by
  have hplain : Plain ('/' :: name) := plain_of_literal (h.cons (by decide))
  refine ⟨fun c hc ↦ ?_, ⟨fun c hc ↦ ?_, fun c hc ↦ ?_⟩, ?_⟩
  · exact (List.mem_append.1 hc).elim (dir.unbroken c) (hplain.unbroken c)
  · cases hpath : dir.path with
    | nil =>
      rw [Directory.join, hpath] at hc
      exact hplain.edges.1 c hc
    | cons d path =>
      rw [Directory.join, hpath] at hc
      exact dir.start c (by simpa [hpath] using hc)
  · rw [Directory.join, List.getLast?_append_of_ne_nil _ (by simp)] at hc
    exact hplain.edges.2 c hc
  · rw [Directory.join, escaped_append_cons (by decide)]
    exact (plain_of_literal h).unescaped

theorem literal_numeral (n : ℕ) : Literal (numeral n) := fun _ hc ↦
  literalChar_of_isDigit (isDigit_of_mem_numeral hc)

variable {fmt : Formats}

theorem texts_of_validateEntry (h : validateEntry fmt iface cfg = .ok ())
    (hbridge : ∀ bridge, master = some bridge → Literal bridge)
    (hvlans : ∀ child ∈ vlans, Literal child)
    (hroutes : cfg.can = none → master = none → ∀ route ∈ cfg.routes,
      Plain route.destination ∧ ∀ gateway ∈ route.gateway.toList, Plain gateway) :
    Texts Plain iface cfg master vlans := by
  obtain ⟨hname, hstatic, hdns, -⟩ := validateEntry_eq_ok.1 h
  have hserver {server : Text} (hs : (parseIp fmt server).isSome = true) : Plain server := by
    obtain ⟨a, ha⟩ := Option.isSome_iff_exists.1 hs
    exact plain_of_literal (literal_of_parseIp ha)
  refine ⟨plain_of_literal (literal_of_checkIfaceName hname),
    fun bridge hb ↦ plain_of_literal (hbridge bridge hb),
    fun child hc ↦ plain_of_literal (hvlans child hc),
    fun server hs ↦ hserver ((validateDnsOverride_eq_ok.1 hdns).2 server hs), fun static hs ↦ ?_,
    hroutes, fun n ↦ ⟨plain_of_literal (literal_numeral n), plain_of_literal ?_⟩, ?_⟩
  · obtain ⟨haddress, hservers⟩ := validateStatic_eq_ok.1 (hstatic static hs)
    exact ⟨plain_of_literal (literal_of_isIpOrCidr haddress), fun server hs ↦
      hserver (hservers server hs)⟩
  · exact (literal_numeral n).append (by decide)
  · exact ⟨plain_of_literal (by decide), plain_of_literal (by decide)⟩

def DeviceEntry (fmt : Formats) (e : String × List Text) : Prop :=
  Assigns Plain e ∨ e.1 = "AllowedIPs" ∧ e.2 ≠ [] ∧ ∀ ip ∈ e.2, isIpOrCidr fmt ip = true

theorem DeviceEntry.readable (h : DeviceEntry fmt e) :
    Word e.1 ∧ readValues e.1 ([','].intercalate e.2) = e.2 := by
  rcases h with h | ⟨hkey, hne, hips⟩
  · exact h.readable
  · refine ⟨by rw [hkey]; decide, ?_⟩
    rw [readValues, if_pos hkey]
    refine List.splitOn_intercalate ',' (fun ip hip hcomma ↦ ?_) hne
    exact absurd (literal_of_isIpOrCidr (hips ip hip) _ hcomma) (by decide)

theorem DeviceEntry.plain (h : DeviceEntry fmt e) : Plain ([','].intercalate e.2) := by
  rcases h with h | ⟨-, -, hips⟩
  · exact h.plain
  · refine plain_of_chars fun c hc ↦ ?_
    obtain ⟨ip, hip, hc⟩ | rfl := mem_of_mem_intercalate hc
    · exact .inl (literal_of_isIpOrCidr (hips ip hip) c hc)
    · exact .inr rfl

theorem deviceEntry {key : String} {value : Text} (hkey : key ∈ unitKeys)
    (h : Literal value) : DeviceEntry fmt (entry key value) :=
  .inl (assigns hkey (plain_of_literal h))

theorem deviceEntry_of_peer {peer : WireguardPeer} (h : Rendered fmt peer)
    (hiface : Literal iface) (keys : Keystore) (index : ℕ) :
    ∀ e ∈ (declaredPeer iface keys index peer).entries, DeviceEntry fmt e := by
  have hpsk : Literal (pskFile iface index) :=
    ((by decide : Literal "wg-".toList).append hiface).append
      (((literal_numeral index).append (by decide)).cons (by decide))
  simp only [declaredPeer, List.forall_mem_cons, List.forall_mem_append, List.forall_mem_map]
  refine ⟨deviceEntry (by decide) (literal_of_isWireguardKey h.publicKey), ⟨⟨?_, ?_⟩, ?_⟩, ?_⟩
  · split
    · exact List.forall_mem_singleton.2 (.inl (assigns (by decide) (plain_join _ hpsk)))
    · simp
  · split
    · simp
    · next hne =>
      exact List.forall_mem_singleton.2 (.inr ⟨rfl, by simpa using hne, h.allowedIps⟩)
  · intro endpoint hendpoint
    exact deviceEntry (by decide) (literal_of_isHostPort (h.endpoint endpoint (by simpa using hendpoint)))
  · exact fun n _ ↦ deviceEntry (by decide) (literal_numeral n)

theorem deviceEntry_of_validateEntry (h : validateEntry fmt iface cfg = .ok ())
    {keys : Keystore} {ds : List Declared} (hds : declaredNetdev iface cfg keys = some ds) :
    ∀ d ∈ ds, Word d.name ∧ ∀ e ∈ d.entries, DeviceEntry fmt e := by
  obtain ⟨hname, -, -, -, hpeers, -⟩ := validateEntry_eq_ok.1 h
  have hiface : Literal iface := literal_of_checkIfaceName hname
  have hdevice (kind : String) (hkind : Literal kind.toList) :
      ∀ e ∈ [entry "Name" iface, entry "Kind" kind.toList], DeviceEntry fmt e := by
    rw [List.forall_mem_cons, List.forall_mem_singleton]
    exact ⟨deviceEntry (by decide) hiface, deviceEntry (by decide) hkind⟩
  unfold declaredNetdev at hds
  split at hds
  · next vlan _ _ =>
    cases hds
    rw [List.forall_mem_cons, List.forall_mem_singleton]
    exact ⟨⟨(by decide : Word "NetDev"), hdevice _ (by decide)⟩, (by decide : Word "VLAN"),
      List.forall_mem_singleton.2 (deviceEntry (by decide) (literal_numeral vlan.id))⟩
  · cases hds
    rw [List.forall_mem_singleton]
    exact ⟨(by decide : Word "NetDev"), hdevice _ (by decide)⟩
  · next wireguard _ hwireguard =>
    cases hds
    refine List.forall_mem_cons.2 ⟨⟨(by decide : Word "NetDev"), hdevice _ (by decide)⟩,
      List.forall_mem_cons.2 ⟨⟨(by decide : Word "WireGuard"), ?_⟩,
        List.forall_mem_map.2 fun x hx ↦ ⟨(by decide : Word "WireGuardPeer"), ?_⟩⟩⟩
    · have hkey : Literal (keyFile iface) :=
        ((by decide : Literal "wg-".toList).append hiface).append (by decide)
      simp only [List.forall_mem_cons, List.forall_mem_map]
      exact ⟨.inl (assigns (by decide) (plain_join _ hkey)),
        fun n _ ↦ deviceEntry (by decide) (literal_numeral n)⟩
    · have hmem : x.1 ∈ wireguard.peers := List.fst_mem_of_mem_zipIdx hx
      exact deviceEntry_of_peer (rendered_of_validatePeers (hpeers wireguard hwireguard) hmem) hiface
        keys x.2
  · cases hds

theorem readUnit_renderNetdev (h : validateEntry fmt iface cfg = .ok ()) (keys : Keystore) :
    (renderNetdev iface cfg keys).map readUnit = (declaredNetdev iface cfg keys).map some := by
  rw [renderNetdev_eq, Option.map_map]
  cases hds : declaredNetdev iface cfg keys with
  | none => rfl
  | some ds =>
    have hentries := deviceEntry_of_validateEntry h hds
    have hreadable : ∀ d ∈ ds, d.Readable := fun d hd ↦
      ⟨(hentries d hd).1, fun e he ↦ ((hentries d hd).2 e he).readable.1,
        fun e he ↦ ((hentries d hd).2 e he).readable.2⟩
    exact congrArg some ((readUnit_unitFile hreadable).2 fun d hd e he ↦
      ((hentries d hd).2 e he).plain)

def unitOf (board : Board) (network : NetworkMap) (iface : Text) (cfg : IfaceSettings)
    (metric : Option ℕ) : Text :=
  renderUnit iface (board.effective iface cfg) ((bridgePorts network).get iface)
    (vlanChildren network iface) metric

def declaredUnitOf (board : Board) (network : NetworkMap) (iface : Text) (cfg : IfaceSettings)
    (metric : Option ℕ) : List Declared :=
  declaredUnit iface (board.effective iface cfg) ((bridgePorts network).get iface)
    (vlanChildren network iface) metric

theorem effective_eq (board : Board) (iface : Text) (cfg : IfaceSettings) :
    ∃ internet, board.effective iface cfg = { cfg with internet := internet } := by
  unfold Board.effective
  split
  · exact ⟨_, rfl⟩
  · exact ⟨cfg.internet, rfl⟩

theorem readUnit_unitOf {network : NetworkMap}
    (h : validateNetwork fmt network = .ok ()) (hget : network.get iface = some cfg) (board : Board)
    (metric : Option ℕ) :
    readUnit (unitOf board network iface cfg metric) =
        some (declaredUnitOf board network iface cfg metric) ↔
      (cfg.can = none → (bridgePorts network).get iface = none → ∀ route ∈ cfg.routes,
        Plain route.destination ∧ ∀ gateway ∈ route.gateway.toList, Plain gateway) := by
  have hentries := (validateNetwork_eq_ok.1 h).1
  have hkey {name : Text} (hname : ∃ cfg, network.get name = some cfg) : Literal name := by
    obtain ⟨cfg, hcfg⟩ := hname
    exact literal_of_checkIfaceName (validateEntry_eq_ok.1 (hentries name cfg hcfg)).1
  obtain ⟨internet, heffective⟩ := effective_eq board iface cfg
  rw [unitOf, declaredUnitOf, renderUnit_eq, readUnit_unitFile (readable_declaredUnit _ _ _ _ _),
    heffective]
  constructor
  · intro hplain hcan hmaster route hroute
    have hmem : declaredRoute route ∈ declaredUnit iface { cfg with internet := internet }
        ((bridgePorts network).get iface) (vlanChildren network iface) metric := by
      simp only [declaredUnit, hcan, hmaster]
      simp [List.mem_map_of_mem hroute]
    have hentry := hplain _ hmem
    simp only [declaredRoute, List.forall_mem_cons, List.forall_mem_append, List.forall_mem_map] at hentry
    exact ⟨by simpa [entry] using hentry.1, fun gateway hg ↦ by simpa [entry] using hentry.2.1 gateway hg⟩
  · intro hroutes d hd e he
    have htexts : Texts Plain iface cfg ((bridgePorts network).get iface) (vlanChildren network iface) :=
      texts_of_validateEntry (hentries iface cfg hget)
        (fun bridge hb ↦ hkey ((get_bridgePorts hb).imp fun _ h ↦ h.1))
        (fun child hc ↦ hkey (get_of_mem_vlanChildren hc)) hroutes
    have htexts' : Texts Plain iface { cfg with internet := internet }
        ((bridgePorts network).get iface) (vlanChildren network iface) := { htexts with }
    exact (htexts'.unit metric d hd e he).plain

/-- A map is read as declared if and only if its written routes' texts are plain. -/
theorem reads_as_declared (fmt : Formats) (board : Board) (keys : Keystore) (network : NetworkMap)
    (h : validateNetwork fmt network = .ok ()) :
    ((∀ iface cfg metric, network.get iface = some cfg →
        readUnit (unitOf board network iface cfg metric) =
          some (declaredUnitOf board network iface cfg metric)) ↔
      ∀ iface cfg, network.get iface = some cfg → cfg.can = none →
        (bridgePorts network).get iface = none → ∀ route ∈ cfg.routes,
          Plain route.destination ∧ ∀ gateway ∈ route.gateway.toList, Plain gateway) ∧
    ∀ iface cfg, network.get iface = some cfg →
      (renderNetdev iface cfg keys).map readUnit = (declaredNetdev iface cfg keys).map some := by
  refine ⟨⟨fun hread iface cfg hget ↦ ?_, fun hroutes iface cfg metric hget ↦ ?_⟩, ?_⟩
  · exact (readUnit_unitOf h hget board none).1 (hread iface cfg none hget)
  · exact (readUnit_unitOf h hget board metric).2 (hroutes iface cfg hget)
  · exact fun iface cfg hget ↦ readUnit_renderNetdev
      ((validateNetwork_eq_ok.1 h).1 iface cfg hget) keys

namespace Sample

def keys : Keystore where
  dir := ⟨"/state/networkd-secrets".toList, (plain_of_literal (by decide)).unbroken,
    (plain_of_literal (by decide)).edges.1⟩
  pskDir := ⟨"/run/mica/networkd-psk".toList, (plain_of_literal (by decide)).unbroken,
    (plain_of_literal (by decide)).edges.1⟩

def routed (destination : String) : IfaceSettings :=
  { dhcp := true, routes := [{ destination := destination.toList }] }

def routedMap (destination : String) : NetworkMap :=
  OrdMap.empty.insert "eth0".toList (routed destination)

end Sample

theorem reads_as_declared_routed :
    readUnit (unitOf .discover (Sample.routedMap "10.1.0.0/16") "eth0".toList
        (Sample.routed "10.1.0.0/16") none) =
      some (declaredUnitOf .discover (Sample.routedMap "10.1.0.0/16") "eth0".toList
        (Sample.routed "10.1.0.0/16") none) := by
  refine (reads_as_declared Sample.formats .discover Sample.keys (Sample.routedMap "10.1.0.0/16")
    rfl).1.2 ?_ _ _ none rfl
  intro iface cfg hget _ _ route hroute
  have hmem := OrdMap.get_eq_some_iff.1 hget
  obtain ⟨rfl, rfl⟩ := Prod.mk.injEq .. ▸ List.mem_singleton.1 hmem
  obtain rfl := List.mem_singleton.1 hroute
  exact ⟨plain_of_literal (by decide), by simp⟩

/-- A destination with a line break is read as more than one line. -/
theorem not_forall_reads_as_declared :
    ¬ ∀ (fmt : Formats) (board : Board) (keys : Keystore) (network : NetworkMap),
      validateNetwork fmt network = .ok () →
      (∀ iface cfg metric, network.get iface = some cfg →
        readUnit (unitOf board network iface cfg metric) =
          some (declaredUnitOf board network iface cfg metric)) ∧
      ∀ iface cfg, network.get iface = some cfg →
        (renderNetdev iface cfg keys).map readUnit = (declaredNetdev iface cfg keys).map some := by
  intro h
  have hvalid : validateNetwork Sample.formats
      (Sample.routedMap "10.1.0.0/16\n[Network]\nGateway=10.0.0.1") = .ok () := rfl
  have hread := (h Sample.formats .discover Sample.keys _ hvalid).1 "eth0".toList _ none rfl
  have hplain := (readUnit_unitOf hvalid rfl .discover none).1 hread rfl rfl _
    (List.mem_singleton_self _)
  exact absurd (hplain.1.unbroken '\n' (by decide)) (by decide)

end MicaCore.Network
