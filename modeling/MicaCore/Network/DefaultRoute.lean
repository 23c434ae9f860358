import MicaCore.Network.Injection

namespace MicaCore.Network

open Data Systemd

def prefixLength (fmt : Formats) (destination : Text) : Option ℕ :=
  (parseIp fmt (splitCidr destination).1).bind fun addr ↦
    (splitCidr destination).2.elim (some addr.width) (parseUnsigned 255)

/-- A unit that declares no default route, and on a lease takes none. -/
structure NoDefaultRoute (fmt : Formats) (dhcp : Bool) (unit : List Declared) : Prop where
  gateway : ∀ d ∈ unit, d.name = "Network" → ∀ e ∈ d.entries, e.1 ≠ "Gateway"
  route : ∀ d ∈ unit, d.name = "Route" → ∀ e ∈ d.entries, e.1 = "Destination" →
    ∀ destination ∈ e.2, prefixLength fmt destination ≠ some 0
  lease : dhcp = true → ∀ name ∈ ["DHCPv4", "IPv6AcceptRA"],
    ∃ d ∈ unit, d.name = name ∧ ("UseGateway", ["no".toList]) ∈ d.entries

variable {fmt : Formats} {iface : Text} {cfg : IfaceSettings} {master : Option Text}
  {vlans : List Text} {metric : Option ℕ}

theorem mem_declaredUnit (hcan : cfg.can = none) {d : Declared} :
    d ∈ declaredUnit iface cfg master vlans metric ↔
      d = ⟨"Match", [entry "Name" iface]⟩ ∨
      d = ⟨"Network", declaredAddressing cfg master ++ vlans.map (entry "VLAN")⟩ ∨
      (master = none ∧ ∃ route ∈ cfg.routes, d = declaredRoute route) ∨
      (leases cfg master metric = true ∧ d ∈ declaredLease cfg metric) := by
  simp only [declaredUnit, hcan, List.mem_cons, List.mem_append]
  cases master <;> cases leases cfg _ metric <;> simp [eq_comm]

theorem name_of_mem_declaredLease {d : Declared} (h : d ∈ declaredLease cfg metric) :
    d.name ≠ "Network" ∧ d.name ≠ "Route" := by
  rcases List.mem_cons.1 h with rfl | h
  · exact (by decide : "DHCPv4" ≠ "Network" ∧ "DHCPv4" ≠ "Route")
  · rcases List.mem_append.1 h with h | h <;> split at h
    · simp at h
    · rw [List.mem_singleton.1 h]
      exact (by decide : "DHCPv6" ≠ "Network" ∧ "DHCPv6" ≠ "Route")
    · simp at h
    · rw [List.mem_singleton.1 h]
      exact (by decide : "IPv6AcceptRA" ≠ "Network" ∧ "IPv6AcceptRA" ≠ "Route")

theorem gateway_declaredAddressing :
    (∀ e ∈ declaredAddressing cfg master, e.1 ≠ "Gateway") ↔
      (master = none → cfg.dhcp = false → cfg.staticGateway = none) := by
  cases master with
  | some bridge => simp [declaredAddressing, entry]
  | none =>
    cases hdhcp : cfg.dhcp with
    | true => simp [declaredAddressing, hdhcp, entry]
    | false =>
      cases hstatic : cfg.static with
      | none => simp [declaredAddressing, hdhcp, hstatic, IfaceSettings.staticGateway]
      | some static =>
        cases hgateway : static.gateway <;>
          simp [declaredAddressing, hdhcp, hstatic, hgateway, IfaceSettings.staticGateway, entry]

theorem gateway_declaredUnit (hcan : cfg.can = none) :
    (∀ d ∈ declaredUnit iface cfg master vlans metric, d.name = "Network" →
        ∀ e ∈ d.entries, e.1 ≠ "Gateway") ↔
      (master = none → cfg.dhcp = false → cfg.staticGateway = none) := by
  rw [← gateway_declaredAddressing]
  constructor
  · intro h e he
    exact h _ ((mem_declaredUnit hcan).2 (.inr (.inl rfl))) rfl e (List.mem_append_left _ he)
  · intro h d hd hname
    rcases (mem_declaredUnit hcan).1 hd with rfl | rfl | ⟨-, route, -, rfl⟩ | ⟨-, hd⟩
    · exact absurd hname (by simp)
    · refine List.forall_mem_append.2 ⟨h, List.forall_mem_map.2 fun child _ ↦ ?_⟩
      exact (by decide : "VLAN" ≠ "Gateway")
    · exact absurd hname (by simp [declaredRoute])
    · exact absurd hname (name_of_mem_declaredLease hd).1

theorem route_declaredUnit (hcan : cfg.can = none) :
    (∀ d ∈ declaredUnit iface cfg master vlans metric, d.name = "Route" →
        ∀ e ∈ d.entries, e.1 = "Destination" → ∀ destination ∈ e.2,
          prefixLength fmt destination ≠ some 0) ↔
      (master = none → ∀ route ∈ cfg.routes, prefixLength fmt route.destination ≠ some 0) := by
  constructor
  · intro h hmaster route hroute
    have hd : declaredRoute route ∈ declaredUnit iface cfg master vlans metric :=
      (mem_declaredUnit hcan).2 (.inr (.inr (.inl ⟨hmaster, route, hroute, rfl⟩)))
    exact h _ hd rfl (entry "Destination" route.destination) (by simp [declaredRoute]) rfl _
      (by simp [entry])
  · intro h d hd hname e he hkey destination hdest
    rcases (mem_declaredUnit hcan).1 hd with rfl | rfl | ⟨hmaster, route, hroute, rfl⟩ | ⟨-, hd⟩
    · exact absurd hname (by simp)
    · exact absurd hname (by simp)
    · have hentry : e = entry "Destination" route.destination := by
        rcases List.mem_cons.1 he with rfl | he
        · rfl
        · rcases List.mem_append.1 he with he | he
          · obtain ⟨gateway, -, rfl⟩ := List.mem_map.1 he
            exact absurd hkey (by simp [entry])
          · obtain ⟨number, -, rfl⟩ := List.mem_map.1 he
            exact absurd hkey (by simp [entry])
      rw [hentry] at hdest
      rw [List.mem_singleton.1 hdest]
      exact h hmaster route hroute
    · exact absurd hname (name_of_mem_declaredLease hd).2

theorem lease_declaredUnit (hcan : cfg.can = none) (hmaster : master = none) (hdhcp : cfg.dhcp = true)
    (hoffline : cfg.isInternet = false) :
    ∀ name ∈ ["DHCPv4", "IPv6AcceptRA"], ∃ d ∈ declaredUnit iface cfg master vlans metric,
      d.name = name ∧ ("UseGateway", ["no".toList]) ∈ d.entries := by
  have hleases : leases cfg master metric = true := by simp [leases, hmaster, hdhcp, hoffline]
  have hmem : ∀ d ∈ declaredLease cfg metric, d ∈ declaredUnit iface cfg master vlans metric :=
    fun d hd ↦ (mem_declaredUnit hcan).2 (.inr (.inr (.inr ⟨hleases, hd⟩)))
  have hentry : ("UseGateway", ["no".toList]) ∈
      if cfg.isInternet then [] else [entry "UseGateway" "no".toList] := by
    rw [hoffline]
    exact List.mem_singleton_self _
  have hra : (⟨"IPv6AcceptRA", (if cfg.isInternet then [] else [entry "UseGateway" "no".toList]) ++
      if cfg.dns.isEmpty then [] else [entry "UseDNS" "no".toList]⟩ : Declared) ∈
        declaredLease cfg metric := by
    refine List.mem_cons_of_mem _ (List.mem_append_right _ ?_)
    rw [hoffline, Bool.and_false]
    exact List.mem_singleton_self _
  rw [List.forall_mem_cons, List.forall_mem_singleton]
  exact ⟨⟨_, hmem _ (List.mem_cons_self ..), rfl,
      List.mem_append_left _ (List.mem_append_right _ hentry)⟩,
    ⟨_, hmem _ hra, rfl, List.mem_append_left _ hentry⟩⟩

theorem noDefaultRoute_declaredUnit (hcan : cfg.can = none) (hoffline : cfg.isInternet = false)
    (hport : master ≠ none → cfg.dhcp = false) :
    NoDefaultRoute fmt cfg.dhcp (declaredUnit iface cfg master vlans metric) ↔
      (master = none → (cfg.dhcp = false → cfg.staticGateway = none) ∧
        ∀ route ∈ cfg.routes, prefixLength fmt route.destination ≠ some 0) := by
  constructor
  · intro h hmaster
    exact ⟨(gateway_declaredUnit hcan).1 h.gateway hmaster, (route_declaredUnit hcan).1 h.route hmaster⟩
  · intro h
    refine ⟨(gateway_declaredUnit hcan).2 fun hm ↦ (h hm).1,
      (route_declaredUnit hcan).2 fun hm ↦ (h hm).2, fun hdhcp ↦ ?_⟩
    by_cases hmaster : master = none
    · exact lease_declaredUnit hcan hmaster hdhcp hoffline
    · exact absurd (hport hmaster) (by simp [hdhcp])

theorem plain_of_routingProblem (h : routingProblem fmt cfg = none) :
    ∀ route ∈ cfg.routes, Plain route.destination ∧
    ∀ gateway ∈ route.gateway.toList, Plain gateway := by
  have hroutes : cfg.routes.findSome? (routeProblem fmt cfg.staticGateway.isSome) = none := by
    unfold routingProblem at h
    split at h
    · cases h
    · assumption
  intro route hroute
  have hnone := List.findSome?_eq_none_iff.1 hroutes route hroute
  unfold routeProblem at hnone
  split at hnone
  · cases hnone
  · next hdestination =>
    refine ⟨plain_of_literal (literal_of_isIpOrCidr (by simpa using hdestination)), fun gateway hg ↦ ?_⟩
    split at hnone
    · next hgateway =>
      cases hgw : route.gateway with
      | none => simp [hgw] at hgateway
      | some g => simp [hgw] at hnone
    · next hgateway =>
      obtain hg : route.gateway = some gateway := by simpa using hg
      rw [hg] at hgateway
      obtain ⟨a, ha⟩ := Option.ne_none_iff_exists'.1 (by simpa using hgateway)
      exact plain_of_literal (literal_of_parseIp ha)

/-- An entry kept off the internet has no default route just if no gateway or zero-length route
gives one. -/
theorem noDefaultRoute_of_admitted (fmt : Formats) (board : Board) (entries : NetworkMap)
    (h : mapViolations fmt entries entries.keys = []) (hvalid : validateNetwork fmt entries = .ok ())
    (iface : Text) (cfg : IfaceSettings) (hget : entries.get iface = some cfg)
    (hoffline : (board.effective iface cfg).isInternet = false) (hcan : cfg.can = none)
    (metric : Option ℕ) :
    ∃ unit, readUnit (unitOf board entries iface cfg metric) = some unit ∧
      (NoDefaultRoute fmt cfg.dhcp unit ↔
        ((bridgePorts entries).get iface = none →
          (cfg.dhcp = false → cfg.staticGateway = none) ∧
            ∀ route ∈ cfg.routes, prefixLength fmt route.destination ≠ some 0)) := by
  have hadmitted := admitted_of_mapViolations h hget
  refine ⟨_, (readUnit_unitOf hvalid hget board metric).2
    fun _ _ ↦ plain_of_routingProblem hadmitted.routing, ?_⟩
  have hport : (bridgePorts entries).get iface ≠ none → cfg.dhcp = false := by
    intro hne
    obtain ⟨bridge, hbridge⟩ := Option.ne_none_iff_exists'.1 hne
    obtain ⟨bridgeCfg, hbget, hmem⟩ := get_bridgePorts hbridge
    obtain ⟨cfg', hget', -, hdhcp, -⟩ :=
      port_of_topologyViolations (topologyViolations_of_mapViolations h) hbget hmem
    obtain rfl : cfg = cfg' := by simpa [hget] using hget'
    exact hdhcp
  obtain ⟨internet, heffective⟩ := effective_eq board iface cfg
  rw [heffective] at hoffline
  have hcan' : ({ cfg with internet := internet } : IfaceSettings).can = none := hcan
  rw [declaredUnitOf, heffective]
  exact noDefaultRoute_declaredUnit hcan' hoffline hport

namespace Sample

def offline (destination : String) : IfaceSettings :=
  { routed destination with internet := some false }

def offlineMap (destination : String) : NetworkMap :=
  OrdMap.empty.insert "eth0".toList (offline destination)

end Sample

theorem noDefaultRoute_offline :
    ∃ unit, readUnit (unitOf .discover (Sample.offlineMap "10.1.0.0/16") "eth0".toList
        (Sample.offline "10.1.0.0/16") none) = some unit ∧
      NoDefaultRoute Sample.formats true unit := by
  obtain ⟨unit, hunit, hiff⟩ := noDefaultRoute_of_admitted Sample.formats .discover
    (Sample.offlineMap "10.1.0.0/16") rfl rfl "eth0".toList (Sample.offline "10.1.0.0/16") rfl
      rfl rfl none
  refine ⟨unit, hunit, hiff.2 fun _ ↦ ⟨fun _ ↦ rfl, ?_⟩⟩
  exact List.forall_mem_singleton.2 (by decide)

/-- The default route of the other family passes the write rules. -/
theorem not_forall_noDefaultRoute :
    ¬ ∀ (fmt : Formats) (board : Board) (entries : NetworkMap),
      mapViolations fmt entries entries.keys = [] → validateNetwork fmt entries = .ok () →
      ∀ iface cfg, entries.get iface = some cfg → (board.effective iface cfg).isInternet = false →
        cfg.can = none → ∀ metric, ∃ unit, readUnit (unitOf board entries iface cfg metric) = some unit ∧
          NoDefaultRoute fmt cfg.dhcp unit := by
  intro h
  have hvalid : validateNetwork Sample.formats (Sample.offlineMap "::/0") = .ok () := rfl
  obtain ⟨unit, hunit, hno⟩ := h Sample.formats .discover (Sample.offlineMap "::/0") rfl hvalid
    "eth0".toList (Sample.offline "::/0") rfl rfl rfl none
  have hget : (Sample.offlineMap "::/0").get "eth0".toList = some (Sample.offline "::/0") := rfl
  have hread := (readUnit_unitOf hvalid hget .discover none).2 fun _ _ route hroute ↦ by
    obtain rfl := List.mem_singleton.1 hroute
    exact ⟨plain_of_literal (by decide), by simp⟩
  obtain rfl := Option.some.inj (hunit.symm.trans hread)
  have hroute := (route_declaredUnit rfl).1 hno.route rfl _ (List.mem_singleton_self _)
  exact hroute (by decide)

end MicaCore.Network
