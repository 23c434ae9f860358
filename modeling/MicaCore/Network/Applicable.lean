import MicaCore.Network.Validate

namespace MicaCore.Network

open Data

variable {fmt : Formats}

/-- An entry has the blocks of its kind only, and static texts that are addresses. -/
structure Applicable (fmt : Formats) (cfg : IfaceSettings) : Prop where
  vlan : cfg.vlan.isSome = true ↔ cfg.kind = .vlan
  bridge : cfg.bridge.isSome = true ↔ cfg.kind = .bridge
  wireguard : cfg.wireguard.isSome = true ↔ cfg.kind = .wireguard
  leased : ∀ static, cfg.static = some static → cfg.dhcp = true →
    isIpOrCidr fmt static.address = true
  fixed : ∀ static, cfg.static = some static → cfg.dhcp = false →
    static.address ≠ [] ∧ canonical (splitCidr static.address).1 = true
  servers : ∀ static, cfg.static = some static →
    ∀ server ∈ static.gateway.toList ++ static.dns, (parseIp fmt server).isSome = true

variable {iface : Text} {cfg : IfaceSettings}

theorem can_of_validateCan
    (h : validateCan iface cfg = .ok ()) : cfg.can.isSome = true ↔ cfg.kind = .can := by
  unfold validateCan at h
  cases hcan : cfg.can with
  | none => simpa [hcan] using h
  | some can =>
    simp only [hcan, bind_eq_ok, ensure_eq_ok, exists_const, beq_iff_eq] at h
    simp [h.1]

theorem not_isIpOrCidr_nil : isIpOrCidr fmt [] = false := by
  have hv6 : fmt.parseIpv6 [] = none := by
    rw [Option.eq_none_iff_forall_ne_some]
    intro a ha
    simpa using fmt.ipv6_colon ha
  have hv4 : parseIpv4 [] = none := by decide
  simp [isIpOrCidr, splitCidr, splitOnce, parseIp, hv4, hv6]

theorem Admitted.isIpOrCidr_iff {static : StaticConfig}
    (h : Admitted fmt iface cfg) (hstatic : cfg.static = some static) (hdhcp : cfg.dhcp = false) :
    isIpOrCidr fmt static.address = true ↔
      static.address ≠ [] ∧ canonical (splitCidr static.address).1 = true := by
  by_cases hnil : static.address = []
  · simp [hnil, not_isIpOrCidr_nil]
  · rw [isIpOrCidr_of_validCidr (h.address static hstatic hdhcp hnil)]
    simp [hnil]

theorem validateDnsOverride_of_routingProblem
    (h : routingProblem fmt cfg = none) : validateDnsOverride fmt iface cfg = .ok () := by
  unfold routingProblem at h
  split at h
  · cases h
  · have hdns : dnsProblem fmt cfg = none := by simpa using h
    unfold dnsProblem at hdns
    rw [validateDnsOverride_eq_ok]
    split at hdns
    · next hnil =>
      rw [List.isEmpty_iff.1 hnil]
      simp
    · split at hdns
      · cases hdns
      · next hleased =>
        simp only [Option.map_eq_none_iff, List.find?_eq_none, Bool.not_eq_true,
          Option.isNone_eq_false_iff] at hdns
        exact ⟨fun _ ↦ by simpa using hleased, hdns⟩

theorem Admitted.validateEntry_iff
    (h : Admitted fmt iface cfg) : validateEntry fmt iface cfg = .ok () ↔ Applicable fmt cfg := by
  have hcan := can_of_validateCan h.can
  rw [validateEntry_eq_ok, validateKindBlocks_eq_ok]
  simp only [validateStatic_eq_ok]
  constructor
  · rintro ⟨-, hstatic, -, ⟨hvlan, hbridge, hwireguard, -⟩, -, -⟩
    exact ⟨hvlan, hbridge, hwireguard, fun static hs _ ↦ (hstatic static hs).1,
      fun static hs hdhcp ↦ (h.isIpOrCidr_iff hs hdhcp).1 (hstatic static hs).1,
      fun static hs ↦ (hstatic static hs).2⟩
  · intro ha
    refine ⟨checkIfaceName_eq_ok_iff.1 h.name, fun static hs ↦ ⟨?_, ha.servers static hs⟩,
      validateDnsOverride_of_routingProblem h.routing, ⟨ha.vlan, ha.bridge, ha.wireguard, hcan⟩,
      h.peers, h.can⟩
    cases hdhcp : cfg.dhcp with
    | true => exact ha.leased static hs hdhcp
    | false => exact (h.isIpOrCidr_iff hs hdhcp).2 (ha.fixed static hs hdhcp)

/-- The renderer accepts the admitted maps whose entries all are applicable. -/
theorem validateNetwork_of_admitted (fmt : Formats) (entries : NetworkMap)
    (h : mapViolations fmt entries entries.keys = []) :
    validateNetwork fmt entries = .ok () ↔
      ∀ iface cfg, entries.get iface = some cfg → Applicable fmt cfg := by
  rw [validateNetwork_eq_ok]
  constructor
  · rintro ⟨hentries, -⟩ iface cfg hget
    exact (admitted_of_mapViolations h hget).validateEntry_iff.1 (hentries iface cfg hget)
  · intro happlicable
    refine ⟨fun iface cfg hget ↦ ?_, topologyViolations_of_mapViolations h⟩
    exact (admitted_of_mapViolations h hget).validateEntry_iff.2 (happlicable iface cfg hget)

namespace Sample

/-- Thirty-two bytes in base64; the last digit carries four bits of them. -/
def key (digit : Char) : Text := List.replicate 42 digit ++ ['A', '=']

def formats : Formats where
  parseIpv6 t := if t = [':', ':'] then some 0 else none
  decodeBase64 t :=
    if t.length == 44 && (t.take 42).all base64Char && t.drop 42 == ['A', '='] then
      some (List.replicate 32 0)
    else none
  debug t := t.shown
  ipv6_chars h := by
    split at h
    · simp_all
    · cases h
  ipv6_colon h := by
    split at h
    · simp_all
    · cases h
  base64_chars {t} _ h := by
    split at h
    · next hkey =>
      simp only [Bool.and_eq_true, beq_iff_eq] at hkey
      intro c hc
      rw [← List.take_append_drop 42 t, List.mem_append, hkey.2] at hc
      rcases hc with hc | hc
      · have hdigit : (c.isAlphanum ∨ c = '+') ∨ c = '/' := by
          simpa [base64Char] using List.all_eq_true.1 hkey.1.2 c hc
        rcases hdigit with (h | h) | h <;> simp [h]
      · rcases List.mem_pair.1 hc with rfl | rfl
        · exact .inl rfl
        · simp
    · cases h

def wired : NetworkMap :=
  OrdMap.empty.insert "eth0".toList { static := some { address := "10.0.0.2/24".toList } }

def bare : NetworkMap := OrdMap.empty.insert "br0".toList { kind := .bridge }

theorem applicable_wired (iface : Text) (cfg : IfaceSettings) (h : wired.get iface = some cfg) :
    Applicable formats cfg := by
  have hmem := OrdMap.get_eq_some_iff.1 h
  obtain ⟨rfl, rfl⟩ := Prod.mk.injEq .. ▸ List.mem_singleton.1 hmem
  refine ⟨by simp, by simp, by simp, by simp, ?_, ?_⟩
  · intro static hs _
    cases hs
    exact ⟨by decide, by decide⟩
  · intro static hs
    cases hs
    simp

end Sample

theorem validateNetwork_wired : validateNetwork Sample.formats Sample.wired = .ok () :=
  (validateNetwork_of_admitted Sample.formats Sample.wired rfl).2 Sample.applicable_wired

/-- The schema admits a bridge without its block; the applier refuses it. -/
theorem not_forall_validateNetwork :
    ¬ ∀ (fmt : Formats) (entries : NetworkMap), mapViolations fmt entries entries.keys = [] →
      validateNetwork fmt entries = .ok () := by
  intro h
  have hok := h Sample.formats Sample.bare rfl
  have happlicable := (validateNetwork_eq_ok.1 hok).1 "br0".toList _ rfl
  have hbridge := (validateKindBlocks_eq_ok.1 (validateEntry_eq_ok.1 happlicable).2.2.2.1).2.1
  exact absurd (hbridge.2 rfl) (by simp)

end MicaCore.Network
