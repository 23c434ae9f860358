import MicaCore.Settings.NetworkJson

namespace MicaCore.Settings

open Data Network

def maxGlobalDnsServers : ℕ := 3
def maxStaticRecords : ℕ := 100
def maxRecordCommentChars : ℕ := 64
def maxRecordIdLen : ℕ := 32

def isHostLabel (label : Text) : Bool :=
  !label.isEmpty && byteLength label ≤ 63 && label.head? != some '-' &&
    label.getLast? != some '-' &&
    label.all fun c ↦ c.isAlphanum || c == '-'

def isHostName (name : Text) : Bool :=
  !name.isEmpty && byteLength name ≤ 253 && (name.splitOn '.').all isHostLabel

def lowercase (t : Text) : Text := t.map Char.toLower

variable (fmt : Formats)

def ownAddresses (network : NetworkMap) : List IpAddr :=
  network.values.filterMap fun cfg ↦ cfg.static.bind fun static ↦
    (static.address.splitOn '/').head?.bind (parseIp fmt)

def isItself (addr : BitVec 32) : Bool := addr >>> 24 == 127#32 || addr == 0#32

def validateServers (own : List IpAddr) : List (BitVec 32) → List Text → Except String Unit
  | _, [] => .ok ()
  | seen, server :: servers => do
    let addr ← orError s!"dns.global server {fmt.debug server} is not an IPv4 address"
      (parseIpv4 server)
    ensure (!isItself addr)
      s!"dns.global server {server.shown} is this device itself, not a server it can ask"
    ensure (!own.contains (.v4 addr))
      s!"dns.global server {server.shown} is an address of this device's own interfaces"
    ensure (!seen.contains addr) s!"dns.global lists server {server.shown} twice"
    validateServers own (addr :: seen) servers

def validateRecord (hostname : Text) (names ids : List Text) (record : StaticRecord) :
    Except String Unit := do
  ensure (!record.id.isEmpty && byteLength record.id ≤ maxRecordIdLen &&
      record.id.all fun c ↦ c.isAlphanum || c == '-' || c == '_')
    (s!"dns.staticRecords id {fmt.debug record.id} is not 1 to {maxRecordIdLen} letters, " ++
      "digits, `-` or `_`")
  ensure (!ids.contains record.id) s!"dns.staticRecords lists id {record.id.shown} twice"
  let name := lowercase record.hostname
  let shown := fmt.debug record.hostname
  ensure (isHostName name)
    s!"dns.staticRecords name {shown} is not a host name; a wildcard is not one either"
  ensure (!(name == "localhost".toList || ".localhost".toList.isSuffixOf name))
    s!"dns.staticRecords name {shown} is localhost, which the device always resolves itself"
  ensure (name != lowercase hostname)
    s!"dns.staticRecords name {shown} is this device's own hostname"
  ensure (parseIpv4 record.address).isSome
    (s!"dns.staticRecords address {fmt.debug record.address} for {record.hostname.shown} " ++
      "is not an IPv4 address")
  ensure (record.comment.all fun comment ↦
      comment.length ≤ maxRecordCommentChars && !comment.any isControl)
    (s!"dns.staticRecords comment for {record.hostname.shown} is longer than " ++
      s!"{maxRecordCommentChars} characters or carries a control character")
  ensure (!names.contains name) s!"dns.staticRecords lists {record.hostname.shown} twice"

def validateRecords (hostname : Text) : List Text → List Text → List StaticRecord →
    Except String Unit
  | _, _, [] => .ok ()
  | names, ids, record :: records => do
    validateRecord fmt hostname names ids record
    validateRecords hostname (lowercase record.hostname :: names) (record.id :: ids) records

def validateDns (dns : DnsSettings) (hostname : Text) (network : NetworkMap) :
    Except String Unit := do
  ensure (dns.global.servers.length ≤ maxGlobalDnsServers)
    s!"dns.global holds more than {maxGlobalDnsServers} servers"
  ensure (!(dns.global.enabled && dns.global.servers.isEmpty))
    "dns.global is switched on with no server"
  validateServers fmt (ownAddresses fmt network) [] dns.global.servers
  ensure (dns.staticRecords.length ≤ maxStaticRecords)
    s!"dns.staticRecords holds more than {maxStaticRecords} records"
  validateRecords fmt hostname [] [] dns.staticRecords

variable {fmt}

def Foreign (own : List IpAddr) (servers : List Text) : Prop :=
  ∀ server ∈ servers, ∀ addr, parseIpv4 server = some addr → .v4 addr ∉ own

theorem validateServers_eq_ok {own : List IpAddr} {seen : List (BitVec 32)} {servers : List Text} :
    validateServers fmt own seen servers = .ok () ↔
      validateServers fmt [] seen servers = .ok () ∧ Foreign own servers := by
  induction servers generalizing seen with
  | nil => simp [validateServers, Foreign]
  | cons server servers ih =>
    simp only [validateServers, bind_eq_ok, orError_eq_ok, ensure_eq_ok, ih, exists_const,
      List.contains_nil, Bool.not_false, Foreign, List.forall_mem_cons]
    constructor
    · rintro ⟨addr, haddr, hself, hown, hseen, hrest, hforeign⟩
      refine ⟨⟨addr, haddr, hself, by simp, hseen, hrest⟩, fun addr' h ↦ ?_, hforeign⟩
      obtain rfl : addr = addr' := Option.some.inj (haddr.symm.trans h)
      simpa using hown
    · rintro ⟨⟨addr, haddr, hself, -, hseen, hrest⟩, hserver, hforeign⟩
      exact ⟨addr, haddr, hself, by simpa using hserver addr haddr, hseen, hrest, hforeign⟩

structure SoundDns (fmt : Formats) (dns : DnsSettings) (hostname : Text) : Prop where
  few : dns.global.servers.length ≤ maxGlobalDnsServers
  served : (!(dns.global.enabled && dns.global.servers.isEmpty)) = true
  servers : validateServers fmt [] [] dns.global.servers = .ok ()
  records : dns.staticRecords.length ≤ maxStaticRecords ∧
    validateRecords fmt hostname [] [] dns.staticRecords = .ok ()

theorem validateDns_eq_ok {dns : DnsSettings} {hostname : Text} {network : NetworkMap} :
    validateDns fmt dns hostname network = .ok () ↔
      SoundDns fmt dns hostname ∧ Foreign (ownAddresses fmt network) dns.global.servers := by
  have hservers := @validateServers_eq_ok fmt (ownAddresses fmt network) [] dns.global.servers
  simp only [validateDns, bind_eq_ok, ensure_eq_ok, exists_const, decide_eq_true_eq, hservers]
  constructor
  · rintro ⟨hfew, hserved, ⟨hservers, hforeign⟩, hrecords⟩
    exact ⟨⟨hfew, hserved, hservers, hrecords⟩, hforeign⟩
  · rintro ⟨⟨hfew, hserved, hservers, hrecords⟩, hforeign⟩
    exact ⟨hfew, hserved, ⟨hservers, hforeign⟩, hrecords⟩

theorem SoundDns.of_hostname {dns : DnsSettings} {hostname hostname' : Text} (h : SoundDns fmt dns hostname)
    (heq : hostname' = hostname ∨ dns.staticRecords = []) : SoundDns fmt dns hostname' := by
  rcases heq with rfl | hnone
  · exact h
  · exact ⟨h.few, h.served, h.servers, by simp [hnone, validateRecords, maxStaticRecords]⟩

end MicaCore.Settings
