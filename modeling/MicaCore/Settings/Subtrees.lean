import MicaCore.Apps.Manifest
import MicaCore.Settings.Resolver

namespace MicaCore.Settings

open Data Network Fields
open Apps (Init isSystemdUnitName isSystemdTemplate isOpenrcScriptName)

def maxProjectNameLen : ℕ := 40

def lowerOrDigit (c : Char) : Bool := ('a' ≤ c && c ≤ 'z') || ('0' ≤ c && c ≤ '9')

def isProjectName (name : Text) : Bool :=
  !name.isEmpty && name.length ≤ maxProjectNameLen && name.head?.any lowerOrDigit &&
    name.all fun c ↦ lowerOrDigit c || c == '_' || c == '-'

structure ContainerSettings where
  enabled : Bool := false
  projects : OrdMap Text Text := .empty
  projectDirs : OrdMap Text Text := .empty
  deriving DecidableEq

structure PairedDevice where
  name : Text := []
  trusted : Bool := false
  blocked : Bool := false
  deriving DecidableEq

structure BluetoothSettings where
  enabled : Bool := true
  devices : OrdMap Text PairedDevice := .empty
  autoWhenOffline : Bool := true
  deriving DecidableEq

structure TimeSettings where
  servers : List Text := []
  timezone : Text := "UTC".toList
  deriving DecidableEq

structure UserUnit where
  kind : Init
  text : Text
  conf : Option Text := none
  enabled : Bool := false
  deriving DecidableEq

inductive WebMode where
  | network
  | local
  | off
  deriving DecidableEq

structure WebSettings where
  mode : WebMode := .network
  httpPort : ℕ := 8080
  httpsEnabled : Bool := false
  httpsPort : ℕ := 8443
  deriving DecidableEq

/-- The subtrees that have rules of their own, and the rest of the tree. -/
structure Subtrees (α : Type) where
  container : ContainerSettings := {}
  bluetooth : BluetoothSettings := {}
  time : TimeSettings := {}
  services : OrdMap Text UserUnit := .empty
  web : WebSettings := {}
  sshEnabled : Bool := false
  sshPort : ℕ := 22
  mqttEnabled : Bool := false
  mqttPort : ℕ := 1883
  other : α
  deriving DecidableEq

section Texts

def splitWhitespace (t : Text) : List Text := (t.splitOnP isWhitespace).filter (!·.isEmpty)

/-- A line ends at a line feed, with the carriage return before it. -/
def lines (t : Text) : List Text :=
  let parts := t.splitOn '\n'
  parts.dropLast.map (fun line ↦ (stripSuffix ['\r'] line).getD line) ++
  parts.getLast?.toList.filter (!·.isEmpty)

def isAsciiHexdigit (c : Char) : Bool := c.isDigit || ('a' ≤ c && c ≤ 'f') || ('A' ≤ c && c ≤ 'F')

end Texts

variable (fmt : Formats)

def validateContainerProjects (projects : OrdMap Text Text) : Except String Unit := do
  ensure (projects.size ≤ 32) s!"{projects.size} projects are declared; a device declares at most 32"
  let total ← projects.entries.foldlM (fun total e ↦ do
    ensure (isProjectName e.1) (s!"project name {fmt.debug e.1} is not 1 to 40 of a-z, 0-9, `_` and `-`, " ++
      "starting with a letter or a digit")
    ensure (!isBlank e.2) s!"project {fmt.debug e.1} is empty"
    ensure (byteLength e.2 ≤ 64 * 1024)
      s!"project {fmt.debug e.1} is {byteLength e.2} bytes; a project is at most 64 KiB"
    pure (total + byteLength e.2)) 0
  ensure (total ≤ 256 * 1024) s!"the projects are {total} bytes together; together they are at most 256 KiB"

def validateContainerProjectDirs (container : ContainerSettings) : Except String Unit :=
  forM container.projectDirs.entries fun e ↦ do
    ensure (container.projects.get e.1).isSome
      s!"projectDirs names {fmt.debug e.1}, which is not a declared project"
    ensure (['/'].isPrefixOf e.2 && byteLength e.2 ≤ 4096 && !e.2.contains (Char.ofNat 0))
      s!"the directory of project {fmt.debug e.1} is not an absolute path of at most 4096 bytes"

def isBluetoothAddress (value : Text) : Bool :=
  let octets := value.splitOn ':'
  octets.length == 6 && octets.all fun octet ↦ byteLength octet == 2 && octet.all isAsciiHexdigit

def validateBluetooth (settings : BluetoothSettings) : Except String Unit :=
  forM settings.devices.keys fun address ↦
    ensure (isBluetoothAddress address) (s!"{fmt.debug address} is not a Bluetooth address: six hexadecimal " ++
      "octets separated by colons, such as `AA:BB:CC:DD:EE:FF`")

def validateNtpServers (servers : List Text) : Except String Unit := do
  ensure (servers.length ≤ 8) ("at most 8 NTP servers are supported; timesyncd only ever polls one " ++
    "and steps through the rest on failure")
  forM servers.zipIdx fun e ↦ do
    ensure (!e.1.isEmpty) s!"NTP server {e.2 + 1} is empty"
    ensure (byteLength e.1 ≤ 253) s!"NTP server {fmt.debug e.1} is longer than 253 characters"
    ensure (e.1.all fun c ↦ c.isAlphanum || c == '.' || c == '-' || c == ':')
      (s!"NTP server {fmt.debug e.1} contains a character a host name or IP address cannot " ++
        "have; use ASCII letters, digits, '.', '-' or ':'")
    ensure (!(servers.take e.2).contains e.1) s!"NTP server {fmt.debug e.1} is listed twice"

def timezoneRules : String :=
  "a timezone is an IANA zone name such as \"UTC\" or \"Europe/Berlin\": " ++
    "'/'-separated components of ASCII letters, digits, '.', '_', '+' and '-'"

def validateTimezoneName (zone : Text) : Except String Unit := do
  ensure (!zone.isEmpty && byteLength zone ≤ 64) s!"{timezoneRules}, between 1 and 64 characters"
  forM (zone.splitOn '/') fun component ↦ do
    ensure (!component.isEmpty && component != ['.'] && component != ['.', '.']) timezoneRules
    ensure (component.all fun c ↦ c.isAlphanum || c == '.' || c == '_' || c == '+' || c == '-') timezoneRules

def validateTimeSettings (time : TimeSettings) : Except String Unit := do
  validateNtpServers fmt time.servers
  validateTimezoneName time.timezone

def openrcShebangs : List String :=
  ["#!/sbin/openrc-run", "#!/usr/sbin/openrc-run", "#! /sbin/openrc-run"]

def unitInstallValues (text : Text) (key : String) : List Text :=
  ((lines text).foldl (fun (state : Text × List Text) line ↦
    if ['['].isPrefixOf (line.dropWhile isWhitespace) then (line.filter (!isWhitespace ·), state.2)
    else if state.1 = "[Install]".toList then
      match (stripPrefix key.toList line).bind (stripPrefix ['=']) with
      | some value => (state.1, state.2 ++ splitWhitespace value)
      | none => state
    else state) ([], [])).2

def validateSystemdUnit (name : Text) (unit : UserUnit) : Except String Unit := do
  ensure (isSystemdUnitName name) (s!"{fmt.debug name} is not a unit file name: a name of a-z, A-Z, 0-9, " ++
    "`:`, `_`, `.`, `-` ending in .service, .socket, .timer, .path, .target or .mount, a template " ++
    "(name@.service) at most")
  ensure unit.conf.isNone s!"service {fmt.debug name} is a systemd unit; only an OpenRC script has a conf"
  ensure (!(unit.enabled && isSystemdTemplate name))
    s!"{fmt.debug name} is a template; a template is not enabled itself"
  ensure (!(unit.enabled && ["WantedBy", "RequiredBy", "Alias"].all fun key ↦
      (unitInstallValues unit.text key).isEmpty))
    (s!"{fmt.debug name} has no WantedBy=, RequiredBy= or Alias= in [Install]; " ++ "nothing would start it")

def validateOpenrcScript (name : Text) (unit : UserUnit) : Except String Unit := do
  ensure (isOpenrcScriptName name) (s!"{fmt.debug name} is not a script name: 1 to 64 of a-z, A-Z, 0-9, " ++
    "`.`, `_` and `-`, not starting with `.`")
  let first := (lines unit.text).head?.getD []
  ensure (openrcShebangs.any fun shebang ↦ shebang.toList.isPrefixOf first)
    (s!"service {fmt.debug name} is not an openrc-run script: " ++ "its first line is not #!/sbin/openrc-run")
  let size := byteLength (unit.conf.getD [])
  ensure (size ≤ 16 * 1024) s!"the conf of service {fmt.debug name} is {size} bytes; a conf is at most 16 KiB"

def validateUserUnit (name : Text) (unit : UserUnit) : Except String Unit := do
  ensure (!isBlank unit.text) s!"service {fmt.debug name} is empty"
  ensure (byteLength unit.text ≤ 64 * 1024)
    s!"service {fmt.debug name} is {byteLength unit.text} bytes; a service is at most 64 KiB"
  match unit.kind with
  | .systemd => validateSystemdUnit fmt name unit
  | .openrc => validateOpenrcScript fmt name unit

def validateServices (units : OrdMap Text UserUnit) : Except String Unit := do
  ensure (units.size ≤ 32) s!"{units.size} services are declared; a device declares at most 32"
  let total ← units.entries.foldlM (fun total e ↦ do
    validateUserUnit fmt e.1 e.2
    pure (total + (byteLength e.2.text + byteLength (e.2.conf.getD [])))) 0
  ensure (total ≤ 256 * 1024) s!"the services are {total} bytes together; together they are at most 256 KiB"

namespace Subtrees

variable {α : Type}

def claimed (r : Subtrees α) : List (String × ℕ) :=
  (if r.web.mode = .network then
    ("access.web.httpPort", r.web.httpPort) ::
      if r.web.httpsEnabled then [("access.web.httpsPort", r.web.httpsPort)] else []
  else []) ++
  (if r.sshEnabled then [("access.ssh.port", r.sshPort)] else []) ++
  if r.mqttEnabled then [("mqtt.listen.port", r.mqttPort)] else []

def unclaimed (earlier : List (String × ℕ)) (name : String) (port : ℕ) : Except String Unit :=
  match earlier.find? (·.2 = port) with
  | some other => .error s!"{name} {port} is already {other.1}"
  | none => .ok ()

def validateListeners (r : Subtrees α) : Except String Unit := do
  ensure (!(r.web.httpPort == 0 || r.web.httpsPort == 0)) "access.web ports must be between 1 and 65535"
  forM r.claimed.zipIdx fun e ↦ unclaimed (r.claimed.take e.2) e.1.1 e.1.2

def ifChanged {β : Type} [DecidableEq β] (old new : β) (check : Except String Unit) :
    Except String Unit :=
  if new ≠ old then check else .ok ()

def listening (r : Subtrees α) : WebSettings × Bool × ℕ × Bool × ℕ :=
  (r.web, r.sshEnabled, r.sshPort, r.mqttEnabled, r.mqttPort)

def tidyDirs (old new : ContainerSettings) : OrdMap Text Text :=
  (old.projects.keys.filter fun name ↦ (new.projects.get name).isNone).foldl .erase new.projectDirs

theorem tidyDirs_self (c : ContainerSettings) : tidyDirs c c = c.projectDirs := by
  have hnone : c.projects.keys.filter (fun name ↦ (c.projects.get name).isNone) = [] := by
    refine List.filter_eq_nil_iff.2 fun name hname ↦ ?_
    obtain ⟨text, htext⟩ := OrdMap.mem_keys.1 hname
    simp [htext]
  rw [tidyDirs, hnone, List.foldl_nil]

def rules : Rules (Subtrees α) where
  tidy old new :=
    { new with container := { new.container with projectDirs := tidyDirs old.container new.container } }
  before old new := do
    ifChanged old.bluetooth new.bluetooth (validateBluetooth fmt new.bluetooth)
    ifChanged old.container.projects new.container.projects (validateContainerProjects fmt new.container.projects)
    ifChanged (old.container.projects, old.container.projectDirs)
      (new.container.projects, new.container.projectDirs) (validateContainerProjectDirs fmt new.container)
    ifChanged old.time new.time (validateTimeSettings fmt new.time)
  after old new := do
    ifChanged old.services new.services (validateServices fmt new.services)
    ifChanged old.listening new.listening new.validateListeners
  tidy_self r := by rw [tidyDirs_self]

/-- The rules a write is held to, all of them at once. -/
structure Accepted (r : Subtrees α) : Prop where
  listeners : r.validateListeners = .ok ()
  projects : validateContainerProjects fmt r.container.projects = .ok ()
  projectDirs : validateContainerProjectDirs fmt r.container = .ok ()
  bluetooth : validateBluetooth fmt r.bluetooth = .ok ()
  services : validateServices fmt r.services = .ok ()
  time : validateTimeSettings fmt r.time = .ok ()

variable {fmt} {old new r : Subtrees α}

theorem of_ifChanged {β : Type} [DecidableEq β] {a b : β} {x y : Except String Unit} {u : Unit}
    (h : ifChanged a b y = .ok u) (hx : x = .ok ()) (hsame : b = a → y = x) : y = .ok () := by
  by_cases hb : b = a
  · rw [hsame hb, hx]
  · rwa [ifChanged, if_pos hb] at h

theorem validateListeners_congr (h : new.listening = old.listening) :
    new.validateListeners = old.validateListeners := by
  simp only [listening, Prod.mk.injEq] at h
  simp only [validateListeners, claimed, h]

theorem Accepted.write (h : old.Accepted fmt) (hbefore : (rules fmt).before old new = .ok ())
    (hafter : (rules fmt).after old new = .ok ()) : new.Accepted fmt := by
  simp only [rules, bind_eq_ok] at hbefore hafter
  obtain ⟨_, hbluetooth, _, hprojects, _, hdirs, htime⟩ := hbefore
  obtain ⟨_, hservices, hlisteners⟩ := hafter
  refine ⟨of_ifChanged hlisteners h.listeners validateListeners_congr,
    of_ifChanged hprojects h.projects (congrArg _), of_ifChanged hdirs h.projectDirs fun hsame ↦ ?_,
    of_ifChanged hbluetooth h.bluetooth (congrArg _),
    of_ifChanged hservices h.services (congrArg _),
    of_ifChanged htime h.time (congrArg _)⟩
  obtain ⟨hprojects, hdirs⟩ := Prod.mk.inj hsame
  simp only [validateContainerProjectDirs, hprojects, hdirs]

theorem accepted_default (other : α) : Accepted fmt { other } :=
  ⟨rfl, rfl, rfl, rfl, rfl, rfl⟩

theorem unclaimed_eq_ok {earlier : List (String × ℕ)} {name : String} {port : ℕ} {u : Unit} :
    unclaimed earlier name port = .ok u ↔ ∀ e ∈ earlier, e.2 ≠ port := by
  unfold unclaimed
  split
  · next other hfind =>
    have hport : other.2 = port := by simpa using List.find?_some hfind
    simp only [reduceCtorEq, false_iff, not_forall]
    exact ⟨other, List.mem_of_find?_eq_some hfind, not_not.2 hport⟩
  · next hfind => simpa using hfind

theorem Accepted.ports_nodup (h : r.Accepted fmt) : (r.claimed.map Prod.snd).Nodup := by
  have hclaims := h.listeners
  simp only [validateListeners, bind_eq_ok, forM_eq_ok, unclaimed_eq_ok] at hclaims
  obtain ⟨_, -, hclaims⟩ := hclaims
  refine List.pairwise_map.2 (List.pairwise_iff_getElem.2 fun i j hi hj hij ↦ ?_)
  refine hclaims (r.claimed[j], j) (List.mem_zipIdx_iff_getElem?.2 (List.getElem?_eq_getElem hj)) _ ?_
  exact List.mem_take_iff_getElem.2 ⟨i, by omega, rfl⟩

theorem Accepted.projectDirs_subset (h : r.Accepted fmt) :
    r.container.projectDirs.keys ⊆ r.container.projects.keys := by
  intro name hname
  obtain ⟨e, he, rfl⟩ := List.mem_map.1 hname
  have hdir := forM_eq_ok.1 h.projectDirs e he
  simp only [bind_eq_ok, ensure_eq_ok] at hdir
  exact OrdMap.mem_keys.2 (Option.isSome_iff_exists.1 hdir.choose_spec.1)

end Subtrees

theorem Tree.rules_of_set {ρ : Type} {serde : Serde ρ} {fmt : Formats} {rules : Rules ρ}
    {t t' : Tree ρ}
    {path : Text} {value : Json} (h : t.set serde fmt rules path value = .ok t') :
    rules.before t.rest t'.rest = .ok () ∧ rules.after t.rest t'.rest = .ok () := by
  simp only [set, bind_eq_ok, pure_eq_ok, checkWrite, refuse_eq_ok] at h
  obtain ⟨root, -, candidate, -, _, ⟨_, -, _, hbefore, _, -, hafter⟩, rfl⟩ := h
  exact ⟨hbefore, hafter⟩

theorem Tree.Sets.accepted {α : Type} {serde : Serde (Subtrees α)}
    {fmt : Formats} {t : Tree (Subtrees α)}
    {ts : List (Tree (Subtrees α))} (h : Tree.Sets serde fmt (Subtrees.rules fmt) t ts)
    (ht : t.rest.Accepted fmt) : ∀ u ∈ t :: ts, u.rest.Accepted fmt := by
  induction h with
  | nil => simpa using ht
  | cons path value hset _ ih =>
    obtain ⟨hbefore, hafter⟩ := Tree.rules_of_set hset
    exact List.forall_mem_cons.2 ⟨ht, ih (ht.write hbefore hafter)⟩

/-- After any successful writes every rule holds: no port is shared, and no project directory stray. -/
theorem accepted_of_sets {α : Type} (fmt : Formats) (serde : Serde (Subtrees α)) (other : α)
    (ts : List (Tree (Subtrees α)))
    (h : Tree.Sets serde fmt (Subtrees.rules fmt) (.default { other }) ts) :
    ∀ t ∈ Tree.default ({ other } : Subtrees α) :: ts, t.rest.Accepted fmt ∧
      (t.rest.claimed.map Prod.snd).Nodup ∧
        t.rest.container.projectDirs.keys ⊆ t.rest.container.projects.keys := by
  intro t ht
  have haccepted := h.accepted (Subtrees.accepted_default other) t ht
  exact ⟨haccepted, haccepted.ports_nodup, haccepted.projectDirs_subset⟩

namespace Codec

def mode : Codec WebMode :=
  named (fun | .network => "network" | .local => "local" | .off => "off") [.network, .local, .off]
    fun m ↦ by cases m <;> decide

def init : Codec Init :=
  named (fun | .systemd => "systemd" | .openrc => "openrc") [.systemd, .openrc]
    fun i ↦ by cases i <;> decide

def device : Codec PairedDevice :=
  object ["name", "trusted", "blocked"]
    (fun d ↦ field "blocked" (bool.write d.blocked) ++ field "name" (text.write d.name) ++
      field "trusted" (bool.write d.trusted))
    (fun fs ↦ return ⟨← defaulted text "name" [] fs, ← defaulted bool "trusted" false fs,
      ← defaulted bool "blocked" false fs⟩)
    fun d ↦ by simp [defaulted]

def bluetooth : Codec BluetoothSettings :=
  object ["enabled", "devices", "provisioning", "discoverable", "alias", "pin"]
    (fun b ↦ skipDefault device.map "devices" .empty b.devices ++
      field "enabled" (bool.write b.enabled) ++
      field "provisioning" ((bool.within "autoWhenOffline" true).write b.autoWhenOffline))
    (fun fs ↦ return ⟨← defaulted bool "enabled" true fs, ← defaulted device.map "devices" .empty fs,
      ← defaulted (bool.within "autoWhenOffline" true) "provisioning" true fs⟩)
    fun b ↦ by simp [defaulted]

def container : Codec ContainerSettings :=
  object ["enabled", "projects", "projectDirs"]
    (fun c ↦ field "enabled" (bool.write c.enabled) ++
      skipDefault text.map "projectDirs" .empty c.projectDirs ++
      skipDefault text.map "projects" .empty c.projects)
    (fun fs ↦ return ⟨← defaulted bool "enabled" false fs, ← defaulted text.map "projects" .empty fs,
      ← defaulted text.map "projectDirs" .empty fs⟩)
    fun c ↦ by simp [defaulted]

def time : Codec TimeSettings :=
  object ["ntp", "timezone"]
    (fun t ↦ field "ntp" ((text.list.within "servers" []).write t.servers) ++
      field "timezone" (text.write t.timezone))
    (fun fs ↦ return ⟨← defaulted (text.list.within "servers" []) "ntp" [] fs,
      ← defaulted text "timezone" "UTC".toList fs⟩)
    fun t ↦ by simp [defaulted]

def unit : Codec UserUnit :=
  object ["kind", "text", "conf", "enabled"]
    (fun u ↦ skipNone text "conf" u.conf ++ field "enabled" (bool.write u.enabled) ++
      field "kind" (init.write u.kind) ++ field "text" (text.write u.text))
    (fun fs ↦ return ⟨← required init "kind" fs, ← required text "text" fs,
      ← mayHave text "conf" fs, ← defaulted bool "enabled" false fs⟩)
    fun u ↦ by simp [required, mayHave, defaulted]

def web : Codec WebSettings :=
  object ["mode", "httpPort", "httpsEnabled", "httpsPort"]
    (fun w ↦ field "httpPort" (nat.write w.httpPort) ++
      field "httpsEnabled" (bool.write w.httpsEnabled) ++
      field "httpsPort" (nat.write w.httpsPort) ++ field "mode" (mode.write w.mode))
    (fun fs ↦ return ⟨← defaulted mode "mode" .network fs, ← defaulted nat "httpPort" 8080 fs,
      ← defaulted bool "httpsEnabled" false fs, ← defaulted nat "httpsPort" 8443 fs⟩)
    fun w ↦ by simp [defaulted]

/-- A server that may be off, and its port. -/
def server (name : String) (port : Codec ℕ) (default : ℕ) (h : "enabled" ≠ name) :
    Codec (Bool × ℕ) :=
  object ["enabled", name]
    (fun s ↦ field "enabled" (bool.write s.1) ++ field name (port.write s.2))
    (fun fs ↦ return (← defaulted bool "enabled" false fs, ← defaulted port name default fs))
    fun s ↦ by simp [defaulted, h]

def ssh : Codec (Bool × ℕ) := server "port" nat 22 (by decide)

def mqtt : Codec (Bool × ℕ) := server "listen" (nat.within "port" 1883) 1883 (by decide)

def access : Codec (WebSettings × Bool × ℕ) :=
  object ["ssh", "web"]
    (fun a ↦ field "ssh" (ssh.write a.2) ++ field "web" (web.write a.1))
    (fun fs ↦ return (← defaulted web "web" {} fs, ← defaulted ssh "ssh" (false, 22) fs))
    fun a ↦ by simp [defaulted]

def services : Codec (OrdMap Text UserUnit) :=
  object ["units"] (fun units ↦ skipDefault unit.map "units" .empty units)
    (defaulted unit.map "units" .empty) fun units ↦ by simp [defaulted]

end Codec

namespace Sample

open Codec

def subtreesSerde : Serde (Subtrees Unit) where
  iface := Codec.iface
  dns := Codec.dns
  writeRest r := field "access" (access.write (r.web, r.sshEnabled, r.sshPort)) ++
    field "bluetooth" (bluetooth.write r.bluetooth) ++
    field "container" (container.write r.container) ++
    field "mqtt" (mqtt.write (r.mqttEnabled, r.mqttPort)) ++
    field "services" (services.write r.services) ++ field "time" (time.write r.time)
  readRest fs := do
    let container ← defaulted container "container" {} fs
    let bluetooth ← defaulted bluetooth "bluetooth" {} fs
    let time ← defaulted time "time" {} fs
    let services ← defaulted services "services" .empty fs
    let access ← defaulted access "access" ({}, false, 22) fs
    let mqtt ← defaulted mqtt "mqtt" (false, 1883) fs
    if only ["access", "bluetooth", "container", "mqtt", "services", "time"] fs then
      some ⟨container, bluetooth, time, services, access.1, access.2.1, access.2.2, mqtt.1, mqtt.2, ()⟩
    else none
  readOther _ := none
  message _ := []
  read_write r := by simp [defaulted]
  sorted r := by simp [field]; decide
  others r := by simp [field, ownFields]

def broker (container : ContainerSettings) : Tree (Subtrees Unit) :=
  .default { container, mqttEnabled := true, mqttPort := 1884, other := () }

def project : ContainerSettings where
  projects := OrdMap.empty.insert "web".toList "services: web".toList
  projectDirs := OrdMap.empty.insert "web".toList "/mica/web".toList

/-- The directory of a project goes with the project. -/
theorem sets_project : Tree.Sets subtreesSerde Network.Sample.formats
    (Subtrees.rules Network.Sample.formats) (.default { other := () })
    [broker {}, broker project, broker {}] :=
  .cons "mqtt".toList (.obj [("enabled".toList, .bool true),
      ("listen".toList, .obj [("port".toList, .num "1884".toList)])]) rfl <|
    .cons "container".toList (container.write project) rfl <|
      .cons "container.projects".toList (.obj []) rfl (.nil _)

end Sample

theorem accepted_of_sets_project : (Sample.broker Sample.project).rest.claimed.length = 2 ∧
    ((Sample.broker Sample.project).rest.claimed.map Prod.snd).Nodup ∧
    (Sample.broker {}).rest.container.projectDirs.keys ⊆
      (Sample.broker {}).rest.container.projects.keys :=
  ⟨rfl, (accepted_of_sets _ _ () _ Sample.sets_project _ (by simp)).2.1,
    (accepted_of_sets _ _ () _ Sample.sets_project _ (by simp)).2.2⟩

end MicaCore.Settings
