import MicaCore.Data.OrdMap
import MicaCore.Deploy.Version
import Mathlib.Data.Char

namespace MicaCore.Apps

open Data

def asciiUpper (c : Char) : Bool := 'A' ≤ c && c ≤ 'Z'

def contains (p t : Text) : Bool := t.tails.any p.isPrefixOf

def join (sep : Text) (ts : List Text) : Text := sep.intercalate ts

inductive Init where
  | systemd
  | openrc
  deriving DecidableEq

def Init.asStr : Init → Text
  | systemd => "systemd".toList
  | openrc => "openrc".toList

inductive Rule where
  | manifest
  | arch
  | tooMany
  | tooLarge
  | init
  | privileges
  | servicesNeedApp
  | unitsNeedRoot
  | capability
  | device
  | mdns
  | pathOutside
  | linkOutside
  | setuid
  | specialFile
  | unitTaken
  | unitShippedByRoot
  deriving DecidableEq

structure Problem where
  rule : Rule
  detail : Text
  deriving DecidableEq

structure Libraries where
  debug : Text → Text
  urlScheme : Text → Option Text

namespace Mdns

def maxServices : ℕ := 8
def maxTxtKeys : ℕ := 16
def maxTxtItem : ℕ := 255
def maxTxtBytes : ℕ := 1300
def maxInstance : ℕ := 63
def micaType : Text := "_mica._tcp".toList

structure Entry where
  «instance» : Option Text := none
  kind : Text
  port : ℕ
  txt : OrdMap Text Text := .empty
  service : Option Text := none
  deriving DecidableEq

def isType (kind : Text) : Bool :=
  match ((stripSuffix "._tcp".toList kind).or (stripSuffix "._udp".toList kind)).bind
      (stripPrefix "_".toList) with
  | none => false
  | some name =>
    (1 ≤ byteLength name && byteLength name ≤ 15)
      && name.all (fun c ↦ asciiLower c || asciiDigit c || c == '-')
      && name.any asciiLower
      && !"-".toList.isPrefixOf name
      && !"-".toList.isSuffixOf name
      && !contains "--".toList name

def checkTxt (lib : Libraries) : List (Text × Text) → ℕ → Except Text ℕ
  | [], bytes => .ok bytes
  | (key, value) :: rest, bytes => do
    ensure (!key.isEmpty && key.all fun c ↦ 0x20 ≤ c.toNat && c.toNat < 0x7f && c != '=')
      ("txt key ".toList ++ lib.debug key ++ " is not printable ASCII without =".toList)
    let item := byteLength key + 1 + byteLength value
    ensure (item ≤ maxTxtItem) ("txt ".toList ++ key ++ " is above 255 bytes".toList)
    checkTxt lib rest (bytes + (item + 1))

def check (lib : Libraries) (entry : Entry) : Except Text Unit := do
  match entry.instance with
  | none => pure ()
  | some name =>
    ensure (!(name.isEmpty || maxInstance < byteLength name || name.any fun c ↦ c == '.' || isControl c))
      ("instance ".toList ++ lib.debug name ++
        " is not 1 to 63 bytes without a dot or a control character".toList)
  ensure (isType entry.kind)
    ("type ".toList ++ lib.debug entry.kind ++ " is not _<name>._tcp or _<name>._udp".toList)
  ensure (entry.kind != micaType) ("type ".toList ++ micaType ++ " is the device's own".toList)
  ensure (entry.port != 0) "port is 1 to 65535".toList
  ensure (entry.txt.size ≤ maxTxtKeys) "txt has more than 16 keys".toList
  let bytes ← checkTxt lib entry.txt.entries 0
  ensure (bytes ≤ maxTxtBytes) "txt is above 1300 bytes".toList

def checkAll (lib : Libraries) (entries : List Entry) : Except Text Unit := do
  ensure (entries.length ≤ maxServices) "more than 8 services".toList
  forM entries (check lib)

end Mdns

inductive RunAs where
  | app
  | root
  deriving DecidableEq

structure Privileges where
  user : RunAs := .app
  capabilities : List Text := []
  devices : List Text := []
  deriving DecidableEq

structure Service where
  name : Text
  exec : List Text
  enable : Bool := false
  deriving DecidableEq

structure UnitEntry where
  systemd : Option Text := none
  openrc : Option Text := none
  enable : Bool := false
  deriving DecidableEq

def UnitEntry.side (unit : UnitEntry) : Init → Option Text
  | .systemd => unit.systemd
  | .openrc => unit.openrc

structure UpdateSpec where
  url : Text
  auto : Bool := false
  deriving DecidableEq

inductive SeedPolicy where
  | followImage
  | once
  deriving DecidableEq

structure Manifest where
  schemaVersion : ℕ
  name : Text
  version : Text
  arch : List Text
  description : Text := []
  units : List UnitEntry := []
  env : OrdMap Text Text := .empty
  firstRun : Option Text := none
  update : Option UpdateSpec := none
  seedPolicy : SeedPolicy := .followImage
  privileges : Privileges := {}
  services : List Service := []
  mdns : List Mdns.Entry := []
  deriving DecidableEq

def serviceUnit (name : Text) : Init → Text
  | .systemd => name ++ ".service".toList
  | .openrc => name

/-- The unit of the service or unit a name stands for in a manifest. -/
def unitOf (manifest : Manifest) (name : Text) (init : Init) : Option Text :=
  if manifest.services.any fun service ↦ service.name == name then some (serviceUnit name init)
  else
    (manifest.units.find? fun unit ↦ unit.systemd == some name || unit.openrc == some name).bind
      fun unit ↦ unit.side init

def expandFrom (vars : OrdMap Text Text) : Option Text → Text → Option Text
  | none, [] => some []
  | some _, [] => none
  | none, '$' :: '{' :: rest => expandFrom vars (some []) rest
  | none, c :: rest => if c = '$' then none else (expandFrom vars none rest).map (c :: ·)
  | some name, c :: rest =>
    if c = '}' then (vars.get name).bind fun value ↦ (expandFrom vars none rest).map (value ++ ·)
    else expandFrom vars (some (name ++ [c])) rest

/-- An argument with each `${VAR}` replaced; none for an unknown variable or a stray `$`. -/
def expand (arg : Text) (vars : OrdMap Text Text) : Option Text := expandFrom vars none arg

def isBundleFile (path : Text) : Bool :=
  (stripPrefix "files/".toList path).any fun rest ↦
    !rest.isEmpty && (rest.splitOn '/').all fun part ↦
      !part.isEmpty && part != ".".toList && part != "..".toList

structure DeviceClass where
  drivers : List Text
  group : Text
  deriving DecidableEq

def deviceClass (device : Text) : Option DeviceClass :=
  let starts (p : String) : Bool := p.toList.isPrefixOf device
  if starts "/dev/serial/by-id/" || starts "/dev/serial/by-path/" then
    some ⟨["ttyUSB".toList, "ttyACM".toList], "dialout".toList⟩
  else if starts "/dev/gpiochip" then some ⟨["gpiochip".toList], "gpio".toList⟩
  else if starts "/dev/i2c-" then some ⟨["i2c".toList], "i2c".toList⟩
  else if starts "/dev/spidev" then some ⟨["spi".toList], "spi".toList⟩
  else (stripPrefix "/dev/tty".toList device).bind fun rest ↦
    let name := rest.takeWhile asciiAlphabetic
    let number := rest.dropWhile asciiAlphabetic
    if !name.isEmpty && !number.isEmpty && (number == ['*'] || number.all asciiDigit) then
      some ⟨["tty".toList ++ name], "dialout".toList⟩
    else none

def isDevice (path : Text) : Bool :=
  let node := (stripSuffix ['*'] path).getD path
  (node == path || (deviceClass path).isSome) &&
    (stripPrefix "/dev/".toList node).any fun rest ↦
      (rest.splitOn '/').all fun part ↦
        !part.isEmpty && part != ".".toList && part != "..".toList &&
          part.all fun c ↦ asciiAlphanumeric c || "._-:".toList.contains c

def maxUnits : ℕ := 16
def maxEnv : ℕ := 64
def maxVersionLen : ℕ := 64
def maxNameLen : ℕ := 32
def maxAppNameLen : ℕ := 23
def maxServices : ℕ := 16
def maxDevices : ℕ := 16
def maxArgs : ℕ := 64
def maxArgLen : ℕ := 4096

def arches : List Text := ["amd64".toList, "arm64".toList, "armhf".toList, "all".toList]

def appVariables : List Text :=
  ["APP_NAME".toList, "APP_VERSION".toList, "APP_DIR".toList, "APP_DATA".toList]

def capabilities : List Text :=
  ["CAP_CHOWN", "CAP_DAC_OVERRIDE", "CAP_DAC_READ_SEARCH", "CAP_FOWNER", "CAP_FSETID", "CAP_KILL",
    "CAP_SETGID", "CAP_SETUID", "CAP_SETPCAP", "CAP_LINUX_IMMUTABLE", "CAP_NET_BIND_SERVICE",
    "CAP_NET_BROADCAST", "CAP_NET_ADMIN", "CAP_NET_RAW", "CAP_IPC_LOCK", "CAP_IPC_OWNER",
    "CAP_SYS_MODULE", "CAP_SYS_RAWIO", "CAP_SYS_CHROOT", "CAP_SYS_PTRACE", "CAP_SYS_PACCT",
    "CAP_SYS_ADMIN", "CAP_SYS_BOOT", "CAP_SYS_NICE", "CAP_SYS_RESOURCE", "CAP_SYS_TIME",
    "CAP_SYS_TTY_CONFIG", "CAP_MKNOD", "CAP_LEASE", "CAP_AUDIT_WRITE", "CAP_AUDIT_CONTROL",
    "CAP_SETFCAP", "CAP_MAC_OVERRIDE", "CAP_MAC_ADMIN", "CAP_SYSLOG", "CAP_WAKE_ALARM",
    "CAP_BLOCK_SUSPEND", "CAP_AUDIT_READ", "CAP_PERFMON", "CAP_BPF",
    "CAP_CHECKPOINT_RESTORE"].map String.toList

def allowedCapabilities : List Text :=
  ["CAP_NET_ADMIN", "CAP_NET_RAW", "CAP_NET_BIND_SERVICE", "CAP_NET_BROADCAST", "CAP_IPC_LOCK",
    "CAP_WAKE_ALARM", "CAP_BLOCK_SUSPEND"].map String.toList

def nameChar (c : Char) : Bool := asciiLower c || asciiDigit c || c == '-'

def isServiceName (name : Text) : Bool :=
  !name.isEmpty && byteLength name ≤ maxNameLen && !(['-'] : Text).isPrefixOf name &&
    name.all nameChar

def isAppName (name : Text) : Bool := byteLength name ≤ maxAppNameLen && isServiceName name

def isVersion (version : Text) : Bool :=
  byteLength version ≤ maxVersionLen && !version.contains '/' &&
    (Deploy.DebianVersion.compareVersions version.shown version.shown).isSome

def systemdSuffixes : List Text :=
  [".service", ".socket", ".timer", ".path", ".target", ".mount"].map String.toList

def isSystemdUnitName (name : Text) : Bool :=
  match systemdSuffixes.findSome? fun suffix ↦ stripSuffix suffix name with
  | none => false
  | some stem =>
    let stem := (stripSuffix ['@'] stem).getD stem
    byteLength name ≤ 255 && !stem.isEmpty &&
      stem.all fun c ↦ asciiAlphanumeric c || ":_.-\\".toList.contains c

def isSystemdTemplate (name : Text) : Bool :=
  (rsplitOnce '.' name).any fun (stem, _) ↦ ['@'].isSuffixOf stem

def isOpenrcScriptName (name : Text) : Bool :=
  !name.isEmpty && byteLength name ≤ 64 && !(['.'] : Text).isPrefixOf name &&
    name.all fun c ↦ asciiAlphanumeric c || "._-".toList.contains c

def fails (broken : Bool) (rule : Rule) (detail : Text) : List Problem :=
  if broken then [⟨rule, detail⟩] else []

def quoting (c : Char) : Bool := c == '"' || c == '\'' || c == '\\' || c == '`'

section Check

variable (lib : Libraries)

def checkUnit (unit : UnitEntry) : List Problem :=
  fails (unit.systemd.isNone && unit.openrc.isNone) .manifest
      "a unit names neither a systemd nor an openrc file".toList ++
    (unit.systemd.elim [] fun name ↦
      fails (!isSystemdUnitName name || isSystemdTemplate name) .manifest
        (lib.debug name ++ " is not a systemd unit name".toList)) ++
    unit.openrc.elim [] fun name ↦
      fails (!isOpenrcScriptName name) .manifest
        (lib.debug name ++ " is not an OpenRC script name".toList)

def envKeyOk (key : Text) : Bool :=
  (key.head?.any fun c ↦ asciiUpper c || c == '_') &&
    (key.all fun c ↦ asciiUpper c || asciiDigit c || c == '_') && !"APP_".toList.isPrefixOf key

def checkEnv (key value : Text) : List Problem :=
  fails (!envKeyOk key) .manifest
      ("env ".toList ++ lib.debug key ++ " is not an upper-case name outside APP_".toList) ++
    fails (value.any fun c ↦ quoting c || c == '$' || isControl c) .manifest
      ("env ".toList ++ key ++
        " carries a quote, a backslash, a $, a ` or a control character".toList)

def checkCapability (cap : Text) : List Problem :=
  if !capabilities.contains cap then
    [⟨.capability, lib.debug cap ++ " is not a capability".toList⟩]
  else fails (!allowedCapabilities.contains cap) .capability
    (cap ++ " reaches past the app; an app that needs it runs as root".toList)

def checkArg (vars : OrdMap Text Text) (service arg : Text) : List Problem :=
  let plain := byteLength arg ≤ maxArgLen && !arg.any fun c ↦ quoting c || isControl c
  fails (!plain || (expand arg vars).isNone) .manifest
    ("service ".toList ++ service ++ " argument ".toList ++ lib.debug arg ++
      (" carries a quote, a backslash, a ` or a control character, or a $ that is not " ++
        "$\x7bVAR\x7d of APP_* or env").toList)

def checkExec (vars : OrdMap Text Text) (service : Service) : List Problem :=
  (match service.exec.head? with
    | none => [⟨.manifest, "service ".toList ++ service.name ++ " runs nothing".toList⟩]
    | some file =>
      fails (!isBundleFile file) .manifest
        ("service ".toList ++ service.name ++ " runs ".toList ++ lib.debug file ++
          ", which is not a file in files/".toList)) ++
    fails (maxArgs < service.exec.length) .tooMany
      ("service ".toList ++ service.name ++ " has more than 64 arguments".toList) ++
    service.exec.flatMap (checkArg lib vars service.name)

def checkServices (vars : OrdMap Text Text) : List Text → List Service → List Problem
  | _, [] => []
  | seen, service :: rest =>
    let named :=
      if !isServiceName service.name then
        [⟨.manifest, "service ".toList ++ lib.debug service.name ++
          " is not 1 to 32 of a-z, 0-9 and -".toList⟩]
      else fails (seen.contains service.name) .manifest
        ("service ".toList ++ service.name ++ " is there twice".toList)
    let seen := if isServiceName service.name then service.name :: seen else seen
    named ++ checkExec lib vars service ++ checkServices vars seen rest

def variableNames (manifest : Manifest) : OrdMap Text Text :=
  .ofList ((appVariables ++ manifest.env.keys).map fun name ↦ (name, []))

def checkPrivileges (manifest : Manifest) : List Problem :=
  let privileges := manifest.privileges
  (match privileges.user with
    | .root =>
      fails (!privileges.capabilities.isEmpty || !privileges.devices.isEmpty) .privileges
          ("capabilities and devices are for an app that runs as its own user; " ++
            "root has them all").toList ++
        fails (!manifest.services.isEmpty) .servicesNeedApp
          ("services are for an app that runs as its own user; " ++
            "a root app ships units/").toList
    | .app =>
      fails (!manifest.units.isEmpty) .unitsNeedRoot
        ("units are for an app that runs as root; " ++
          "an app that runs as its own user declares services").toList) ++
    privileges.capabilities.flatMap (checkCapability lib) ++
    fails (maxDevices < privileges.devices.length) .tooMany "more than 16 devices".toList ++
    (privileges.devices.flatMap fun device ↦
      fails (!isDevice device) .device
        (lib.debug device ++ (" is not a device under /dev, or a pattern of a serial port, " ++
          "a GPIO chip, an I2C or an SPI bus").toList)) ++
    fails (maxServices < manifest.services.length) .tooMany "more than 16 services".toList ++
    checkServices lib (variableNames manifest) [] manifest.services

def checkMdns (manifest : Manifest) : List Problem :=
  (match Mdns.checkAll lib manifest.mdns with
    | .ok () => []
    | .error err => [⟨.mdns, err⟩]) ++
    manifest.mdns.flatMap fun entry ↦ entry.service.elim [] fun name ↦
      fails ((unitOf manifest name .systemd).isNone && (unitOf manifest name .openrc).isNone) .mdns
        ("mdns names ".toList ++ lib.debug name ++
          ", which is none of the app's services or units".toList)

def checkFields (manifest : Manifest) (init : Init) (arch : Text) : List Problem :=
  fails (manifest.schemaVersion != 1) .manifest
      ("schemaVersion ".toList ++ numeral manifest.schemaVersion ++ " is not 1".toList) ++
    fails (!isAppName manifest.name) .manifest
      ("name ".toList ++ lib.debug manifest.name ++ " is not 1 to 23 of a-z, 0-9 and -".toList) ++
    fails (!isVersion manifest.version) .manifest
      ("version ".toList ++ lib.debug manifest.version ++ " is not a version".toList) ++
    (if manifest.arch.isEmpty || manifest.arch.any fun a ↦ !arches.contains a then
        [⟨.manifest, "arch is a list of ".toList ++ join ", ".toList arches⟩]
      else fails (!manifest.arch.any fun a ↦ a == arch || a == "all".toList) .arch
        ("the bundle is for ".toList ++ join ", ".toList manifest.arch ++
          "; this device is ".toList ++ arch)) ++
    fails (maxUnits < manifest.units.length) .tooMany "more than 16 units".toList ++
    manifest.units.flatMap (checkUnit lib) ++
    fails (!manifest.units.isEmpty && !manifest.units.any fun unit ↦ (unit.side init).isSome) .init
      ("the bundle has no unit for ".toList ++ init.asStr) ++
    fails (maxEnv < manifest.env.size) .tooMany "more than 64 env variables".toList ++
    (manifest.env.entries.flatMap fun e ↦ checkEnv lib e.1 e.2) ++
    (manifest.firstRun.elim [] fun hook ↦
      fails (!(stripPrefix "hooks/".toList hook).any fun rest ↦
          !rest.isEmpty && !rest.contains '/' && rest != "..".toList) .manifest
        ("firstRun ".toList ++ lib.debug hook ++ " is not a file in hooks/".toList)) ++
    (manifest.update.elim [] fun update ↦
      fails (lib.urlScheme update.url != some "https".toList) .manifest
        "update.url is an https URL".toList) ++
    checkPrivileges lib manifest ++
    checkMdns lib manifest

/-- What the rules see of a bundle: what is at a path, and whether a link leads anywhere. -/
structure BundleDir where
  lstat : Text → Option (Bool × ℕ)
  present : Text → Bool

def BundleDir.isFile (dir : BundleDir) (path : Text) : Bool := (dir.lstat path).any (·.1)

def BundleDir.isExecutable (dir : BundleDir) (path : Text) : Bool :=
  (dir.lstat path).any fun (isFile, mode) ↦ isFile && mode &&& 0o100 != 0

def checkFiles (manifest : Manifest) (dir : BundleDir) (init : Init) : List Problem :=
  ((manifest.units.filterMap fun unit ↦ unit.side init).flatMap fun name ↦
      let file := "units/".toList ++ init.asStr ++ '/' :: name
      fails (!dir.isFile file) .manifest (file ++ " is not in the bundle".toList)) ++
    (manifest.firstRun.elim [] fun hook ↦
      fails (!dir.isExecutable hook) .manifest
        ("firstRun ".toList ++ lib.debug hook ++
          " is not an executable file in the bundle".toList)) ++
    (manifest.services.flatMap fun service ↦ service.exec.head?.elim [] fun file ↦
      fails (isBundleFile file && !dir.isExecutable file) .manifest
        ("service ".toList ++ service.name ++ " runs ".toList ++ lib.debug file ++
          ", which is not an executable file in the bundle".toList)) ++
    fails (manifest.privileges.user == .app && manifest.units.isEmpty &&
        dir.present "units".toList) .unitsNeedRoot
      "units/ is for an app that runs as root".toList

def check (manifest : Manifest) (dir : BundleDir) (init : Init) (arch : Text) : List Problem :=
  checkFields lib manifest init arch ++ checkFiles lib manifest dir init

@[simp] theorem fails_eq_nil {broken : Bool} {rule : Rule} {detail : Text} :
    fails broken rule detail = [] ↔ broken = false := by
  cases broken <;> simp [fails]

end Check

end MicaCore.Apps
