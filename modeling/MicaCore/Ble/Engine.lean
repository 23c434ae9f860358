import MicaCore.Ble.Lockout
import MicaCore.Api.Token

namespace MicaCore.Ble

open Data

variable {ρ : Type}

def idleSeconds : ℕ := 120

def reconnectSeconds : ℕ := 120

structure Facts where
  claimed : Bool
  autoWhenOffline : Bool
  hasWifi : Bool
  deriving DecidableEq

inductive ApMode where
  | off
  | provisioning
  | always
  deriving DecidableEq

structure WifiRole where
  clientEnabled : Bool
  apMode : ApMode
  deriving DecidableEq

/-- What the engine reads at one input: the clocks, and the device's answers. -/
structure Reading where
  uptime : ℕ
  unix : ℕ
  facts : Facts
  role : WifiRole
  deriving DecidableEq

inductive Op where
  | getStatus
  | scanWifi
  | setWifi
  | setNetwork
  | finish
  deriving DecidableEq

/-- Where a connection stands; `answering` is after the charge and before the share. -/
inductive Phase (ρ : Type) where
  | idle
  | params (auth : Auth) (record : ρ)
  | answering (auth : Auth) (before : Lockout) (chargedAt : ℕ)
  | confirm (auth : Auth) (before : Lockout)
  | ready (auth : Auth)

structure Connection (ρ : Type) where
  serial : ℕ
  device : Text
  trigger : Trigger
  auth : Auth
  phase : Phase ρ := .idle
  op : Option Op := none
  lastActive : ℕ
  finished : Bool := false
  failed : Bool := false

structure Hold where
  snapshot : Option WifiRole := none
  added : List Text := []
  connected : Bool := false
  replaced : List (Text × Option Text) := []
  unclaimed : Bool
  awaySince : Option ℕ := none

inductive Work where
  | status
  | scan (rescan : Bool)
  | joinWifi (ssid psk : Text) (hidden : Bool)
  | setNetwork (interface : Text) (entry : Text)
  | finish

/-- What the engine spawns, and how the session that asked authenticated. -/
inductive Task where
  | op (serial : ℕ) (auth : Auth) (work : Work)
  | restoreWifi (unclaimed : Bool) (snapshot : WifiRole) (remove : List Text)
  | restoreNetwork (previous : List (Text × Option Text))

inductive Reply where
  | params
  | share (attemptsLeft : ℕ)
  | ready
  | badMessage
  | unsupportedAuth
  | passwordUnavailable
  | locked (retryAfter : ℕ)
  | authFailed (attemptsLeft : ℕ)
  deriving DecidableEq

inductive Reason where
  | badRequest
  | busy
  | unknownOp
  | alreadyClaimed
  | invalidSsid
  | invalidPsk
  | noRadio
  deriving DecidableEq

inductive Notice where
  | failed (reason : Reason)
  | connecting
  | applying
  | ended
  | closingIdle
  | closingClaimedElsewhere
  deriving DecidableEq

inductive Output where
  | session (reply : Reply)
  | event (notice : Notice)
  | task (task : Task)

inductive Message where
  | malformed
  | start (auth : Option Text) (pub : Bool)
  | share (good : Bool)
  | confirm (valid keyed : Bool)

inductive Command where
  | unopened
  | malformed
  | getStatus
  | scanWifi (rescan : Bool)
  | setWifi (ssid psk : Text) (hidden : Bool)
  | setNetwork (interface : Text) (entry : Text)
  | finish
  | illTyped
  | unknown

inductive Written where
  | sessionPart
  | session (message : Message)
  | commandPart
  | command (command : Command)

inductive Outcome where
  | connected
  | up (interface : Text)
  | finished
  | other
  deriving DecidableEq

inductive Input (ρ : Type) where
  | read (device : Text)
  | write (device : Text) (value : Written)
  | disconnected (device : Text)
  | route (present : Bool)
  | claimedElsewhere
  | openManual (seconds : ℕ) (code : Text) (record : ρ)
  | closeManual
  | tick
  | wifiSaved (serial : ℕ) (ssid : Text) (added : Bool)
  | networkSaved (serial : ℕ) (interface : Text) (previous : Option Text)
  | unsealed
  | done (serial : ℕ) (op : Op) (outcome : Outcome)

structure Engine (ρ : Type) where
  windows : Windows
  tempCode : Option (Text × ρ) := none
  connection : Option (Connection ρ) := none
  hold : Option Hold := none
  serial : ℕ := 0
  facts : Facts

def isWpaQuotable (value : Text) : Bool :=
  value.all fun c ↦ 0x20 ≤ c.toNat && c.toNat ≤ 0x7e && c != '"' && c != '\\'

def validateWifiPsk (psk : Text) : Bool :=
  if byteLength psk = 64 ∧ psk.all (fun c ↦ c.isDigit || ('a' ≤ c && c ≤ 'f') || ('A' ≤ c && c ≤ 'F')) then
    true
  else 8 ≤ byteLength psk && byteLength psk ≤ 63 && isWpaQuotable psk

def Hold.commit (h : Hold) : Op → Outcome → Hold
  | .setWifi, .connected => { h with connected := true, snapshot := none, added := [] }
  | .setNetwork, .up name => { h with replaced := h.replaced.filter (·.1 ≠ name) }
  | _, _ => h

def Phase.abandoned : Phase ρ → Phase ρ
  | .confirm _ _ => .idle
  | phase => phase

def Phase.isConfirm : Phase ρ → Bool
  | .confirm _ _ => true
  | _ => false

namespace Engine

def boot (facts : Facts) : Engine ρ := { windows := { claimedAtBoot := facts.claimed }, facts }

def window (e : Engine ρ) (now : ℕ) : Option Open :=
  e.windows.current now e.facts.claimed e.facts.autoWhenOffline

def phase (e : Engine ρ) : Phase ρ := (e.connection.map (·.phase)).getD .idle

def onConnection (e : Engine ρ) (f : Connection ρ → Connection ρ) : Engine ρ :=
  { e with connection := e.connection.map f }

def setPhase (e : Engine ρ) (phase : Phase ρ) : Engine ρ := e.onConnection ({ · with phase })

def touch (e : Engine ρ) (now : ℕ) : Engine ρ := e.onConnection ({ · with lastActive := now })

def sessionAuth (e : Engine ρ) : Option Auth :=
  match e.phase with
  | .ready auth => some auth
  | _ => none

def sendEvent (e : Engine ρ) (notice : Notice) : List Output :=
  if e.sessionAuth.isSome then [.event notice] else []

inductive Refused where
  | busy
  | closed

def admits (e : Engine ρ) (now : ℕ) (device : Text) : Except Refused (Engine ρ) :=
  match e.connection with
  | some c => if c.device = device then .ok e else .error .busy
  | none =>
    match e.window now with
    | none => .error .closed
    | some w => .ok { e with
        serial := e.serial + 1
        connection := some
          { serial := e.serial + 1, device, trigger := w.trigger, auth := w.auth, lastActive := now }
        hold := e.hold.map ({ · with awaySince := none }) }

def abandonExchange (e : Engine ρ) : Engine ρ :=
  e.onConnection fun c ↦ { c with phase := c.phase.abandoned, failed := c.failed || c.phase.isConfirm }

def endConnection (e : Engine ρ) (now : ℕ) : Engine ρ :=
  match e.abandonExchange.connection with
  | none => e
  | some _ => { e with
      connection := none
      hold := e.hold.map ({ · with awaySince := some now }) }

/-- The role is put back; an unfinished unclaimed session loses what it changed. -/
def endHold (e : Engine ρ) (finished : Bool) : Engine ρ × List Output :=
  match e.hold with
  | none => (e, [])
  | some h =>
    let abandoned := h.unclaimed && !finished
    let remove := if abandoned then h.added else []
    let wifi := h.snapshot.toList.map fun snapshot ↦
      Output.task (.restoreWifi h.unclaimed snapshot remove)
    let wired := if abandoned && !h.replaced.isEmpty then [Output.task (.restoreNetwork h.replaced)] else []
    ({ e with hold := none }, wifi ++ wired)

def startNone (e : Engine ρ) (r : Reading) (pub : Bool) : Engine ρ × List Output :=
  if pub then
    (e.onConnection ({ · with phase := .ready .none, lastActive := r.uptime }), [.session .ready])
  else (e, [.session .badMessage])

def beginExchange (e : Engine ρ) (w : Open) (record : ρ) : Engine ρ :=
  e.onConnection ({ · with auth := w.auth, trigger := w.trigger, phase := .params w.auth record })

def sendParams (e : Engine ρ) (r : Reading) (lockout : Lockout) (w : Open) (record : ρ) :
    Engine ρ × List Output :=
  match lockout.remaining r.unix with
  | some retryAfter => (e, [.session (.locked retryAfter)])
  | none => (e.beginExchange w record, [.session .params])

def start (e : Engine ρ) (r : Reading) (lockout : Lockout) (verifier : Option ρ)
    (requested : Option Text) (pub : Bool) : Engine ρ × List Output :=
  let e := e.abandonExchange
  match requested with
  | none => (e, [.session .badMessage])
  | some name =>
    match (e.window r.uptime).filter (·.auth.name = name) with
    | none => (e, [.session .unsupportedAuth])
    | some w =>
      match w.auth with
      | .none => e.startNone r pub
      | .password =>
        match verifier with
        | none => (e, [.session .passwordUnavailable])
        | some record => e.sendParams r lockout w record
      | .tempCode =>
        match e.tempCode with
        | none => (e, [.session .unsupportedAuth])
        | some (_, record) => e.sendParams r lockout w record

def spawnOp (e : Engine ρ) (op : Op) (work : Work) : Engine ρ × List Output :=
  match e.connection, e.sessionAuth with
  | some c, some auth =>
    (e.onConnection ({ · with op := some op }), [.task (.op c.serial auth work)])
  | _, _ => (e, [])

def stillUnclaimed (e : Engine ρ) (r : Reading) : Bool :=
  !(e.sessionAuth == some .none && r.facts.claimed)

def getHold (e : Engine ρ) : Hold :=
  e.hold.getD { unclaimed := e.sessionAuth == some .none }

def withHold (e : Engine ρ) (hold : Hold) : Engine ρ := { e with hold := some hold }

def setWifi (e : Engine ρ) (r : Reading) (ssid psk : Text) (hidden : Bool) :
    Engine ρ × List Output :=
  if !e.stillUnclaimed r then (e, e.sendEvent (.failed .alreadyClaimed))
  else if ssid.isEmpty || 32 < byteLength ssid then (e, e.sendEvent (.failed .invalidSsid))
  else if !psk.isEmpty && !validateWifiPsk psk then (e, e.sendEvent (.failed .invalidPsk))
  else if !e.facts.hasWifi then (e, e.sendEvent (.failed .noRadio))
  else
    let hold := e.getHold
    let held := e.withHold { hold with snapshot := some (hold.snapshot.getD r.role) }
    let spawned := held.spawnOp .setWifi (.joinWifi ssid psk hidden)
    (spawned.1, spawned.2 ++ spawned.1.sendEvent .connecting)

def setNetwork (e : Engine ρ) (r : Reading) (interface : Text) (entry : Text) :
    Engine ρ × List Output :=
  if !e.stillUnclaimed r then (e, e.sendEvent (.failed .alreadyClaimed))
  else
    let spawned := (e.withHold e.getHold).spawnOp .setNetwork (.setNetwork interface entry)
    (spawned.1, spawned.2 ++ spawned.1.sendEvent .applying)

def finish (e : Engine ρ) (r : Reading) : Engine ρ × List Output :=
  if !e.stillUnclaimed r then (e, e.sendEvent (.failed .alreadyClaimed))
  else e.spawnOp .finish .finish

def runCommand (e : Engine ρ) (r : Reading) : Command → Engine ρ × List Output
  | .getStatus => e.spawnOp .getStatus .status
  | .scanWifi rescan => e.spawnOp .scanWifi (.scan rescan)
  | .setWifi ssid psk hidden => e.setWifi r ssid psk hidden
  | .setNetwork interface entry => e.setNetwork r interface entry
  | .finish => e.finish r
  | .unknown => (e, e.sendEvent (.failed .unknownOp))
  | _ => (e, e.sendEvent (.failed .badRequest))

def onCommand (e : Engine ρ) (r : Reading) (command : Command) : Engine ρ × List Output :=
  match e.sessionAuth, command with
  | none, _ => (e, [])
  | some _, .unopened => (e.endConnection r.uptime, [])
  | some _, .malformed => (e.touch r.uptime, e.sendEvent (.failed .badRequest))
  | some _, command =>
    let e := e.touch r.uptime
    if e.connection.any (·.op.isSome) then (e, e.sendEvent (.failed .busy))
    else e.runCommand r command

def closeSession (e : Engine ρ) (r : Reading) : Engine ρ × List Output :=
  let closed : Engine ρ := { e with
    windows := e.windows.finish r.uptime
    tempCode := none
    facts := r.facts }
  ((closed.endHold true).1.endConnection r.uptime, (closed.endHold true).2)

def commit (e : Engine ρ) (op : Op) (outcome : Outcome) : Engine ρ :=
  { e with hold := e.hold.map (·.commit op outcome) }

def doneOp (e : Engine ρ) (r : Reading) (serial : ℕ) (op : Op) (outcome : Outcome) :
    Engine ρ × List Output :=
  let e := e.commit op outcome
  if e.connection.any (·.serial = serial) then
    let finished := op = Op.finish ∧ outcome = Outcome.finished
    let e := e.onConnection fun c ↦
      { c with op := none, lastActive := r.uptime, finished := c.finished || finished }
    if finished then ((e.closeSession r).1, e.sendEvent .ended ++ (e.closeSession r).2)
    else (e, e.sendEvent .ended)
  else (e, [])

def refresh (e : Engine ρ) (facts : Facts) : Engine ρ := { e with facts }

def claimedElsewhere (e : Engine ρ) (r : Reading) : Engine ρ × List Output :=
  let e := e.refresh r.facts
  let unclaimed := e.connection.any (·.auth = .none)
  let out := if unclaimed then e.sendEvent .closingClaimedElsewhere else []
  let e := if unclaimed then e.endConnection r.uptime else e
  if e.hold.any (·.unclaimed) then ((e.endHold false).1, out ++ (e.endHold false).2) else (e, out)

def openManual (e : Engine ρ) (r : Reading) (lockout : Lockout) (seconds : ℕ) (code : Text)
    (record : ρ) : Engine ρ :=
  if !e.facts.claimed || (lockout.remaining r.unix).isSome then e
  else { e with windows := e.windows.openManual r.uptime seconds, tempCode := some (code, record) }

def closeManual (e : Engine ρ) : Engine ρ :=
  { e with windows := e.windows.closeManual, tempCode := none }

def saveWifi (e : Engine ρ) (serial : ℕ) (ssid : Text) (added : Bool) : Engine ρ :=
  if added && e.connection.any (·.serial = serial) then
    { e with hold := e.hold.map fun h ↦ { h with added := h.added ++ [ssid] } }
  else e

def saveNetwork (e : Engine ρ) (serial : ℕ) (interface : Text) (previous : Option Text) :
    Engine ρ :=
  if e.connection.any (·.serial = serial) then
    { e with hold := e.hold.map fun h ↦
        if h.replaced.any (·.1 = interface) then h
        else { h with replaced := h.replaced ++ [(interface, previous)] } }
  else e

def idle (e : Engine ρ) (now : ℕ) : Bool :=
  e.connection.any fun c ↦ c.op.isNone && c.lastActive + idleSeconds ≤ now

def expired (e : Engine ρ) (now : ℕ) (window : Option Open) : Bool :=
  e.hold.any fun h ↦ h.awaySince.any fun since ↦ since + reconnectSeconds ≤ now || window.isNone

def dropCode (e : Engine ρ) (window : Option Open) : Engine ρ :=
  if window.any (·.trigger = .manual) then e else { e with tempCode := none }

def settle (e : Engine ρ) (r : Reading) (refresh : Bool) : Engine ρ × List Output :=
  let e := if refresh then e.refresh r.facts else e
  let window := e.window r.uptime
  let e := e.dropCode window
  let out := if e.idle r.uptime then e.sendEvent .closingIdle else []
  let e := if e.idle r.uptime then e.endConnection r.uptime else e
  if e.expired r.uptime window then ((e.endHold false).1, out ++ (e.endHold false).2) else (e, out)

end Engine

/-- A write is done, fails without effect, or fails after it took effect. -/
inductive Write where
  | done
  | lost
  | unreported
  deriving DecidableEq

inductive Event where
  | charged (now : ℕ) (before : Lockout)
  | answered (now : ℕ)
  | confirmed (stored : Bool)
  deriving DecidableEq

/-- The engine with the count and the verifier, and a log of the count. -/
structure Service (ρ : Type) where
  engine : Engine ρ
  lockout : Lockout := {}
  verifier : Option ρ := none
  unix : ℕ := 0
  log : List Event := []

inductive Label (ρ : Type) where
  | input (r : Reading) (write : Write) (input : Input ρ)
  | answer (r : Reading)
  | restart (r : Reading)
  | verifier (record : Option ρ)

namespace Service

def setPhase (s : Service ρ) (phase : Phase ρ) : Service ρ :=
  { s with engine := s.engine.setPhase phase }

def withEngine (s : Service ρ) (p : Engine ρ × List Output) : Service ρ × List Output :=
  ({ s with engine := p.1 }, p.2)

/-- The charge is stored before the share is sent, or the exchange ends. -/
def share (s : Service ρ) (r : Reading) (write : Write) (good : Bool) : Service ρ × List Output :=
  match s.engine.phase with
  | .params auth _ =>
    if good then
      let charged := { s with
        lockout := s.lockout.charge r.unix
        log := .charged r.unix s.lockout :: s.log }
      match write with
      | .done => (charged.setPhase (.answering auth s.lockout r.unix), [])
      | .lost => (s.setPhase .idle, [.session .badMessage])
      | .unreported => (charged.setPhase .idle, [.session .badMessage])
    else (s.setPhase .idle, [.session .badMessage])
  | _ => (s.setPhase .idle, [.session .badMessage])

def refuse (s : Service ρ) (r : Reading) : Service ρ × List Output :=
  let e := s.engine.onConnection ({ · with phase := .idle, failed := true })
  match s.lockout.remaining r.unix with
  | some retryAfter => ({ s with engine := e.closeManual }, [.session (.locked retryAfter)])
  | none => ({ s with engine := e }, [.session (.authFailed s.lockout.attemptsLeft)])

def accept (s : Service ρ) (r : Reading) (write : Write) (auth : Auth) (before : Lockout)
    (keyed : Bool) : Service ρ × List Output :=
  let stored := write ≠ .lost
  let s := { s with
    lockout := if stored then s.lockout.succeed before else s.lockout
    log := .confirmed stored :: s.log }
  if keyed then
    ({ s with engine := s.engine.onConnection ({ · with phase := .ready auth, lastActive := r.uptime }) },
      [.session .ready])
  else (s.setPhase .idle, [.session .badMessage])

def confirm (s : Service ρ) (r : Reading) (write : Write) (valid keyed : Bool) :
    Service ρ × List Output :=
  match s.engine.phase with
  | .confirm auth before => if valid then s.accept r write auth before keyed else s.refuse r
  | _ => (s.setPhase .idle, [.session .badMessage])

def onSession (s : Service ρ) (r : Reading) (write : Write) (message : Message) :
    Service ρ × List Output :=
  match message with
  | .malformed => (s, [.session .badMessage])
  | .start auth pub => s.withEngine (s.engine.start r s.lockout s.verifier auth pub)
  | .share good => s.share r write good
  | .confirm valid keyed => s.confirm r write valid keyed

def onWrite (s : Service ρ) (r : Reading) (write : Write) : Written → Service ρ × List Output
  | .sessionPart => ({ s with engine := s.engine.touch r.uptime }, [])
  | .session message => { s with engine := s.engine.touch r.uptime }.onSession r write message
  | .commandPart => (s, [])
  | .command command => s.withEngine (s.engine.onCommand r command)

def handle (s : Service ρ) (r : Reading) (write : Write) : Input ρ → Service ρ × List Output
  | .read device =>
    match s.engine.admits r.uptime device with
    | .ok e => ({ s with engine := e }, [])
    | .error _ => (s, [])
  | .write device value =>
    match s.engine.admits r.uptime device with
    | .ok e => { s with engine := e }.onWrite r write value
    | .error _ => (s, [])
  | .disconnected device =>
    if s.engine.connection.any (·.device = device) then
      ({ s with engine := s.engine.endConnection r.uptime }, [])
    else (s, [])
  | .route present =>
    ({ s with engine := { s.engine with windows := s.engine.windows.route r.uptime present } }, [])
  | .claimedElsewhere => s.withEngine (s.engine.claimedElsewhere r)
  | .openManual seconds code record =>
    ({ s with engine := s.engine.openManual r s.lockout seconds code record }, [])
  | .closeManual => ({ s with engine := s.engine.closeManual }, [])
  | .tick => (s, [])
  | .wifiSaved serial ssid added =>
    ({ s with engine := s.engine.saveWifi serial ssid added }, [])
  | .networkSaved serial interface previous =>
    ({ s with engine := s.engine.saveNetwork serial interface previous }, [])
  | .unsealed =>
    if s.engine.sessionAuth.isSome then
      ({ s with engine := s.engine.endConnection r.uptime }, [])
    else (s, [])
  | .done serial op outcome => s.withEngine (s.engine.doneOp r serial op outcome)

def refreshes : Input ρ → Bool
  | .read _ => false
  | .write _ _ => false
  | _ => true

def settle (s : Service ρ) (r : Reading) (refresh : Bool) : Service ρ × List Output :=
  s.withEngine (s.engine.settle r refresh)

/-- Inputs come one at a time, an answer in hand first; a restart keeps what is stored. -/
def step (s : Service ρ) : Label ρ → Option (Service ρ × List Output)
  | .input r write input =>
    match s.engine.phase with
    | .answering _ _ _ => none
    | _ =>
      if s.unix ≤ r.unix then
        let handled := { s with unix := r.unix }.handle r write input
        match handled.1.engine.phase with
        | .answering _ _ _ => some handled
        | _ =>
          let settled := handled.1.settle r (refreshes input)
          some (settled.1, handled.2 ++ settled.2)
      else none
  | .answer r =>
    match s.engine.phase with
    | .answering auth before chargedAt =>
      if s.unix ≤ r.unix then
        let answered := { s with
          unix := r.unix
          log := .answered r.unix :: s.log }.setPhase (.confirm auth before)
        let settled := answered.settle r false
        some (settled.1, .session (.share (before.charge chargedAt).attemptsLeft) :: settled.2)
      else none
    | _ => none
  | .restart r =>
    if s.unix ≤ r.unix then some ({ s with unix := r.unix, engine := .boot r.facts }, []) else none
  | .verifier record => some ({ s with verifier := record }, [])

def next (s : Service ρ) (l : Label ρ) : Option (Service ρ) := (s.step l).map (·.1)

end Service

end MicaCore.Ble
