import MicaCore.Concurrent.Talk
import MicaCore.Update.Policy

namespace MicaCore.Update

open Data Concurrent Deploy Settings

def fileName (path : Text) : Option Text := do
  let parts := path.splitOn '/'
  let name ← (parts.filter fun part ↦ part ≠ [] ∧ part ≠ ['.']).getLast?
  if name = ['.', '.'] then none else some name

def isSetKind (value : Text) : Bool :=
  !value.isEmpty && value.length ≤ 32 && value.all fun c ↦ asciiLower c || asciiDigit c

def validDeploymentId (id : Text) : Bool := id.length == 64 && id.all hexDigit

def stagedId (path : Text) : Option (Text × Option Text) := do
  let name ← fileName path
  let stem ← stripSuffix ".json".toList name
  let (id, kind) ← match stripPrefix "set-".toList stem with
    | some rest => do
      let (kind, id) ← splitOnce '-' rest
      if isSetKind kind then some (id, some kind) else none
    | none => some (stem, none)
  if validDeploymentId id then some (id, kind) else none

def descriptorId (descriptor : Text) : Option Text := (stagedId descriptor).map Prod.fst

structure Available where
  deploymentId : Text
  version : Text

structure Unready where
  status : String
  kind : String
  detail : String

def Unready.reason (u : Unready) : String := u.status ++ " " ++ u.kind ++ ": " ++ u.detail

inductive Settled (α : Type)
  | done (a : α)
  | noneCompatible
  | unready (u : Unready)
  | failed (text : String)

inductive Refusal
  | policy (m : String)
  | busy (m : String)
  | unavailable (m : String)
  | invalid (m : String)

def Refusal.message : Refusal → String
  | .policy m | .busy m | .unavailable m | .invalid m => m

structure UpdateFacts where
  rebootPending : Bool
  installStatus : Option String

/-- An operator asks for an install, one leaves its outcome, and lets the next in. -/
inductive Act
  | request
  | settle (ok : Bool)
  | release
  deriving DecidableEq

inductive Event
  | act (a : Act)
  | policy (loaded : LoadedPolicy)
  | check (answer : Except Refusal (Settled Available))
  | fetch (answer : Except Refusal (Settled Text))
  | available (candidate : Option Available)
  | staged (descriptor : Option Text)
  | discardStaged (why : String)
  | facts (facts : Option UpdateFacts)
  | install (descriptor : Text) (answer : Except String Unit)
  | reboot (answer : Except String Unit)
  | clock (trust : ClockTrust)
  | audit (event : String)
  | defer (reason detail : String)
  | resume (only : Option String)
  | now (instant : ℕ)
  | wall (time : DateTime)
  | utcNow (time : DateTime)

structure Routes (σ : Type) where
  meanwhile : σ → List Act × σ
  policy : σ → LoadedPolicy × σ
  check : σ → Except Refusal (Settled Available) × σ
  fetch : σ → Except Refusal (Settled Text) × σ
  available : σ → Option Available × σ
  staged : σ → Option Text × σ
  discardStaged : String → σ → Unit × σ
  facts : σ → Option UpdateFacts × σ
  install : Text → σ → Except String Unit × σ
  reboot : σ → Except String Unit × σ
  clock : σ → ClockTrust × σ
  audit : String → σ → Unit × σ
  defer : String → String → σ → Unit × σ
  resume : Option String → σ → Unit × σ
  now : σ → ℕ × σ
  wall : σ → DateTime × σ
  utcNow : σ → DateTime × σ

inductive Stage
  | idle
  | installing
  | rebootPending
  deriving DecidableEq, Repr

structure AutoDriver where
  lastCheck : ℕ
  anchorFloor : DateTime
  stage : Stage

abbrev Pass (σ : Type) := Talk σ Event Empty

namespace AutoDriver

section

variable {σ : Type} (routes : Routes σ)

def ask {α : Type} (f : σ → α × σ) (record : α → Event) : Pass σ α := do
  Talk.others fun s ↦ ((routes.meanwhile s).1.map .act, (routes.meanwhile s).2)
  Talk.ask f record

def audit (event : String) : Pass σ Unit := ask routes (routes.audit event) fun _ ↦ .audit event

def defer (reason detail : String) : Pass σ Unit :=
  ask routes (routes.defer reason detail) fun _ ↦ .defer reason detail

def resume (only : Option String) : Pass σ Unit :=
  ask routes (routes.resume only) fun _ ↦ .resume only

def anchoredCrossing (loaded : LoadedPolicy) : Pass σ (Option DateTime) :=
  match loaded.autoCheckAt with
  | none => pure none
  | some anchor => do
    let trust ← ask routes routes.clock .clock
    if trust.believed then do
      let wall ← ask routes routes.wall .wall
      pure (lastCrossing anchor wall)
    else pure none

def due (d : AutoDriver) (interval now : ℕ) : Option DateTime → Option AutoDriver
  | some crossing => if crossing ≤ d.anchorFloor then none else some { d with anchorFloor := crossing }
  | none =>
    if now - d.lastCheck < min (interval * 60) (2 ^ 64 - 1) * 10 ^ 9 then none else some d

def recordCheck : Except Refusal (Settled Available) → Pass σ Unit
  | .ok .noneCompatible => defer routes "no-newer-release"
      "the source publishes nothing newer for this product than the running system"
  | .ok _ => resume routes (some "no-newer-release")
  | .error refusal => defer routes "check-refused" refusal.message

def checkIfDue (d : AutoDriver) (loaded : LoadedPolicy) : Pass σ AutoDriver :=
  match loaded.autoCheckMinutes with
  | none => pure d
  | some interval => do
    let now ← ask routes routes.now .now
    let crossing ← anchoredCrossing routes loaded
    match d.due interval now crossing with
    | none => pure d
    | some d => do
      audit routes "update-check"
      let answer ← ask routes routes.check .check
      recordCheck routes answer
      pure { d with lastCheck := now }

def fetchNamed : Pass σ Bool := do
  let available ← ask routes routes.available .available
  match available with
  | none => pure true
  | some candidate => do
    let staged ← ask routes routes.staged .staged
    if staged.bind descriptorId = some candidate.deploymentId then pure true
    else do
      audit routes "update-fetch"
      let answer ← ask routes routes.fetch .fetch
      match answer with
      | .error refusal => do
        defer routes "fetch-refused" refusal.message
        pure false
      | .ok _ => pure true

def deferring (d : AutoDriver) (reason detail : String) : Pass σ AutoDriver := do
  defer routes reason detail
  pure d

def requestInstall (d : AutoDriver) (descriptor : Text) : Pass σ AutoDriver := do
  audit routes "update-install"
  let answer ← ask routes (routes.install descriptor) (.install descriptor)
  match answer with
  | .ok () => do
    resume routes none
    pure { d with stage := .installing }
  | .error refusal => deferring routes d "install-refused" refusal

def recheck (d : AutoDriver) (descriptor : Text) : Pass σ AutoDriver := do
  audit routes "update-check"
  let answer ← ask routes routes.check .check
  match answer with
  | .ok (.done candidate) =>
    if some candidate.deploymentId = descriptorId descriptor then requestInstall routes d descriptor
    else
      deferring routes d "superseded"
        ("the check now names " ++ String.ofList candidate.deploymentId)
  | .ok .noneCompatible => do
    let why := "the current metadata no longer names it"
    ask routes (routes.discardStaged why) fun _ ↦ .discardStaged why
    pure d
  | .ok (.unready u) => deferring routes d "workspace-unready" u.reason
  | .ok (.failed text) => deferring routes d "recheck-failed" text
  | .error refusal => deferring routes d "recheck-refused" refusal.message

def installIfAllowed (d : AutoDriver) (loaded : LoadedPolicy) (descriptor : Text) :
    Pass σ AutoDriver := do
  let trust ← ask routes routes.clock .clock
  match trust.untrustedReason with
  | some reason => deferring routes d "clock-untrusted" reason
  | none => do
    let now ← ask routes routes.utcNow .utcNow
    match loaded.installRefusal now with
    | some reason => deferring routes d "outside-window" reason
    | none => do
      let facts ← ask routes routes.facts .facts
      match facts with
      | none =>
        deferring routes d "deployment-status-unknown"
          "the native backend did not answer the deployment query"
      | some facts =>
        if facts.rebootPending then
          deferring routes d "reboot-pending"
            "a deployment is already installed and waiting for its first boot"
        else recheck routes d descriptor

def rebootIfAllowed (d : AutoDriver) (loaded : LoadedPolicy) : Pass σ AutoDriver :=
  if loaded.rebootPolicy ≠ .window then pure { d with stage := .idle }
  else do
    let now ← ask routes routes.utcNow .utcNow
    match loaded.installRefusal now with
    | some reason => deferring routes d "outside-window" reason
    | none => do
      let answer ← ask routes routes.reboot .reboot
      match answer with
      | .error refusal => deferring routes d "reboot-gate-closed" refusal
      | .ok () => do
        resume routes none
        pure { d with stage := .idle }

def awaitInstall (d : AutoDriver) (loaded : LoadedPolicy) : Pass σ AutoDriver := do
  let facts ← ask routes routes.facts .facts
  match facts with
  | none => pure d
  | some facts =>
    if facts.installStatus = some "running" then pure d
    else if facts.installStatus = some "done" then
      rebootIfAllowed routes { d with stage := .rebootPending } loaded
    else pure { d with stage := .idle }

def drive (d : AutoDriver) (loaded : LoadedPolicy) : Pass σ AutoDriver :=
  match d.stage with
  | .installing => awaitInstall routes d loaded
  | .rebootPending => rebootIfAllowed routes d loaded
  | .idle => do
    let d ← checkIfDue routes d loaded
    let fetched ← fetchNamed routes
    if fetched then do
      let staged ← ask routes routes.staged .staged
      match staged with
      | some descriptor => installIfAllowed routes d loaded descriptor
      | none => pure d
    else pure d

def tick (d : AutoDriver) : Pass σ AutoDriver := do
  let loaded ← ask routes routes.policy .policy
  match loaded.mode with
  | none => pure d
  | some .off => pure { d with stage := .idle }
  | some .check => checkIfDue routes d loaded
  | some .auto =>
    match loaded.autoWindowRefusal with
    | some _ => checkIfDue routes d loaded
    | none => drive routes d loaded

def ticks : ℕ → AutoDriver → Pass σ AutoDriver
  | 0, d => pure d
  | n + 1, d => do
    let d ← tick routes d
    ticks n d

def run (n : ℕ) : Pass σ AutoDriver := do
  let lastCheck ← ask routes routes.now .now
  let anchorFloor ← ask routes routes.wall .wall
  ticks routes n ⟨lastCheck, anchorFloor, .idle⟩

end

end AutoDriver

end MicaCore.Update
