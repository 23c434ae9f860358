import MicaCore.Deploy.Install

namespace MicaCore.Deploy

open Data Crash

structure SetTarget where
  arch : String
  features : List String
  root : RootFacts

inductive SetSettlement
  | unchanged
  | committed
  | dropped
  deriving DecidableEq

namespace SetState

/-- Make a set current; other retained deployments are bound to the old one. -/
def makeCurrent (state : SetState) (retained : List Text) (booted id : Text) : SetState :=
  match state.current with
  | none => { state with current := some id }
  | some old => { state with
      current := some id
      bound := retained.foldl (fun bound deployment ↦
        if deployment != booted && (bound.get deployment).isNone then bound.insert deployment old
        else bound) state.bound }

/-- What a healthy boot means for the pending set; `ended` says its trial alone is over. -/
def verdict (state : SetState) (retained : List Text) (booted coreSetId : Text) (ended : Bool) :
    SetSettlement :=
  match state.pending with
  | none => .unchanged
  | some pending =>
    if coreSetId = pending then .committed
    else match state.paired with
      | some deployment =>
        if deployment != booted && retained.contains deployment then .unchanged else .dropped
      | none => if ended then .dropped else .unchanged

def applyVerdict (state : SetState) (retained : List Text) (booted : Text) :
    SetSettlement → SetState
  | .committed => match state.pending with
    | some pending => { state with pending := none }.makeCurrent retained booted pending
    | none => state
  | .dropped => { state with pending := none }
  | .unchanged => state

def takeOwn (state : SetState) (retained : List Text) (booted : Text) : SetState :=
  match state.bound.get booted with
  | none => state
  | some own =>
    let state := { state with bound := state.bound.erase booted }
    if state.current = some own then state else state.makeCurrent retained booted own

def tidy (state : SetState) (retained : List Text) : SetState :=
  { state with
    pair := if state.pending.isNone then none else state.pair
    bound := state.bound.filter fun deployment id ↦
      retained.contains deployment && state.current != some id }

def settle (state : SetState) (retained : List Text) (booted : Text) (verdict : SetSettlement) :
    SetState :=
  ((state.applyVerdict retained booted verdict).takeOwn retained booted).tidy retained

end SetState

def Device.settlement (booted : Text) (boot : CoreBoot) (d : Device) :
    Except String (SetSettlement × SetState) := do
  let state ← d.readState
  let retained ← d.retainedDeployments (some booted)
  let ended := state.pending.any d.trialIsOver
  let verdict := state.verdict retained booted boot.coreSetId ended
  pure (verdict, state.settle retained booted verdict)

def Device.setsNeedSettling (booted : Text) (boot : CoreBoot) (d : Device) :
    Except String Bool := do
  let held ← d.readState
  let (_, state) ← d.settlement booted boot
  pure (decide (state ≠ held))

def removeEnvelope (id : Text) : Op Unit := do
  let d ← Prog.get
  Prog.when (d.holds (.file (.setEnvelope id)))
    (Prog.write (Device.remove (.file (.setEnvelope id))))

def componentDirs (d : Device) : List Text :=
  d.items.keys.filterMap fun
    | .dir (.component id) => some id
    | _ => none

def childOf (dir : Dir) : Item → Bool
  | .file p | .temporary p => p.parent == some dir
  | _ => false

def dropsCoreVolume (kept : List Text) : Item → Bool
  | .volume (.core id) => isId id && !kept.contains id
  | _ => false

def removeComponent (kept : List Text) (id : Text) : Op Unit := do
  Prog.ofExcept (validId id)
  if kept.contains id then pure ()
  else do
    let d ← Prog.get
    forM (d.items.keys.filter (childOf (.component id))) fun i ↦ Prog.write (Device.remove i)
    Prog.write (Device.remove (.dir (.component id)))

namespace Store

variable (store : Store)

def setComponents (d : Device) (id : Text) : Except String (List Text) := do
  let envelope ← d.readBounded (.setEnvelope id) maxEnvelopeBytes
  let set ← store.trust.authenticateSet envelope
  pure (set.components.map CoreComponent.id)

def heldComponents (d : Device) : Except String (List Text) := do
  let state ← d.readState
  let components ← state.named.mapM (store.setComponents d)
  pure components.flatten

def releaseUnreferenced : Op Unit := do
  let kept ← Prog.read store.heldComponents
  let d ← Prog.get
  forM (componentDirs d) (removeComponent kept)
  let d ← Prog.get
  forM (if d.boot.isUbi then d.items.keys.filter (dropsCoreVolume kept) else []) fun i ↦
    Prog.write (Device.remove i)

def settleSets (booted : Text) (boot : CoreBoot) : Op SetSettlement := do
  let held ← Prog.read (·.readState)
  let (settlement, state) ← Prog.read (Device.settlement booted boot)
  if state = held then pure settlement
  else do
    writeState state
    Prog.when (settlement != .unchanged) endTrial
    forM (held.named.filter fun id ↦ !state.named.contains id) removeEnvelope
    store.releaseUnreferenced
    pure settlement

def checkNewer (d : Device) (set : UpdateSet) (arch : String) : Option Text → Except String Unit
  | none => pure ()
  | some current => do
    let (held, _) ← store.loadSet d current arch
    ensure (held.channel != set.channel || held.generation < set.generation)
      "set generation is not newer"

def planInstallSet (envelope : Bytes) (target : SetTarget) (d : Device) :
    Except String (UpdateSet × SetState) := do
  let set ← store.trust.authenticateSet envelope
  ensure (set.arch == target.arch) "set targets another architecture"
  let id := store.trust.setId set
  let effective ← d.effectiveState
  ensure effective.candidate.isNone "a deployment is on trial; confirm it before a set update"
  let state ← d.readState
  ensure state.pending.isNone "another set is pending"
  ensure (state.current != some id) "set is installed"
  store.checkNewer d set target.arch state.current
  let _ ← context "the set does not suit this device" (select set target.features target.root)
  pure (set, state)

def installSet (envelope : Bytes) (target : SetTarget) (objects : Sources) : Op SetState := do
  let (set, state) ← Prog.read (store.planInstallSet envelope target)
  let id := store.trust.setId set
  store.publishSet set envelope objects
  let retained ← Prog.read (·.retainedDeployments none)
  let bound := state.bound.filter fun deployment _ ↦ retained.contains deployment
  startTrial id
  let state := { state with pair := none, bound := bound, pending := some id }
  writeState state
  pure state

end Store

end MicaCore.Deploy
