import MicaCore.Deploy.Objects
import MicaCore.Deploy.Select

namespace MicaCore.Deploy

open Data Crash

def trialAttempts : ℕ := 3

def maxEnvelopeBytes : ℕ := 49152

namespace SetState

def paired (state : SetState) : Option Text := state.pending.bind fun _ ↦ state.pair

def ids (state : SetState) : List Text :=
  [state.current, state.pending, state.pair].filterMap id ++ state.bound.keys ++ state.bound.values

def named (state : SetState) : List Text :=
  [state.current, state.pending].filterMap id ++ state.bound.values

def check (state : SetState) : Except String Unit := do
  ensure (state.bound.size ≤ 2) "too many bound deployments"
  forM state.ids validId
  ensure (state.pending.isNone || state.pending != state.current) "the pending set is the current one"

end SetState

namespace Device

def readState (d : Device) : Except String SetState :=
  match d.sets with
  | none => pure {}
  | some state => do
    state.check
    pure state

def readTrial (d : Device) : Option SetTrial := d.trial.filter fun t ↦ isId t.id

def trialIsOver (d : Device) (pending : Text) : Bool :=
  d.readTrial.all fun t ↦ t.kind != .core || t.id != pending || t.attemptsLeft == 0

def retainedDeployments (d : Device) (booted : Option Text) : Except String (List Text) := do
  let entries ← d.boot.entries
  pure ((entries.filter fun e ↦ e.triesLeft != some 0 || some e.id == booted).map Record.id)

end Device

def writeState (state : SetState) : Op Unit := do
  Prog.ensure (state.bound.size ≤ 2) "too many bound deployments"
  atomicUpdate .setState [] fun d ↦ { d with sets := some state }

def writeTrial (trial : SetTrial) : Op Unit :=
  atomicUpdate .setTrial [] fun d ↦ { d with trial := some trial }

def startTrial (id : Text) : Op Unit := writeTrial ⟨.core, id, trialAttempts⟩

def endTrial : Op Unit := do
  let d ← Prog.get
  Prog.when d.trial.isSome (Prog.write fun d ↦ { d with trial := none })

/-- Done, not done, or done and still reported as failed. -/
inductive WriteEnd
  | done
  | lost
  | unreported
  deriving DecidableEq

def spendAttempt (write : WriteEnd) (pending : Text) : Op Bool := do
  let d ← Prog.get
  match d.readTrial with
  | none => pure false
  | some trial =>
    if trial.kind != .core || trial.id != pending || trial.attemptsLeft == 0 then pure false
    else do
      let spent := { trial with attemptsLeft := trial.attemptsLeft - 1 }
      match write with
      | .done => do
        writeTrial spent
        pure true
      | .lost => pure false
      | .unreported => do
        writeTrial spent
        pure false

structure BootRoot where
  arch : String
  features : List String
  root : RootFacts

structure Composition where
  id : Text
  set : UpdateSet
  envelope : Bytes
  pending : Bool
  paired : Bool

def Composition.coreBoot (c : Composition) : CoreBoot := ⟨c.id, c.pending, c.paired⟩

namespace Store

variable (store : Store)

def loadSet (d : Device) (id : Text) (arch : String) : Except String (UpdateSet × Bytes) := do
  validId id
  let envelope ← context ("read core set " ++ id.shown)
    (d.readBounded (.setEnvelope id) maxEnvelopeBytes)
  let set ← store.trust.authenticateSet envelope
  ensure (store.trust.setId set == id) "set identity mismatch"
  ensure (set.kind == .core) "set is of another kind"
  ensure (set.arch == arch) "set is of another architecture"
  pure (set, envelope)

def heldLength (d : Device) (item : Item) (core : CoreComponent) (file : String) (bytes : ℕ) :
    Except String Unit := do
  let held ← orError ("core component " ++ core.package ++ " " ++ file) (d.items.lookup item)
  ensure (held.length == bytes)
    ("core component " ++ core.package ++ " " ++ file ++ " is not the signed length")

/-- The set authenticates, selects on this root, and all of the selection is there. -/
def usable (d : Device) (root : BootRoot) (id : Text) : Except String (UpdateSet × Bytes) := do
  let (set, envelope) ← store.loadSet d id root.arch
  let chosen ← select set root.features root.root
  forM chosen fun core ↦ do
    heldLength d (if d.boot.isUbi then .volume (.core core.id) else .file (.coreImg core.id)) core
      "core.img" core.content.image.bytes
    heldLength d (.file (.coreSignature core.id)) core "core.roothash.p7s"
      core.content.signature.bytes
  pure (set, envelope)

def composed (d : Device) (root : BootRoot) (id : Text) (pending paired : Bool) :
    Except String Composition := do
  let (set, envelope) ← store.usable d root id
  pure ⟨id, set, envelope, pending, paired⟩

def composeCurrent (d : Device) (state : SetState) (root : BootRoot) :
    Except String Composition := do
  let current ← orError "this device holds no core set" state.current
  context ("core set " ++ current.shown) (store.composed d root current false false)

/-- A pending pair, or the bound set; else a pending set with a boot left, spent first; else the
current one. -/
def composition (write : WriteEnd) (root : BootRoot) (deployment : Text) : Op Composition := do
  let state ← Prog.read (·.readState)
  match state.pending, state.bound.get deployment with
  | some pending, bound =>
    if state.paired = some deployment then
      Prog.read fun d ↦ context ("core set " ++ pending.shown ++ ", paired with this deployment")
        (store.composed d root pending true true)
    else match bound with
      | some bound =>
        Prog.read fun d ↦ context ("core set " ++ bound.shown ++ ", bound to this deployment")
          (store.composed d root bound false false)
      | none =>
        if state.paired.isSome then Prog.read (store.composeCurrent · state root)
        else do
          let tried ← spendAttempt write pending
          let d ← Prog.get
          match tried, store.composed d root pending true false with
          | true, .ok composition => pure composition
          | _, _ => Prog.read (store.composeCurrent · state root)
  | none, some bound =>
    Prog.read fun d ↦ context ("core set " ++ bound.shown ++ ", bound to this deployment")
      (store.composed d root bound false false)
  | none, none => Prog.read (store.composeCurrent · state root)

end Store

end MicaCore.Deploy
