import MicaCore.Deploy.Boot
import MicaCore.Deploy.Objects

namespace MicaCore.Deploy

open Data Crash

def saveState (state : State) : Op Unit :=
  atomicUpdate .deployments [] fun d ↦ { d with data := some state }

namespace State

def pushFailed (state : State) (id : Text) : State :=
  if state.failed.contains id then state
  else { state with
    failed := (if state.failed.length = 128 then state.failed.tail else state.failed) ++ [id] }

def clearCandidate (state : State) (p : Text → Bool) : State :=
  { state with candidate := state.candidate.filter (!p ·) }

def recordFailures (state : State) (entries : List Record) (running : Text) : State :=
  let failed := entries.foldl (fun state e ↦
    if e.id != running && e.triesLeft == some 0 then state.pushFailed e.id else state) state
  failed.clearCandidate failed.failed.contains

def nextFallback (state : State) (entries : List Record) (current : Record) : Option Text :=
  if state.current = some current.id then
    state.fallback.filter fun id ↦
      entries.any fun e ↦ e.id == id && e.id != current.id && e.triesLeft != some 0
  else
    (state.current.filter fun id ↦ entries.any fun e ↦ e.id == id && e.triesLeft != some 0).or
      ((entries.find? fun e ↦ e.id != current.id && e.triesLeft != some 0).map Record.id)

def confirm (state : State) (fallback : Option Text) (current : Record) : State :=
  { state with current := some current.id, fallback := fallback }.clearCandidate (· == current.id)

end State

namespace Store

variable (store : Store)

/-- What a confirmation reads first: the entries, and the state it will record. -/
structure Confirmation where
  entries : List Record
  current : Record
  state : State

def planConfirm (receipt : BootReceipt) (d : Device) : Except String Confirmation := do
  d.validateReceipt store.bootTrust receipt
  let state ← d.effectiveState
  let entries ← d.boot.entries
  let state := state.recordFailures entries receipt.deploymentId
  let current ← orError "running deployment entry is missing"
    (entries.find? (·.id == receipt.deploymentId))
  ensure (current.triesLeft != some 3) "entry was never launched"
  ensure (!state.failed.contains current.id) "deployment is already rejected"
  pure ⟨entries, current, state.confirm (state.nextFallback entries current) current⟩

def confirm (receipt : BootReceipt) : Op State := do
  let plan ← Prog.read (store.planConfirm receipt)
  Prog.when plan.current.triesLeft.isSome (setTries plan.current none)
  saveState plan.state
  retainEntries plan.entries [plan.state.current, plan.state.fallback, plan.state.candidate]
  pure plan.state

def collect (receipt : BootReceipt) : Op ℕ := do
  let state ← Prog.read (·.effectiveState)
  let entries ← Prog.read (·.boot.entries)
  let retained := [receipt.deploymentId] ++
    [state.current, state.fallback, state.candidate].filterMap id ++ entries.map Record.id
  let collection ← Prog.read (store.collection · receipt retained.dedup none)
  let entries ← Prog.read (·.boot.entries)
  retainEntries entries (entries.map fun e ↦ some e.id)
  collection.apply

end Store

structure Rejection where
  entry : Record
  state : State

def planReject (id : Text) (d : Device) : Except String Rejection := do
  validId id
  let state ← d.effectiveState
  let entries ← d.boot.entries
  let entry ← orError "deployment entry is missing" (entries.find? (·.id == id))
  ensure (entries.any fun e ↦ e.id != id && e.triesLeft != some 0)
    "cannot reject the last usable deployment"
  ensure (state.fallback != some id) "cannot reject retained fallback"
  pure ⟨entry, (state.pushFailed id).clearCandidate (· == id)⟩

def reject (id : Text) : Op State := do
  let plan ← Prog.read (planReject id)
  Prog.when (plan.entry.triesLeft != some 0) (setTries plan.entry (some 0))
  saveState plan.state
  pure plan.state

def retireFailedConfirmed (id : Text) : Op Bool := do
  Prog.ofExcept (validId id)
  let entries ← Prog.read (·.boot.entries)
  let entry ← Prog.ofExcept (orError "selected boot record is missing" (entries.find? (·.id == id)))
  if entry.triesLeft.isSome then pure false
  else do
    Prog.ensure (entries.any fun e ↦ e.id != id && e.triesLeft != some 0)
      "no usable fallback remains; recovery required"
    setTries entry (some 0)
    pure true

namespace Store

variable (store : Store)

def failBoot (receipt : BootReceipt) : Op Bool := do
  Prog.read (·.validateReceipt store.bootTrust receipt)
  retireFailedConfirmed receipt.deploymentId

def checkRollback (receipt : BootReceipt) (d : Device) : Except String Unit := do
  d.validateReceipt store.bootTrust receipt
  let state ← d.effectiveState
  ensure state.candidate.isNone "candidate deployment is pending"
  ensure (state.current == some receipt.deploymentId && !state.failed.contains receipt.deploymentId)
    "running deployment is not confirmed"
  let fallback ← orError "no retained fallback" state.fallback
  let entries ← d.boot.entries
  ensure (fallback != receipt.deploymentId && !state.failed.contains fallback &&
    entries.any fun e ↦ e.id == fallback && e.triesLeft != some 0) "no usable retained fallback"

def rollback (receipt : BootReceipt) : Op State := do
  Prog.read (store.checkRollback receipt)
  reject receipt.deploymentId

end Store

end MicaCore.Deploy
