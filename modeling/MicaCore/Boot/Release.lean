import MicaCore.Boot.Snapshot
import MicaCore.Concurrent.Talk
import MicaCore.Network.Address

namespace MicaCore.Boot.Shutdown

open Data Concurrent

structure Budget where
  deadlineMs : ℕ
  cleanupDeadlineMs : ℕ

def Budget.operationDeadline (budget : Budget) (now : ℕ) : Except String ℕ := do
  ensure (now < budget.cleanupDeadlineMs) "cleanup deadline exhausted"
  pure (min (min (now + 5000) (2 ^ 64 - 1)) budget.cleanupDeadlineMs)

inductive Event
  | quiesced
  | releaseObserved (op : Operation)
  | emptyObservation
  | storageReleased
  | remaining (state : Snapshot)
  | operationReturned (op : Operation)
  | operationRefused (pass : ℕ) (error : String)

/-- The system shut down: it may change between calls, and by failed operations. -/
structure LifecycleIo (σ : Type) where
  nowMs : σ → ℕ × σ
  scan : ℕ → σ → Except String Snapshot × σ
  execute : Operation → ℕ → σ → Except String Unit × σ
  event : Event → σ → σ

inductive Call
  | scanned (result : Except String Snapshot)
  | executed (op : Operation) (result : Except String Unit)

def coreMappingStart : Text := "mica-core-".toList

def packageChar (c : Char) : Bool := c.isAlphanum || ['.', '_', '+', '-'].contains c

def micaMapping (name : Text) : Bool :=
  name == "mica-root".toList || name == "mica-support".toList ||
    (coreMappingStart.isPrefixOf name &&
      let package := name.drop coreMappingStart.length
      !package.isEmpty && byteLength package ≤ 100 && package.head?.any Char.isAlphanum &&
        package.all packageChar)

def maxCoreComponents : ℕ := 16

def checkOwner (owner : Ownership) : Except String Unit := do
  ensure (owner.mappings.length ≤ 2 + maxCoreComponents && owner.loops.length ≤ 128 &&
    owner.mounts.length ≤ 4096) "excessive ownership record"
  ensure (owner.backingGenerations.length == owner.backings.card && owner.backings.card ≤ 3 &&
    (owner.backingGenerations.all fun (dev, generation) ↦
      0 < generation && decide (dev ∈ owner.backings)) &&
    decide ((owner.backingGenerations.map Prod.fst).toFinset = owner.backings))
    "invalid backing ownership generations"
  ensure (owner.mappings.all (fun m ↦ micaMapping m.name) && decide (owner.mappings.map Mapping.name).Nodup)
    "invalid owned mapping name"

def Snapshot.shows (state : Snapshot) : Operation → Bool
  | .unmount m => !state.mounts.any (·.id == m.id)
  | .moveBacking m => state.mounts.any fun current ↦
      current.id == m.id && current.device == m.device &&
      current.path == "/backing/".toList ++ (toString m.id).toList
  | .removeMapping m => !state.blocks.any (·.device == m.device)
  | .detachLoop l => !state.blocks.any fun b ↦
      b.device == l.device && (b.association.isSome || !decide (b.holders = ∅))
  | _ => false

section

variable {σ : Type} (io : LifecycleIo σ) (budget : Budget) (owner : Ownership)

abbrev Lifecycle (σ : Type) := Talk σ Call String

def deadline : Lifecycle σ ℕ := do
  let now ← Talk.quiet io.nowMs
  Talk.ofExcept (budget.operationDeadline now)

def scan : Lifecycle σ Snapshot := do
  let deadline ← deadline io budget
  Talk.call (io.scan deadline) .scanned

def execute (op : Operation) : Lifecycle σ Unit := do
  let deadline ← deadline io budget
  Talk.call (io.execute op deadline) (.executed op)

def event (e : Event) : Lifecycle σ Unit := Talk.quiet fun s ↦ ((), io.event e s)

def validated : Lifecycle σ Snapshot := do
  let state ← scan io budget
  Talk.ofExcept (state.validate owner)
  pure state

def confirmEmpty : Lifecycle σ Unit := do
  event io .emptyObservation
  execute io budget .sync
  let final ← validated io budget owner
  Talk.ofExcept (ensure (final.empty owner) "storage changed after sync")
  event io .storageReleased

def syncBefore : Operation → Lifecycle σ Unit
  | .unmount mount => execute io budget (.syncMount mount)
  | _ => pure ()

def tryOperation (pass : ℕ) (op : Operation) : Lifecycle σ Unit := do
  syncBefore io budget op
  let deadline ← deadline io budget
  let result ← Talk.attempt (Talk.call (io.execute op deadline) (.executed op))
  match result with
  | .ok () => event io (.operationReturned op)
  | .error error => event io (.operationRefused pass error)

def reportObserved (state : Snapshot) : Option Operation → Lifecycle σ Unit
  | some op => if state.shows op then event io (.releaseObserved op) else pure ()
  | none => pure ()

def syncDirty (state : Snapshot) : Lifecycle σ Unit :=
  if 0 < state.dirtyKib then execute io budget .sync else pure ()

/-- One pass, no operation twice: whether storage is released, and what was tried last. -/
def rounds (pass : ℕ) : ℕ → List Operation → Option Operation →
    Lifecycle σ (Bool × Option Operation)
  | 0, _, previous => pure (false, previous)
  | n + 1, tried, previous => do
    let state ← validated io budget owner
    reportObserved io state previous
    Talk.ofExcept (ensure state.processes.isEmpty "new userspace holder during shutdown")
    if state.empty owner then do
      confirmEmpty io budget owner
      pure (true, none)
    else
      match (state.candidates owner).find? (!tried.contains ·) with
      | none => do
        event io (.remaining state)
        syncDirty io budget state
        pure (false, none)
      | some op => do
        tryOperation io budget pass op
        rounds pass n (op :: tried) (some op)

def passes : ℕ → Option Operation → Lifecycle σ Unit
  | 0, _ => Talk.ofExcept (.error "storage-not-released after twelve passes")
  | n + 1, previous => do
    let (released, previous) ← rounds io budget owner (11 - n) 512 [] previous
    if released then pure () else passes n previous

def release : Lifecycle σ Unit := do
  Talk.ofExcept (checkOwner owner)
  execute io budget .makePrivate
  execute io budget .quiesce
  let initial ← validated io budget owner
  Talk.ofExcept (ensure initial.processes.isEmpty "userspace holders remain after quiesce")
  event io .quiesced
  passes io budget owner 12 none

end

end MicaCore.Boot.Shutdown
