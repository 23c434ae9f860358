import MicaCore.Bus.Dispatch
import MicaCore.Network.Settled

namespace MicaCore.Bus

open Concurrent Data Network

inductive ApplyOutcome where
  | succeeded
  | rolledBack
  | failed
  deriving DecidableEq

inductive Pass where
  | begun
  | snapshot (settings : NetworkMap)
  | gated (settings : NetworkMap) (refused : Bool)
  | done
  deriving DecidableEq

/-- Who holds the apply lock, for which path, and the maps it read. -/
structure Holder where
  path : Text
  read : Option (Option NetworkMap × NetworkMap)
  pass : Pass := .begun

inductive WorkerState where
  | idle
  | taken (job : ApplyJob)
  | holding (job : ApplyJob)
  | finishing (job : ApplyJob)
  deriving DecidableEq

/-- The daemon's network settings; `inFlight` writes are stored and not queued yet. -/
structure Daemon where
  stored : NetworkMap
  appliedNetwork : Option NetworkMap := none
  refusals : List DocumentRefusal := []
  rolledBack : Bool := false
  lastApply : Option ApplyOutcome := none
  world : World
  queue : ApplyQueue := {}
  inFlight : List Request := []
  worker : WorkerState := .idle
  holder : Option Holder := none

inductive DaemonStep where
  | store (request : Request) (network : NetworkMap)
  | repair (request : Request)
  | enqueue (request : Request) (source : Text)
  | unannounced (request : Request)
  | queued (operation dotPath source : Text)
  | openTask (operation : Text) (kind : TaskKind) (dotPath source : Text)
  | take
  | lock
  | rotate (iface key : Text)
  | snapshot
  | gate
  | apply (o : Outcomes)
  | release (saved : Bool)
  | finish (outcome : Text) (message : Option Text) (interfaces : List Text)

instance : DecidableEq Request
  | .set p, .set q => decidable_of_iff (p = q) (by simp)
  | .setMany ps, .setMany qs => decidable_of_iff (ps = qs) (by simp)
  | .set _, .setMany _ => isFalse (by simp)
  | .setMany _, .set _ => isFalse (by simp)

def reachesNetwork (path : Text) : Bool := (segments path).any (comparable · [networkPath])

namespace Daemon

def refuses (d : Daemon) : Bool := d.refusals.any (refusalCovers · networkPath)

def recordApply (d : Daemon) (settings : NetworkMap) :
    Except ApplyError (List (Text × IfaceState)) → Daemon
  | .ok _ => { d with
      appliedNetwork := some settings, rolledBack := false, lastApply := some .succeeded }
  | .error (.rolledBack _) => { d with rolledBack := true, lastApply := some .rolledBack }
  | .error _ => { d with rolledBack := false, lastApply := some .failed }

def reconcile (dev : Device) (o : Outcomes) (d : Daemon) (path : Text) (settings : NetworkMap)
    (refused : Bool) : Daemon :=
  if !pathsOverlap path networkPath then d
  else if refused then { d with rolledBack := false }
  else
    let p := Network.apply dev o settings
    { d with world := p.last d.world }.recordApply settings (p d.world).result

def restoreNetwork (saved : Bool) (d : Daemon) (attempted : NetworkMap) : Option NetworkMap → Daemon
  | none => d
  | some applied =>
    if d.rolledBack && d.stored == attempted && saved then { d with stored := applied } else d

def step (dev : Device) (d : Daemon) : DaemonStep → Option Daemon
  | .store request network =>
    -- A write reaches the network map only through a path of it or around it.
    if network = d.stored ∨ request.paths.any reachesNetwork then
      some { d with stored := network, inFlight := d.inFlight ++ [request] }
    else none
  | .repair request =>
    if request ∈ d.inFlight then
      some { d with refusals := d.refusals.filter fun refusal ↦
        !request.paths.any (refusalCovers refusal) }
    else none
  | .enqueue request source =>
    if request ∈ d.inFlight then
      (d.queue.enqueue "settings-write".toList request.jobPath source).map fun e ↦
        { d with queue := e.1, inFlight := d.inFlight.erase request }
    else none
  | .unannounced request =>
    -- The signal could not be sent: the caller gets an error, and nothing is queued.
    if request ∈ d.inFlight then some { d with inFlight := d.inFlight.erase request } else none
  | .queued operation dotPath source =>
    (d.queue.enqueue operation dotPath source).map fun e ↦ { d with queue := e.1 }
  | .openTask operation kind dotPath source =>
    some { d with queue := (d.queue.openTask operation kind dotPath source).1 }
  | .take =>
    match d.worker, d.queue.next with
    | .idle, some (job, queue) => some { d with queue := queue.start job.id, worker := .taken job }
    | _, _ => none
  | .lock =>
    match d.worker, d.holder with
    | .taken job, none => some { d with
        worker := .holding job
        holder := some ⟨job.dotPath, some (d.appliedNetwork, d.stored), .begun⟩ }
    | _, _ => none
  | .rotate iface key =>
    if d.holder.isNone && (d.stored.get iface).any (·.kind == .wireguard) then
      some { d with
        world := d.world.putKey (keyFile iface) key
        holder := some ⟨networkPath, none, .begun⟩ }
    else none
  | .snapshot =>
    match d.holder with
    | some ⟨path, read, .begun⟩ => some { d with holder := some ⟨path, read, .snapshot d.stored⟩ }
    | _ => none
  | .gate =>
    match d.holder with
    | some ⟨path, read, .snapshot settings⟩ =>
      some { d with holder := some ⟨path, read, .gated settings d.refuses⟩ }
    | _ => none
  | .apply o =>
    match d.holder with
    | some ⟨path, read, .gated settings refused⟩ =>
      some { reconcile dev o d path settings refused with holder := some ⟨path, read, .done⟩ }
    | _ => none
  | .release saved =>
    match d.holder, d.worker with
    | some ⟨path, some (applied, attempted), .done⟩, .holding job =>
      let d := if pathsOverlap path networkPath then d.restoreNetwork saved attempted applied else d
      some { d with holder := none, worker := .finishing job }
    | some ⟨_, none, .done⟩, _ => some { d with holder := none }
    | _, _ => none
  | .finish outcome message interfaces =>
    match d.worker with
    | .finishing job => some { d with
        queue := d.queue.finish job.id outcome message interfaces
        worker := .idle }
    | _ => none

def boot (network : NetworkMap) (refusals : List DocumentRefusal) (world : World) : Daemon where
  stored := network
  refusals := refusals
  world := { world with applied := false }
  holder := some ⟨[], none, .begun⟩

end Daemon

end MicaCore.Bus
