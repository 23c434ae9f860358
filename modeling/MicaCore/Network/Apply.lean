import MicaCore.Crash.Run
import MicaCore.Network.Render

namespace MicaCore.Network

open Crash Data

/-- The directories an apply writes, whether one came through, and how much was tried. -/
structure World where
  units : OrdMap Text Text
  keys : OrdMap Text Text
  psks : OrdMap Text Text
  applied : Bool := false
  op : ℕ := 0
  deriving DecidableEq

inductive ApplyError where
  | refused (message : String)
  | os
  | rolledBack (reason : String)
  deriving DecidableEq

/-- The readers, the board's ports, the key directories and the public halves of keys. -/
structure Device where
  fmt : Formats
  board : Board
  keystore : Keystore
  publicHalf : Text → Option Text

inductive Stage where
  | psks
  | prepare
  | keys
  | replace
  | reload
  | restore
  | restoreReload
  | retain
  deriving DecidableEq

/-- The kernel's features and links, what fails, the keys drawn and what comes up. -/
structure Outcomes where
  features : Option (List String) := none
  links : List Text := []
  fails : Stage → ℕ → Bool := fun _ _ ↦ false
  drawn : Text → Text
  settles : OrdMap Text Bool → Except String Unit := fun _ ↦ .ok ()

abbrev Apply (α : Type) := Prog World ApplyError α

namespace World

def tick (w : World) : World := { w with op := w.op + 1 }

def putUnit (name text : Text) (w : World) : World := { w with units := w.units.insert name text }

def removeUnit (name : Text) (w : World) : World := { w with units := w.units.erase name }

def putKey (name key : Text) (w : World) : World := { w with keys := w.keys.insert name key }

def removeKey (name : Text) (w : World) : World := { w with keys := w.keys.erase name }

def putPsk (name key : Text) (w : World) : World := { w with psks := w.psks.insert name key }

def removePsk (name : Text) (w : World) : World := { w with psks := w.psks.erase name }

def managed (w : World) : OrdMap Text Text := w.units.filter fun name _ ↦ isMicaManaged name

end World

structure IfaceState where
  file : Text
  dhcp : Bool
  kind : String
  publicKey : Option Text
  deriving DecidableEq

section Operations

variable (dev : Device) (o : Outcomes)

def attempted (stage : Stage) (effect : World → World) : Apply Unit := do
  let w ← Prog.get
  if o.fails stage w.op then do
    Prog.write World.tick
    Prog.fail .os
  else Prog.write fun w ↦ (effect w).tick

def pskIface (name : Text) : Option Text :=
  (((stripPrefix "wg-".toList name).bind (stripSuffix ".psk".toList)).bind (rsplitOnce '-')).map Prod.fst

def keyIface (name : Text) : Option Text :=
  (stripPrefix "wg-".toList name).bind (stripSuffix ".key".toList)

def syncPsks (keys : List ((Text × ℕ) × Text)) : Apply Unit := do
  -- The directory is made first, and listed after the writes.
  attempted o .psks id
  forM keys fun k ↦ do
    let w ← Prog.get
    let name := pskFile k.1.1 k.1.2
    Prog.when (w.psks.get name != some k.2) (attempted o .psks (World.putPsk name k.2))
  attempted o .psks id
  let kept := keys.map fun k ↦ pskFile k.1.1 k.1.2
  let w ← Prog.get
  forM w.psks.keys fun name ↦
    Prog.when ((pskIface name).isSome && !kept.contains name)
      (attempted o .psks (World.removePsk name))

def ensureKey (iface : Text) : Apply Text := do
  attempted o .keys id
  let w ← Prog.get
  match w.keys.get (keyFile iface) with
  | some text =>
    Prog.ofExcept (orError (.refused s!"{(dev.keystore.keyPath iface).shown} does not hold a WireGuard key")
      (dev.publicHalf text))
  | none => do
    attempted o .keys (World.putKey (keyFile iface) (o.drawn iface))
    Prog.ofExcept (orError .os (dev.publicHalf (o.drawn iface)))

def ensureKeys : List (Text × IfaceSettings) → Apply (List (Text × IfaceState))
  | [] => pure []
  | (iface, cfg) :: entries => do
    let publicKey ← if cfg.kind = .wireguard then some <$> ensureKey dev o iface else pure none
    let rest ← ensureKeys entries
    pure ((iface, ⟨unitName iface, cfg.dhcp, kindName cfg.kind, publicKey⟩) :: rest)

def undeclaredPorts (network : NetworkMap) : List Text :=
  o.links.filter fun name ↦ "eth".toList.isPrefixOf name && !name.contains '.' &&
    (network.get name).isNone && !dev.board.hidden name

end Operations

def autoEntry (board : Board) (port : Text) : IfaceSettings :=
  { dhcp := true, internet := if board.internal port then some false else none }

def renderFiles (board : Board) (keys : Keystore) (network : NetworkMap) (ports : List Text) :
    OrdMap Text Text :=
  let masters := bridgePorts network
  let metrics := routeMetrics network masters ports
  let declared := network.entries.foldl (fun files e ↦
    let files := files.insert (unitName e.1) (renderUnit e.1 (board.effective e.1 e.2)
      (masters.get e.1) (vlanChildren network e.1) (metrics.get e.1))
    (renderNetdev e.1 e.2 keys).elim files (files.insert (netdevName e.1))) .empty
  ports.foldl (fun files port ↦ files.insert (autoUnitName port)
    (renderUnit port (autoEntry board port) none [] (metrics.get port))) declared

section Operations

variable (dev : Device) (o : Outcomes)

def managedFiles : Apply (OrdMap Text Text) := do
  attempted o .prepare id
  let w ← Prog.get
  pure w.managed

def replaceFiles (stage : Stage) (files current : OrdMap Text Text) : Apply Unit := do
  forM files.entries fun e ↦
    Prog.when (current.get e.1 != some e.2) (attempted o stage (World.putUnit e.1 e.2))
  forM current.keys fun name ↦
    Prog.when (files.get name).isNone (attempted o stage (World.removeUnit name))

def reload (stage : Stage) : Apply Unit := attempted o stage id

def changedLinks (network : NetworkMap) (files previous : OrdMap Text Text) : OrdMap Text Bool :=
  let changed := network.keys.filter fun iface ↦
    files.get (unitName iface) != previous.get (unitName iface) ||
      files.get (netdevName iface) != previous.get (netdevName iface)
  changed.foldl (fun links iface ↦ links.insert iface (files.get (netdevName iface)).isSome) .empty

def settle (network : NetworkMap) (files previous : OrdMap Text Text)
    (state : List (Text × IfaceState)) : Apply (List (Text × IfaceState)) :=
  let changed := changedLinks network files previous
  if changed.keys.isEmpty then pure state
  else match o.settles changed with
    | .ok () => pure state
    | .error reason => do
      replaceFiles o .restore previous files
      reload o .restoreReload
      Prog.fail (.rolledBack reason)

def writeAndSettle (network : NetworkMap) : Apply (List (Text × IfaceState)) := do
  Prog.ofExcept ((validateNetwork dev.fmt network).mapError .refused)
  Prog.ofExcept ((validateKernelFeatures network o.features).mapError .refused)
  -- Before the netdevs, so that the daemon finds every key file a unit names.
  syncPsks o (presharedKeys network)
  -- The target directory is made first.
  attempted o .prepare id
  let previous ← managedFiles o
  let state ← ensureKeys dev o network.entries
  let files := renderFiles dev.board dev.keystore network (undeclaredPorts dev o network)
  replaceFiles o .replace files previous
  reload o .reload
  let w ← Prog.get
  Prog.write fun w ↦ { w with applied := true }
  if !w.applied then pure state else settle o network files previous state

def retainKeys (keep : List Text) : Apply Unit := do
  attempted o .retain id
  let w ← Prog.get
  forM w.keys.keys fun name ↦
    Prog.when ((keyIface name).any (!keep.contains ·)) (attempted o .retain (World.removeKey name))

def tunnels (network : NetworkMap) : List Text :=
  (network.entries.filter (·.2.kind == .wireguard)).map Prod.fst

def apply (network : NetworkMap) : Apply (List (Text × IfaceState)) := do
  let state ← writeAndSettle dev o network
  -- Only now: a rollback puts back netdevs that name these key files.
  retainKeys o (tunnels network)
  pure state

end Operations

end MicaCore.Network
