import MicaCore.Settings.Window

namespace MicaCore.Update

open Data Deploy Settings

inductive UpdateMode
  | off
  | check
  | auto
  deriving DecidableEq, Repr

inductive RebootPolicy
  | manual
  | window
  deriving DecidableEq, Repr

structure Selection where
  mode : UpdateMode
  checkIntervalMinutes : ℕ

structure LoadedPolicy where
  selection : Option Selection
  windows : List MaintenanceWindow
  rebootPolicy : RebootPolicy
  checkAt : Option Text
  error : Option String

namespace LoadedPolicy

def mode (loaded : LoadedPolicy) : Option UpdateMode := loaded.selection.map Selection.mode

def autoCheckMinutes (loaded : LoadedPolicy) : Option ℕ := do
  let selection ← loaded.selection
  match selection.mode with
  | .off => none
  | .check | .auto =>
    if 0 < selection.checkIntervalMinutes then some selection.checkIntervalMinutes else none

def autoCheckAt (loaded : LoadedPolicy) : Option Text := do
  let _ ← loaded.autoCheckMinutes
  loaded.checkAt

def autoNeedsAWindow : String :=
  "policy `auto` requires at least one maintenance window: zero windows means " ++
    "`any time`, which for an automatic install means `the moment a bundle lands`"

def autoWindowRefusal (loaded : LoadedPolicy) : Option String := do
  let selection ← loaded.selection
  if selection.mode = .auto ∧ loaded.windows.isEmpty then some autoNeedsAWindow else none

def installRefusal (loaded : LoadedPolicy) (now : DateTime) : Option String :=
  match loaded.error with
  | some error => some ("update policy file is invalid (" ++ error ++ ")")
  | none =>
    if loaded.windows.isEmpty || loaded.windows.any (·.contains now) then none
    else some "outside every configured maintenance window"

end LoadedPolicy

inductive SyncStatus
  | synchronized
  | polling
  | offlineDegraded
  | invalidSource
  | unknown
  deriving DecidableEq, Repr

def SyncStatus.asStr : SyncStatus → String
  | .synchronized => "synchronized"
  | .polling => "polling"
  | .offlineDegraded => "offline-degraded"
  | .invalidSource => "invalid-source"
  | .unknown => "unknown"

structure ClockTrust where
  status : Option SyncStatus
  floorAdvanced : Bool

namespace ClockTrust

def believed (trust : ClockTrust) : Bool := trust.status = some .synchronized || trust.floorAdvanced

def untrustedReason (trust : ClockTrust) : Option String :=
  if trust.believed then none
  else some ("the clock is not one this device believes: time synchronization reports `" ++
    trust.status.elim "unknown" SyncStatus.asStr ++
    "` and the saved floor at /var/lib/systemd/timesync/clock has not advanced since boot. " ++
    "A maintenance window is UTC wall-clock, so an automatic install is deferred " ++
    "until one of the two holds; checks and fetches are unaffected")

end ClockTrust

/-- A device in automatic mode names a window, and one holds this instant. -/
def LoadedPolicy.InWindow (loaded : LoadedPolicy) (now : DateTime) : Prop :=
  ∃ w ∈ loaded.windows, w.contains now = true

theorem LoadedPolicy.inWindow_of_refusals {loaded : LoadedPolicy} {now : DateTime}
    (hmode : loaded.mode = some .auto) (hauto : loaded.autoWindowRefusal = none)
    (hinstall : loaded.installRefusal now = none) : loaded.InWindow now := by
  obtain ⟨selection, hselection, hauto_mode⟩ := Option.map_eq_some_iff.mp hmode
  have hwindows : loaded.windows ≠ [] := by
    intro hnil
    simp [autoWindowRefusal, hselection, hauto_mode, hnil] at hauto
  unfold installRefusal at hinstall
  split at hinstall
  · simp at hinstall
  · simpa [hwindows, InWindow] using hinstall

end MicaCore.Update
