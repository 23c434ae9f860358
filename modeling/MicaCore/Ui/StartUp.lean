import MicaCore.Ui.Upload

namespace MicaCore.Ui

open Data Crash Prog

structure Recheck where
  generation : ℕ
  digestMatches : Option Bool
  compat : CompatCheck

def Recheck.corrupt (r : Recheck) : Bool := r.digestMatches == some false

inductive Reason where
  | digestMismatch
  | incompatible (declared served : List Text)

def Recheck.reasons (r : Recheck) : List Reason :=
  (if r.corrupt then [.digestMismatch] else []) ++ match r.compat with
    | .ran declared served false => [.incompatible declared served]
    | _ => []

/-- What start-up found active, and what became of it. -/
inductive BundleState where
  | builtIn
  | active (generation : ℕ) (compat : CompatCheck)
  | deactivated (generation : ℕ) (reasons : List Reason) (removed : Bool)
  | unavailable (why : Rejection)

section Programs

variable (lib : Readers) (machine : Machine) (served : List Text)

def deactivate : Prog Store Rejection Bool := do
  match (← Prog.get).current with
  | none => pure false
  | some _ =>
    tryStep machine .pointer
    Prog.write fun s ↦ { s with current := none }
    pure true

def digestOf (tree : Tree) : Option Text :=
  if tree.entries.all fun e ↦ e.2.single then some (lib.digest tree) else none

def manifestOf (s : Store) (generation : ℕ) : Option Manifest :=
  (s.bundleDir generation).bind fun tree ↦ (readManifest lib tree).toOption.join

/-- A record that cannot be read ends the check before the manifest is looked at; a manifest
that cannot be read is taken for none. -/
def recheckActive (s : Store) : Except Rejection (Option Recheck) := do
  Data.ensure (!machine.fails .readPointer) .io
  match s.current with
  | none => pure none
  | some generation =>
    Data.ensure (!machine.fails .readRecord) .io
    let digestMatches := (s.records.get (numeral generation)).map fun record ↦
      !machine.fails .hash && (s.bundleDir generation).bind (digestOf lib) == some record.digest
    let manifest := if machine.fails .readManifest then none else manifestOf lib s generation
    match checkCompat manifest served with
    | .ok compat => pure (some ⟨generation, digestMatches, compat⟩)
    | .error (.incompatible declared served) =>
      pure (some ⟨generation, digestMatches, .ran declared served false⟩)
    | .error e => .error e

def recheck : Prog Store Rejection BundleState := do
  match recheckActive lib machine served (← Prog.get) with
  | .error why => pure (.unavailable why)
  | .ok none => pure .builtIn
  | .ok (some found) =>
    if found.reasons.isEmpty then pure (.active found.generation found.compat)
    else
      let removed ← Prog.attempt (deactivate machine)
      pure (.deactivated found.generation found.reasons (removed.toOption.getD false))

/-- The active tree is the one that was recorded, and declares a version that is served. -/
def Admitted (s : Store) : Prop :=
  ∀ generation, s.current = some generation →
    (∀ record, s.records.get (numeral generation) = some record →
      (s.bundleDir generation).bind (digestOf lib) = some record.digest) ∧
    ∃ compat, checkCompat (manifestOf lib s generation) served = .ok compat

/-- The reads of the recheck succeed, and so does the removal of the pointer. -/
def Sound : Prop :=
  ∀ step ∈ [.readPointer, .readRecord, .readManifest, .pointer], machine.fails step = false

end Programs

section Recheck

variable {lib : Readers} {machine : Machine} {served : List Text} {s : Store}

end Recheck

end MicaCore.Ui
